import CliMetadata.Proofs.TypeSystem.History

/-!
# What a type system has to say

A query yields an answer if it ends with this answer whatever is remembered, as
long as it is true, and given enough patience (`Query.Yields`).  So this is the
answer that a registry has for the query, and a query yields one answer at most
(`Query.Yields.eq`).  Queries that yield answers compose, and what is remembered
does not show (`Query.Yields.remember`).  A careful caller is given the answer
that a question yields, whatever was asked before
(`Session.IsCareful.answers_of_yields`).

Substitution yields the type with its variables replaced, as far as there are
arguments for them, and so for all types of a signature
(`MethodSignature.yields_substituted`), which is how the signature of a method
is seen on an applied definition (`Method.yields_signature_view`).
-/

namespace CliMetadata

open Filter Query

/-! ### Queries that yield answers -/

namespace Query

variable {α β : Type} {registry : Registry}

/-- An outcome that is reached is told, unless it is that there is no answer. -/
theorem Reaches.attempt {query : Nat → Query α} {outcome : Except Error α}
    (h : Reaches registry query outcome)
    (ends : ∀ name token, outcome ≠ .error (.circular name token)) :
    Reaches registry (fun l => (query l).attempt) (.ok outcome) := by
  filter_upwards [h] with l hl memory true
  obtain ⟨answer, kept⟩ := hl memory true
  have run : query l (registry.withPatience l) memory
      = (outcome, (query l (registry.withPatience l) memory).2) :=
      Prod.ext answer rfl
  rw [attempt_apply run ends]
  exact ⟨rfl, kept⟩

/-- Given enough patience, the query has this answer, whatever is remembered. -/
def Yields (registry : Registry) (query : Query α) (a : α) : Prop :=
  Reaches registry (fun _ => query) (.ok a)

namespace Yields

variable {query : Query α} {a b : α}

/-- A query yields one answer. -/
theorem eq (ha : query.Yields registry a) (hb : query.Yields registry b) :
    a = b := by
  -- There is patience enough for both.
  obtain ⟨l, hl, hl'⟩ := (Filter.Eventually.and ha hb).exists
  have first := (hl {} (Memory.isTrue_empty registry)).1
  have second := (hl' {} (Memory.isTrue_empty registry)).1
  exact Except.ok.inj (first.symm.trans second)

theorem pure (a : α) : (Pure.pure a : Query α).Yields registry a :=
  .of_forall fun _ _ true => ⟨rfl, true⟩

theorem bind {next : α → Query β} {c : β} (first : query.Yields registry a)
    (second : (next a).Yields registry c) :
    (query >>= next).Yields registry c :=
  Reaches.bind first second

/-- A result that needs no type system. -/
theorem lift {result : Except Error α} (h : result = .ok a) :
    (liftM result : Query α).Yields registry a := by
  rw [h]
  exact pure a

theorem ite {c : Prop} [Decidable c] {other : Query α}
    (first : c → query.Yields registry a)
    (second : ¬ c → other.Yields registry a) :
    (if c then query else other).Yields registry a := by
  by_cases h : c
  · rw [if_pos h]
    exact first h
  · rw [if_neg h]
    exact second h

/-- A query that looks at the registry, but not at its patience. -/
theorem read_bind {next : Registry → Query β} {c : β}
    (same : ∀ l, next (registry.withPatience l) = next registry)
    (h : (next registry).Yields registry c) :
    (MonadReader.read >>= next : Query β).Yields registry c := by
  filter_upwards [h] with l hl memory true
  have run : (MonadReader.read >>= next : Query β)
      (registry.withPatience l) memory
      = next (registry.withPatience l) (registry.withPatience l) memory := rfl
  rw [run, same]
  exact hl memory true

/-- What is yielded is yielded as a result. -/
theorem attempt (h : query.Yields registry a) :
    query.attempt.Yields registry (.ok a) :=
  Reaches.attempt h nofun

/-- Remembering does not change what a query yields. -/
theorem remember {fact : Fact} {find : Query fact.Value} {value : fact.Value}
    (asks : ∀ room, fact.ask room = Query.remember fact find)
    (steady : fact.IsSteady registry.modules) (h : find.Yields registry value) :
    (Query.remember fact find).Yields registry value :=
  Reaches.rememberIf (.of_ask asks) steady (fun _ _ => h) tendsto_id

/-- What is answered where nothing is remembered is yielded. -/
theorem of_apply {lasting : Gap → α → Prop} (sound : registry.IsSound)
    (transfers : query.Transfers .none registry registry lasting fun _ => query)
    (answer : (query registry {}).1 = .ok a) : query.Yields registry a :=
  transfers.reaches_of_apply (.rfl sound.live) sound answer (.inl rfl)

/-- What is answered in every faithful memory is yielded. -/
theorem of_answers {lasting : Gap → α → Prop} (sound : registry.IsSound)
    (transfers : query.Transfers .none registry registry lasting fun _ => query)
    (answers : query.Answers registry false (fun _ => True) (· = a)) :
    query.Yields registry a := by
  -- What is answered where nothing is remembered is an answer in a faithful
  -- memory.
  obtain ⟨b, answer, rfl⟩ := answers {} (sound.isFaithful_empty)
    fun _ _ => nofun
  exact of_apply sound transfers answer

/-- What is yielded is made of nodes. -/
theorem areNodes {types : α → List Ty} (h : query.Yields registry a)
    (sound : registry.IsSound)
    (gives : ∀ l, query.Gives (registry.withPatience l) false
      (fun _ => True) types) :
    AreNodes registry.modules (fun _ => True) (types a) := by
  obtain ⟨l, hl⟩ := h.exists
  obtain ⟨-, -, nodes⟩ := gives l {} (sound.withPatience l).isFaithful_empty
    fun _ _ => nofun
  exact (nodes a (hl {} (Memory.isTrue_empty registry)).1).le
    fun _ _ => True.intro

end Yields

/-- Given enough patience, wherever `before` holds of what is remembered, the
query runs to this outcome, and `after` holds of what it leaves. -/
def RunsTo (registry : Registry) (before after : Memory → Prop)
    (query : Query α) (outcome : Except Error α) : Prop :=
  ∀ᶠ l in atTop, ∀ memory, before memory →
    (query (registry.withPatience l) memory).1 = outcome ∧
      after (query (registry.withPatience l) memory).2

namespace RunsTo

variable {before between after : Memory → Prop} {query : Query α}
  {outcome : Except Error α}

/-- Less may be asked of the memory before, and said of it afterwards. -/
theorem imp {before' after' : Memory → Prop}
    (h : query.RunsTo registry before after outcome)
    (pre : ∀ memory, before' memory → before memory)
    (post : ∀ memory, after memory → after' memory) :
    query.RunsTo registry before' after' outcome :=
  h.mono fun _ hl memory hmemory =>
    ⟨(hl memory (pre memory hmemory)).1,
      post _ (hl memory (pre memory hmemory)).2⟩

/-- A query that leaves no traces. -/
theorem of_outcome
    (run : ∀ l memory, query (registry.withPatience l) memory
      = (outcome, memory))
    (keeps : ∀ memory, before memory → after memory) :
    query.RunsTo registry before after outcome :=
  .of_forall fun l memory hmemory => by
    rw [run]
    exact ⟨rfl, keeps memory hmemory⟩

theorem pure (a : α) (keeps : ∀ memory, before memory → after memory) :
    (Pure.pure a : Query α).RunsTo registry before after (.ok a) :=
  of_outcome (fun _ _ => rfl) keeps

theorem throw (error : Error) (keeps : ∀ memory, before memory → after memory) :
    (MonadExcept.throw error : Query α).RunsTo registry before after
      (.error error) :=
  of_outcome (fun _ _ => rfl) keeps

/-- A result that needs no type system. -/
theorem lift {result : Except Error α} {a : α} (h : result = .ok a) :
    (liftM result : Query α).RunsTo registry before before (.ok a) := by
  rw [h]
  exact pure a fun _ => id

theorem bind {next : α → Query β} {a : α} {outcome : Except Error β}
    (first : query.RunsTo registry before between (.ok a))
    (second : (next a).RunsTo registry between after outcome) :
    (query >>= next).RunsTo registry before after outcome := by
  filter_upwards [first, second] with l hl hl' memory hmemory
  obtain ⟨answer, left⟩ := hl memory hmemory
  rw [bind_apply_ok (Prod.ext answer rfl)]
  exact hl' _ left

/-- A query that looks at the registry, but not at its patience. -/
theorem read_bind {next : Registry → Query α}
    (same : ∀ l, next (registry.withPatience l) = next registry)
    (h : (next registry).RunsTo registry before after outcome) :
    (MonadReader.read >>= next : Query α).RunsTo registry before after
      outcome := by
  filter_upwards [h] with l hl memory hmemory
  have run : (MonadReader.read >>= next : Query α)
      (registry.withPatience l) memory
      = next (registry.withPatience l) (registry.withPatience l) memory := rfl
  rw [run, same]
  exact hl memory hmemory

/-- What is done with an answer leaves an error as it is. -/
theorem map (h : query.RunsTo registry before after outcome) (f : α → β) :
    (do return f (← query) : Query β).RunsTo registry before after
      (outcome.map f) := by
  cases outcome with
  | ok a => exact h.bind (pure (f a) fun _ => id)
  | error error =>
    filter_upwards [h] with l hl memory hmemory
    obtain ⟨answer, left⟩ := hl memory hmemory
    rw [bind_apply_error (Prod.ext answer rfl)]
    exact ⟨rfl, left⟩

theorem requireTypeSystem (live : registry.held = none) :
    CliMetadata.requireTypeSystem.RunsTo registry before before (.ok ()) :=
  of_outcome (fun _ _ => requireTypeSystem_apply live) fun _ => id

theorem reachModule (proper : registry.IsProper) (live : registry.held = none)
    {m : Module} (hm : m ∈ registry.modules) :
    (CliMetadata.reachModule m.name).RunsTo registry before before (.ok m) := by
  refine of_outcome (fun l memory => ?_) fun _ => id
  have proper' : (registry.withPatience l).IsProper := { proper with }
  exact reachModule_apply proper' live hm memory

end RunsTo

namespace Reaches

/-- A query may look at the registry, with its patience. -/
theorem read_bind {next : Nat → Registry → Query α} {outcome : Except Error α}
    (h : Reaches registry (fun l => next l (registry.withPatience l)) outcome) :
    Reaches registry (fun l => MonadReader.read >>= next l) outcome :=
  h

theorem throw (error : Error) :
    Reaches registry (fun _ => (MonadExcept.throw error : Query α))
      (.error error) :=
  .of_forall fun _ _ true => ⟨rfl, true⟩

/-- What is done with an answer leaves an error as it is. -/
theorem map {query : Nat → Query α} {outcome : Except Error α}
    (h : Reaches registry query outcome) (f : α → β) :
    Reaches registry (fun l => do return f (← query l)) (outcome.map f) := by
  cases outcome with
  | error error => exact h.bind_error
  | ok a => exact h.bind (Yields.pure (f a))

end Reaches

end Query

section
variable {registry : Registry} (sound : registry.IsSound)
include sound

theorem yields_requireTypeSystem : requireTypeSystem.Yields registry () := by
  have passes : requireTypeSystem.Answers registry false
      (fun _ => True) (· = ()) :=
    (answers_requireTypeSystem sound.live).imp fun _ _ => rfl
  exact .of_answers sound transfers_requireTypeSystem passes

/-- A module is found by its name. -/
theorem yields_reachModule {m : Module} (hm : m ∈ registry.modules) :
    (reachModule m.name).Yields registry m :=
  .of_answers sound (transfers_reachModule _)
    (answers_reachModule sound.live hm)

/-- A text of a module is read there. -/
theorem yields_string {m : Module} (hm : m ∈ registry.modules)
    {moduleName : String} (named : m.name = moduleName) {position : UInt32}
    {text : String} (there : m.image.string position = .ok text) :
    (do (← reachModule moduleName).image.string position : Query String).Yields
      registry text := by
  rw [← named]
  exact (yields_reachModule sound hm).bind (.lift there)

/-- The signature of a method is what its blob spells. -/
theorem MethodDefinition.yields_resolved {m : Module}
    (hm : m ∈ registry.modules) {d : MethodDefinition}
    (named : m.name = d.module) {blob : List UInt8} {spelled : MethodSig}
    {signature : MethodSignature} (there : m.image.blob d.signature = .ok blob)
    (parsed : MethodSig.ofBytes registry.options.maxSignatureDepth blob
      = .ok spelled)
    (resolved : (m.resolveMethod spelled).Yields registry signature) :
    d.resolved.Yields registry signature := by
  refine .remember (fun _ => rfl) trivial ?_
  rw [← named]
  refine (yields_reachModule sound hm).bind
    ((Yields.lift there).bind (.read_bind (fun _ => rfl) ?_))
  exact (Yields.lift parsed).bind resolved

/-- The type that a token declares is where it leads. -/
theorem Module.yields_type_of_declares {m : Module} (hm : m ∈ registry.modules)
    {token : Token} {t : Ty} (declares : m.Declares token t) :
    (m.type token).Yields registry (some t) := by
  have settled := Memory.isSettled_empty registry
  exact .of_apply sound (transfers_type m hm token)
    (Module.type_eq_ok_of_declares sound settled hm declares)

/-! ### Substitution -/

variable {types methods : List Ty}

/-- Substitution replaces all variables of a type. -/
theorem Ty.yields_substituted {t : Ty}
    (ht : t.IsNode registry.modules fun _ => True)
    (htypes : AreNodes registry.modules (fun _ => True) types)
    (hmethods : AreNodes registry.modules (fun _ => True) methods) :
    (t.substituted types methods).Yields registry (t.replaced types methods) :=
  .of_answers sound (t.transfers_substituted types methods)
    (Ty.answers_substituted sound.live ht htypes hmethods)

omit sound in
/-- What each of several queries yields. -/
theorem yields_mapM {α β : Type} {change : α → Query β} {changed : α → β}
    {items : List α}
    (changes : ∀ a ∈ items, (change a).Yields registry (changed a)) :
    (items.mapM change).Yields registry (items.map changed) := by
  induction items with
  | nil =>
    rw [List.mapM_nil]
    exact .pure []
  | cons a rest ih =>
    obtain ⟨first, others⟩ := List.forall_mem_cons.mp changes
    rw [List.mapM_cons]
    exact first.bind ((ih others).bind (.pure _))

end

/-- A signature with each type variable replaced by the argument of its number,
if there is one. -/
def MethodSignature.replaced (types : List Ty) (signature : MethodSignature) :
    MethodSignature where
  flags := signature.flags
  genericCount := signature.genericCount
  result := signature.result.replaced types []
  parameters := signature.parameters.map (Ty.replaced types [])
  modifiers := signature.modifiers.map fun modifier =>
    { modifier with type := modifier.type.replaced types [] }

/-- Without arguments nothing is replaced. -/
@[simp]
theorem Ty.replaced_nil (t : Ty) : t.replaced [] [] = t := by
  refine t.replaced_of_isUnmatched fun index isMethod _ => ?_
  cases isMethod <;> exact Nat.zero_le _

@[simp]
theorem MethodSignature.replaced_nil (signature : MethodSignature) :
    signature.replaced [] = signature := by
  have same : Ty.replaced [] [] = id := funext Ty.replaced_nil
  rw [replaced, same]
  simp

/-- Substitution in a signature replaces the variables of its types. -/
theorem MethodSignature.yields_substituted {registry : Registry}
    (sound : registry.IsSound) {signature : MethodSignature} {types : List Ty}
    (hsignature : AreNodes registry.modules (fun _ => True) signature.types)
    (htypes : AreNodes registry.modules (fun _ => True) types) :
    (signature.substituted types).Yields registry
      (signature.replaced types) := by
  refine .ite (fun nothing => ?_) fun _ => ?_
  · obtain rfl := List.isEmpty_iff.mp nothing
    rw [replaced_nil]
    exact .pure signature
  -- The types of a signature are its result, its parameters and its modifiers.
  · obtain ⟨hparameters, hmodifiers⟩ :=
      List.forall_mem_append.mp hsignature.tail
    have parameters :
        (signature.parameters.mapM fun t : Ty => t.substituted types []).Yields
          registry (signature.parameters.map (Ty.replaced types [])) :=
      yields_mapM fun t ht => Ty.yields_substituted sound
        (hparameters t ht) htypes .nil
    have modifiers :
        (signature.modifiers.mapM fun modifier : ResolvedModifier =>
        modifier.substituted types).Yields registry
          (signature.replaced types).modifiers := by
      refine yields_mapM fun modifier hmodifier => ?_
      have node := hmodifiers modifier.type (List.mem_map_of_mem hmodifier)
      exact (Ty.yields_substituted sound node htypes .nil).bind (.pure _)
    have result := Ty.yields_substituted sound hsignature.head htypes .nil
    exact parameters.bind (modifiers.bind (result.bind (.pure _)))

/-- The signature of a method as a member of an applied definition. -/
theorem Method.yields_signature_view {registry : Registry}
    (sound : registry.IsSound) {method : Method} {signature : MethodSignature}
    {d : TypeDefinition} {types : List Ty}
    (htypes : AreNodes registry.modules (fun _ => True) types)
    (nodes : AreNodes registry.modules (fun _ => True) method.types)
    (yields : method.signature.Yields registry signature) :
    (Method.view method (.applied d types)).signature.Yields registry
      (signature.replaced types) := by
  have hsignature : AreNodes registry.modules (fun _ => True) signature.types :=
    yields.areNodes sound fun l => Method.gives_signature nodes
  have instantiation : (Ty.applied d types).instantiation.Yields registry
      types := .pure types
  refine .remember (fun _ => rfl) trivial (yields.bind (instantiation.bind ?_))
  exact MethodSignature.yields_substituted sound hsignature htypes

/-! ### Sessions -/

/-- What a question yields, a careful caller is told, whatever was asked
before. -/
theorem Session.IsCareful.answers_of_yields {s : Session} {options : Options}
    (h : s.IsCareful options) {α : Type} {query : Query α} {a : α}
    (yields : query.Yields s.system.registry a) :
    ∀ᶠ patience in atTop, ((s.system.withPatience patience).ask query).1
      = .ok a := by
  filter_upwards [yields] with patience answers
  exact (answers s.system.memory h.isSettled.memory.isTrue).1

end CliMetadata
