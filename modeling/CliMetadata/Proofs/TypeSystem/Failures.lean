import CliMetadata.Proofs.Table.Relations
import CliMetadata.Proofs.TypeSystem.Nearest
import CliMetadata.Proofs.TypeSystem.Nesting
import CliMetadata.Proofs.TypeSystem.Paths
import CliMetadata.Proofs.TypeSystem.Recurring.Bases

/-!
# How bases fail

A base that cannot be told is a matter of loading: whatever goes wrong behind
the token of a base is reported against the definition, and what follows once
the base is found, that variables are replaced by the definition's own
parameters, does not fail in a live type system.  Nothing is remembered of a
failure.  So the next question for the base starts anew, and may succeed
(`Session.IsReachable.tellsBase`).
-/

namespace CliMetadata

open Query

/-- What the question for a base fails with, unless it runs in a circle. -/
def Error.IsOfLoading (e : Error) : Prop :=
  (∀ name token, e ≠ .circular name token) → e.isLoad = true ∨
    e.isConfiguration = true

/-! ### Questions that cannot fail in another way -/

/-- A failure is not one of remembering. -/
theorem Query.rememberIf_eq_error {fact : Fact} {isKept : fact.Value → Bool}
    {find : Query fact.Value} {registry : Registry} {memory : Memory}
    {e : Error}
    (failed : (rememberIf fact isKept find registry memory).1 = .error e) :
    memory.facts.get? fact = none ∧ (find registry memory).1 = .error e := by
  cases known : memory.facts.get? fact with
  | some value =>
    rw [rememberIf_apply_some known] at failed
    cases failed
  | none => exact ⟨rfl, (rememberIf_apply_unknown known).symm.trans failed⟩

namespace Query.FailsBy

variable {α β : Type} {registry : Registry} {query : Query α} {P : Error → Prop}

theorem throw {error : Error} (h : P error) :
    (MonadExcept.throw error : Query α).FailsBy registry P := by
  rintro _ _ _ ⟨⟩
  exact h

theorem ite {c : Prop} [Decidable c] {other : Query α}
    (first : c → query.FailsBy registry P)
    (second : ¬ c → other.FailsBy registry P) :
    (if c then query else other).FailsBy registry P := by
  split
  exacts [first ‹_›, second ‹_›]

/-- A query with an answer does not fail. -/
theorem of_answers {Q : α → Prop}
    (h : query.Answers registry true (fun _ => False) Q) :
    query.FailsBy registry P := by
  intro memory faithful e failed
  obtain ⟨a, run, -⟩ := h memory faithful fun _ => False.elim
  rw [run] at failed
  cases failed

/-- The outcome of a query is told unless it runs in a circle. -/
theorem attempt (circular : ∀ name token, P (.circular name token)) :
    query.attempt.FailsBy registry P := by
  intro memory _ e failed
  rw [Query.attempt] at failed
  split at failed
  · cases failed
    exact circular _ _
  · cases failed

/-- Where the next query has an answer, only the first can fail. -/
theorem bind_answers {shared : Ty → Prop} {next : α → Query β}
    {R : (Ty → Prop) → α → Prop} (first : query.FailsBy registry P)
    (kept : query.Ensures registry true shared R)
    (second : ∀ shared', (∀ t, shared t → shared' t) → ∀ a,
      R shared' a → (next a).Answers registry true shared' fun _ => True)
    {memory : Memory} (faithful : memory.IsFaithful registry true)
    (hshared : ∀ t, shared t → memory.Shares true t) {e : Error}
    (failed : ((query >>= next) registry memory).1 = .error e) : P e := by
  obtain ⟨grows, faithful', answer⟩ := kept memory faithful hshared
  rcases hrun : query registry memory with ⟨error | a, memory'⟩
  · -- The first query failed.
    rw [bind_apply_error hrun] at failed
    cases failed
    exact first memory faithful e (by rw [hrun])
  · -- It answered, and what follows cannot fail.
    rw [hrun] at grows faithful' answer
    rw [bind_apply_ok hrun] at failed
    obtain ⟨b, run, -⟩ := second _ (fun t ht => (hshared t ht).grow grows) a
      (answer a rfl) memory' faithful' fun _ => id
    rw [run] at failed
    cases failed

end Query.FailsBy

/-! ### Bases -/

section
variable {registry : Registry} {tracked : Bool} {shared : Ty → Prop}
  {m : Module} {d : TypeDefinition}

theorem Error.isOfLoading_circular (name : String) (token : Token) :
    (Error.circular name token).IsOfLoading :=
  fun ends => absurd rfl (ends name token)

theorem TypeDefinition.failsBy_subject (d : TypeDefinition)
    (moduleName : String) :
    (d.subject moduleName).FailsBy registry Error.IsOfLoading := by
  refine (FailsBy.attempt Error.isOfLoading_circular).bind
    d.keeps_namespaceText.attempt fun _ _ _ => ?_
  refine (FailsBy.attempt Error.isOfLoading_circular).bind
    d.keeps_simpleName.attempt fun _ _ _ => ?_
  exact .pure _

theorem Ty.failsBy_display (t : Ty) :
    t.display.FailsBy registry Error.IsOfLoading :=
  (FailsBy.attempt Error.isOfLoading_circular).bind t.keeps_fullName.attempt
    fun _ _ _ => .pure _

/-- What cannot be told of a base is reported as a failure to load it. -/
theorem TypeDefinition.failsBy_openBase (live : registry.held = none)
    (hm : m ∈ registry.modules) (named : m.name = d.module) :
    d.openBase.FailsBy registry Error.IsOfLoading := by
  refine .ite (fun _ => .pure none) fun _ => ?_
  have reach : (reachModule d.module).FailsBy registry Error.IsOfLoading :=
    named ▸ .of_answers (answers_reachModule live hm)
  refine reach.bind (ensures_reachModule d.module) fun _ n hn => ?_
  refine (FailsBy.attempt Error.isOfLoading_circular).bind
    (givesNodes_type n hn.1 d.base).attempt
    fun shared found hfound => ?_
  rcases found with cause | _ | base
  · -- The base could not be resolved, which is reported with its cause.
    refine .ite (fun reported => .throw fun _ => reported) fun _ => ?_
    exact (d.failsBy_subject n.name).bind (d.keeps_subject n.name) fun _ _ _ =>
      .throw fun _ => .inl rfl
  · -- The base is missing.
    exact (d.failsBy_subject n.name).bind (d.keeps_subject n.name) fun _ _ _ =>
      .throw fun _ => .inl rfl
  · -- The base is there, and may be of the wrong sort.
    refine .ite (fun _ => .pure _) fun _ => ?_
    refine base.failsBy_display.bind base.keeps_display fun _ _ _ => ?_
    exact (d.failsBy_subject n.name).bind (d.keeps_subject n.name) fun _ _ _ =>
      .throw fun _ => .inl rfl

theorem failsBy_wellKnown (kind : WellKnown) :
    (wellKnown kind).FailsBy registry Error.IsOfLoading := by
  refine FailsBy.read_bind ?_
  split
  · exact .pure _
  · exact .throw fun _ => .inr rfl

/-- Each generic parameter that a module lists has a row. -/
def Registry.ListsParameters (registry : Registry) : Prop :=
  ∀ m ∈ registry.modules, ∀ owner, ∀ token ∈ m.image.genericParamsOf owner,
    (m.image.genericParam? token).isSome

theorem Registry.ListsParameters.hasParameters (h : registry.ListsParameters)
    (declared : d.IsDeclared registry.modules) :
    ∃ count, d.HasParameters registry.modules count := by
  obtain ⟨m, hm, row, -, rfl⟩ := declared
  exact ⟨_, m, hm, rfl, rfl, h m hm _⟩

section
variable (live : registry.held = none) {base : Ty} {types : List Ty}
include live

/-- A base with its variables replaced is told. -/
theorem Ty.answers_substituted_base
    (hbase : base.IsNode registry.modules shared)
    (htypes : AreNodes registry.modules shared types) :
    (do return some (← base.substituted types []) : Query (Option Ty)).Answers
      registry tracked shared
      fun _ => True :=
  (Ty.answers_substituted live hbase htypes .nil).bind
    (Ty.gives_substituted hbase htypes .nil)
    fun _ _ _ _ _ => .pure trivial

variable (lists : registry.ListsParameters) {memory : Memory}
  (faithful : memory.IsFaithful registry true) {e : Error}
include lists faithful

theorem TypeDefinition.isOfLoading_baseType
    (declared : d.IsDeclared registry.modules)
    (failed : (d.baseType registry memory).1 = .error e) : e.IsOfLoading := by
  obtain ⟨count, parameters⟩ := lists.hasParameters declared
  obtain ⟨m, hm, row, -, rfl⟩ := declared
  refine (TypeDefinition.failsBy_openBase live hm rfl).bind_answers
    (TypeDefinition.gives_openBase _) (fun _ _ base hbase => ?_) faithful
    (fun _ => id) (rememberIf_eq_error failed).2
  cases base with
  | none => exact .pure trivial
  | some base =>
    refine .ite (fun _ => ?_) fun _ => .pure trivial
    refine (TypeDefinition.answers_parameters live parameters).bind
      (TypeDefinition.ensures_parameters _) fun _ le own _ hown => ?_
    exact Ty.answers_substituted_base live (hbase.head.le le) hown.1

/-- The question for the base of a type fails with an error of loading or
configuration, or runs in a circle. -/
theorem Ty.isOfLoading_base {t : Ty}
    (ht : t.IsNode registry.modules (memory.Shares true))
    (failed : (t.base registry memory).1 = .error e) : e.IsOfLoading := by
  cases ht with
  | definition declared =>
    exact TypeDefinition.isOfLoading_baseType live lists faithful
      declared failed
  | @applied d arguments definition harguments =>
    -- An applied type fails as its definition does, for replacing arguments
    -- cannot fail.
    cases definition with
    | definition declared =>
      obtain ⟨m, hm, row, -, rfl⟩ := declared
      refine (TypeDefinition.failsBy_openBase live hm rfl).bind_answers
        (TypeDefinition.gives_openBase _) (fun _ le base hbase => ?_) faithful
        (fun _ => id) (rememberIf_eq_error failed).2
      cases base with
      | none => exact .pure trivial
      | some base =>
        exact Ty.answers_substituted_base live hbase.head
          (AreNodes.le harguments le)
  | @shaped shape element =>
    -- An array fails only if its base is not there yet.
    have fails : (Ty.shaped shape element).base.FailsBy registry
        Error.IsOfLoading := by
      refine .ite (fun _ => .pure none) fun _ => ?_
      refine (FailsBy.of_answers (answers_requireTypeSystem live)).bind
        keeps_requireTypeSystem
        fun _ _ _ => ?_
      exact (failsBy_wellKnown .array).bind (gives_wellKnown .array)
        fun _ _ _ => .pure _
    exact fails memory faithful e failed
  | parameter | var => cases failed

end

end

/-! ### What is remembered -/

section
variable {registry : Registry} {memory : Memory} {d : TypeDefinition}
  {patience : Nat}

/-- A base that could not be told is not known afterwards. -/
theorem TypeDefinition.unknown_of_error (proper : registry.IsProper) {e : Error}
    (failed : (d.baseType (registry.withPatience patience) memory).1 = .error e)
    (ends : ∀ name token, e ≠ .circular name token) :
    (d.baseType (registry.withPatience patience) memory).2.facts.get?
      (.ofType (.definition d) .base) = none := by
  have recurs : Recurs registry memory patience fun _ => d.baseType :=
    d.recurs_baseType proper
  have settled := Memory.isSettledSince_base registry memory
  have after := recurs.settles memory settled
  have reached := recurs.reaches memory settled
  rw [failed] at reached
  -- It was not known before, and could become known only as what is found from
  -- there.
  have before := (rememberIf_eq_error failed).1
  by_contra known
  obtain ⟨base, known⟩ := Option.ne_none_iff_exists'.mp known
  have found := (after.facts _ base known before trivial).reaches id
    Filter.tendsto_id
  have reached := reached fun name token same => ends name token
    (Except.error.inj same)
  cases found.eq reached

theorem TypeDefinition.baseState_apply_unknown
    (unknown : memory.facts.get? (.ofType (.definition d) .base) = none) :
    d.baseState registry memory = (.ok .unknown, memory) := by
  have look : established? (.ofType (.definition d) .base) registry memory
      = (.ok none, memory) := by
    rw [← unknown]
    rfl
  exact bind_apply_ok look

theorem Ty.exists_of_canBeBase {t : Ty} (h : t.canBeBase = true) :
    (∃ d, t = .definition d) ∨ ∃ d arguments, t = .applied d arguments := by
  cases t with
  | definition d => exact .inl ⟨d, rfl⟩
  | applied d arguments => exact .inr ⟨d, arguments, rfl⟩
  | parameter | var | shaped => cases h

theorem Memory.IsFaithful.withPatience {tracked : Bool}
    (h : memory.IsFaithful registry tracked) (patience : Nat) :
    memory.IsFaithful (registry.withPatience patience) tracked where
  proper := ⟨h.proper.rows, h.proper.names⟩
  wellKnown := h.wellKnown
  methodOwners := h.methodOwners
  fieldOwners := h.fieldOwners
  facts := h.facts
  kept := h.kept
  nodes := h.nodes

end

/-! ### Sessions -/

/-- How the question for the base of a type ends. -/
structure TypeSystem.TellsBase (system : TypeSystem) (t : Ty) : Prop where
  /-- A failure is one of loading or of configuration. -/
  fails : ∀ patience e, ((system.withPatience patience).ask t.base).1
    = .error e →
    (∀ name token, e ≠ .circular name token) →
    e.isLoad = true ∨ e.isConfiguration = true
  /-- A failure is not remembered. -/
  forgets : ∀ d, t = .definition d → ∀ patience e,
    ((system.withPatience patience).ask t.base).1 = .error e →
    (∀ name token, e ≠ .circular name token) →
      (((system.withPatience patience).ask t.base).2.ask d.baseState).1
        = .ok .unknown
  /-- A definition has a base exactly if its row names one, and this is a
  definition or applies one. -/
  suits : ∀ d, t = .definition d → ∀ patience base,
    ((system.withPatience patience).ask t.base).1 = .ok base →
      (base = none ↔ d.base.isNull = true) ∧
        ∀ u ∈ base, (∃ e, u = .definition e) ∨
          ∃ e arguments, u = .applied e arguments

namespace Session

variable {s : Session} {options : Options}

/-- The modules of a session were built. -/
theorem IsReachable.exists_isBuilt (h : s.IsReachable options) :
    ∀ m ∈ s.system.registry.modules,
      ∃ b : ModuleBuilder, b.IsBuilt ∧ m = .ofImage b.image := by
  induction h with
  | new => exact List.forall_mem_nil _
  | step _ step ih =>
    cases step with
    | @addModule b system built added =>
      rw [TypeSystem.addModule] at added
      split at added
      · cases added
      · cases added
        -- The module was there before, or is the one that is added.
        intro m hm
        rcases List.mem_append.mp hm with hm | hm
        · exact ih m hm
        · exact ⟨b, built, List.mem_singleton.mp hm⟩
    | start started =>
      obtain ⟨fixed, wellKnown, same⟩ := TypeSystem.registry_start _
      rw [started] at same
      rw [same]
      exact ih
    | failed _ _ asked | answered _ asked =>
      -- Questions change no module.
      rw [TypeSystem.registry_of_ask asked]
      exact ih

/-- The generic parameters that modules list have rows, as long as tokens tell
the rows apart. -/
theorem IsReachable.listsParameters (h : s.IsReachable options)
    (small : ∀ m ∈ s.system.registry.modules, m.image.tables.AreSmall) :
    s.system.registry.ListsParameters := by
  intro m hm owner token listed
  obtain ⟨b, built, rfl⟩ := h.exists_isBuilt m hm
  obtain ⟨i, place⟩ := List.mem_iff_getElem?.mp listed
  obtain ⟨row, found, -⟩ := (built.isConsistent (small _ hm)).genericParam owner
    i token place
  exact Option.isSome_of_eq_some found

/-- In any session the base of a type is told, or fails to load, which is not
remembered. -/
theorem IsReachable.tellsBase (h : s.IsReachable options)
    (small : ∀ m ∈ s.system.registry.modules, m.image.tables.AreSmall) {t : Ty}
    (ht : t ∈ s.types) :
    s.system.TellsBase t where
  -- Errors are of loading.
  fails patience e failed ends := by
    have faithful := h.isFaithful.system.withPatience patience
    have live : (s.system.registry.withPatience patience).held = none := h.live
    have lists := h.listsParameters small
    exact Ty.isOfLoading_base live lists faithful
      (h.isFaithful.held t ht) failed ends
  -- After an error nothing is known of the base.
  forgets d same patience e failed ends := by
    subst same
    have unknown := TypeDefinition.unknown_of_error
      h.isFaithful.system.proper failed ends
    exact congrArg Prod.fst (TypeDefinition.baseState_apply_unknown unknown)
  -- A base that is told is absent exactly for a null token.
  suits d same patience base told := by
    subst same
    have faithful := h.isFaithful.system.withPatience patience
    obtain ⟨-, -, answer⟩ := d.ensures_baseType s.system.memory faithful
      fun _ => False.elim
    obtain ⟨null, suits⟩ := (answer base told).2
    exact ⟨null, fun u hu => Ty.exists_of_canBeBase (suits u hu)⟩

/-! A type with the base of all types, which is not known before the type system
is started. -/

def earlyCalls : List ModuleBuilder.Call :=
  [.typeSpec (.primitive .object), .typeDef "N" "Early" .public ⟨0x1B000001⟩]

def earlyModule :
    Module := .ofImage ((ModuleBuilder.new "App").applyAll earlyCalls).image

def early : TypeDefinition where
  module := "App"
  token := ⟨0x02000002⟩
  flags := .public
  name := 10
  namespaceName := 16
  base := ⟨0x1B000001⟩

theorem declares_early :
    earlyModule.Declares ⟨0x02000002⟩ (.definition early) := ⟨_, rfl, rfl⟩

section
variable {registry : Registry} (sound : registry.IsSound)
  (hm : earlyModule ∈ registry.modules) (unstarted : registry.wellKnown = none)
include sound hm unstarted

theorem reaches_type_early (limit : registry.options.maxSignatureDepth = 50) :
    Reaches registry (fun _ => earlyModule.type ⟨0x1B000001⟩)
      (.error .notReady) := by
  -- The type system was not made ready.
  have unknown : Reaches registry (fun _ => wellKnown .object)
      (.error .notReady) := by
    refine Reaches.read_bind ?_
    simp only [Registry.withPatience, unstarted]
    exact .throw _
  have spelled : TypeSig.ofBytes registry.options.maxSignatureDepth [0x1C]
      = .ok (.primitive .object) := by
    rw [limit]
    rfl
  -- The token is resolved by its specification.
  refine Reaches.read_bind (Module.reaches_typeWithin sound hm (by decide)
    (fun room _ => ?_) registry.tendsto_referenceBound)
  refine Reaches.bind_error (Reaches.bind (a := [0x1C]) (Yields.lift rfl)
    (Reaches.read_bind ?_))
  exact Reaches.bind (Yields.lift spelled)
    (Reaches.bind (yields_requireTypeSystem sound) unknown)

theorem reaches_base_early (limit : registry.options.maxSignatureDepth = 50) :
    Reaches registry (fun _ => (Ty.definition early).base)
      (.error .notReady) := by
  have told := (reaches_type_early sound hm unstarted limit).attempt nofun
  have opened : Reaches registry (fun _ => early.openBase) (.error .notReady) :=
    Reaches.bind (yields_reachModule sound hm) (Reaches.bind told (.throw _))
  exact Reaches.rememberIf (.of_ask fun _ => rfl) trivial
    (fun _ _ => opened.bind_error) Filter.tendsto_id

end

/-- Before the type system is started, the base fails to be told, which is not
remembered. -/
theorem early_tellsBase : ∃ s : Session, s.IsReachable {} ∧
    (∀ m ∈ s.system.registry.modules, m.image.tables.AreSmall) ∧
    .definition early ∈ s.types ∧
    s.system.TellsBase (.definition early) ∧
    s.system.ComesTo (Ty.definition early).base (· = .error .notReady) := by
  obtain ⟨s, careful, same, held⟩ :=
    exists_holds earlyCalls (by constructor <;> decide) declares_early
  have small : ∀ m ∈ s.system.registry.modules, m.image.tables.AreSmall := by
    rw [same]
    exact List.forall_mem_singleton.mpr (by constructor <;> decide)
  have tells := IsReachable.tellsBase careful.isReachable small held
  refine ⟨s, careful.isReachable, small, held, tells, ?_⟩
  have sound := careful.isReachable.isSound
  have hm : earlyModule ∈ s.system.registry.modules := by
    rw [same]
    exact List.mem_singleton_self _
  -- The base is the one that is not there yet.
  have reached := reaches_base_early sound hm (by rw [same]) (by rw [same])
  exact reached.mono fun _ reaches =>
    (reaches s.system.memory careful.isSettled.memory.isTrue).1

end Session

end CliMetadata
