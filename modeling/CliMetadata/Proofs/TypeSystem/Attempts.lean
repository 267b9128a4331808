import CliMetadata.Proofs.TypeSystem.History

/-!
# Attempts to start

A start looks for one kind of well-known type after the other and fixes
categories on the way, so that a start that fails at a kind has fixed those of
the kinds in front of it.  What it met on the way is remembered as well, which
no answer shows.

Main results: a failed start leaves the type system as unready as it was and
changes its registry by the categories of the types in front of the one that is
missing (`IsCareful.start_failed`); beyond what is published there, no answer
shows that a start was attempted (`IsCareful.answers_after_start`), and so none
does where no category was fixed anew (`IsCareful.answers_after_failed_start`).
What a failed start shows in is categories: that of a definition which was not
ready is answered from then on if it was fixed
(`IsCareful.category_after_failed_start`).
-/

namespace CliMetadata

open Filter Query

/-! ### Where looking for well-known types ends -/

/-- The categories that are fixed when types are found for kinds. -/
def fixedFor (kinds : List WellKnown) (types : List Ty) :
    List (Ty × Category) :=
  (kinds.zip types).flatMap fun found =>
    (found.1.fixedCategory?.map (found.2, ·)).toList

namespace TypeSystem

variable {system later : TypeSystem} {m : Module}

/-- Some kinds are looked for up to one that the module does not declare. -/
structure StopsAt (system : TypeSystem) (m : Module) (found : List WellKnown)
    (types : List Ty) (missing : WellKnown) (later : TypeSystem) : Prop where
  declared : List.Forall₂ m.DeclaresWellKnown found types
  undeclared : ¬ ∃ t, m.DeclaresWellKnown missing t
  registry : later.registry = { system.registry with
    fixedCategories := system.registry.fixedCategories ++ fixedFor found types }

/-- One kind more is found in front of the others. -/
theorem StopsAt.cons {kind missing : WellKnown} {found : List WellKnown}
    {t : Ty} {types : List Ty} {memory : Memory}
    (declares : m.DeclaresWellKnown kind t)
    (stops : StopsAt (fixCategory { system with memory } t kind) m found types
      missing later) :
    system.StopsAt m (kind :: found) (t :: types) missing later where
  declared := .cons declares stops.declared
  undeclared := stops.undeclared
  registry := by
    rw [stops.registry, fixCategory_eq, List.append_assoc]
    rfl

/-- Where looking for well-known types fails, the module does not declare one of
them. -/
theorem stopsAt_findWellKnown (sound : system.registry.IsSound)
    (owns : system.registry.OwnsMembers)
    (settled : system.memory.IsSettled system.registry)
    (unready : system.registry.wellKnown = none)
    (hm : m ∈ system.registry.modules) {kinds : List WellKnown} {error : Error}
    (failed : system.findWellKnown m kinds = (.error error, later)) :
    ∃ found types missing rest, kinds = found ++ missing :: rest ∧
      system.StopsAt m found types missing later := by
  induction kinds generalizing system with
  | nil => cases failed
  | cons kind rest ih =>
    rw [findWellKnown] at failed
    obtain ⟨memory, kept, ⟨_, asked, missing⟩ | ⟨t, asked, declares⟩⟩ :=
      declaredWellKnown_cases sound settled hm kind
    · rw [asked] at failed
      cases failed
      refine ⟨[], [], kind, rest, rfl, .nil, missing, ?_⟩
      exact congrArg
        (fun fixedCategories => { system.registry with fixedCategories })
        (List.append_nil _).symm
    · rw [asked] at failed
      have settled' := @settled_fixCategory { system with memory } sound owns
        kept unready t kind
      have sound' := @isSound_fixCategory { system with memory } sound t kind
      -- The search goes on behind the kind, and it is there that it fails.
      rcases hrest :
        (fixCategory { system with memory } t kind).findWellKnown m rest
        with ⟨error' | types, last⟩
      · dsimp only at failed
        rw [hrest] at failed
        cases failed
        obtain ⟨found, types, missing, others, rfl, stops⟩ :=
          ih sound' (by rw [fixCategory_eq]; exact owns) settled'
            (by rw [fixCategory_eq]; exact unready)
            (by rw [fixCategory_eq]; exact hm) hrest
        exact ⟨kind :: found, t :: types, missing, others, rfl,
          stops.cons declares⟩
      · dsimp only at failed
        rw [hrest] at failed
        cases failed

/-- A start that fails does so for lack of the system module, or of a type in
it. -/
theorem start_eq_error {error : Error}
    (failed : system.start = (.error error, later)) :
    system.registry.wellKnown = none ∧
      (system.registry.module? system.registry.options.systemModule = none ∧
        later = system ∨
        ∃ m, system.registry.module? system.registry.options.systemModule
          = some m ∧
          system.findWellKnown m WellKnown.all = (.error error, later)) := by
  rw [start] at failed
  split at failed
  · cases failed
  · next unready =>
    refine ⟨by simpa [isReady] using unready, ?_⟩
    dsimp only at failed
    cases hm : system.registry.module? system.registry.options.systemModule with
    | none =>
      -- There is no core library, and nothing was done.
      rw [hm] at failed
      cases failed
      exact .inl ⟨rfl, rfl⟩
    | some m =>
      rw [hm] at failed
      dsimp only at failed
      -- There is one, and a type was missing in it.
      refine .inr ⟨m, rfl, ?_⟩
      rcases hfound : system.findWellKnown m WellKnown.all
        with ⟨error' | types, last⟩
      · rw [hfound] at failed
        cases failed
        rfl
      · rw [hfound] at failed
        cases failed

end TypeSystem

/-! ### Categories without well-known types -/

section
variable {registry : Registry} {memory : Memory} (d : TypeDefinition)
  (live : registry.held = none) (unready : registry.wellKnown = none)
include live unready

/-- No declaration gives a category before the type system is ready. -/
theorem TypeDefinition.declaredCategory_apply_unready :
    d.declaredCategory registry memory = (.error .notReady, memory) := by
  have asked :
      wellKnown .valueType registry memory = (.error .notReady, memory) := by
    have read : (MonadReader.read : Query Registry) registry memory
        = (.ok registry, memory) := rfl
    refine (bind_apply_ok read).trans ?_
    rw [unready]
    rfl
  exact (bind_apply_ok (requireTypeSystem_apply live)).trans
    (bind_apply_error asked)

/-- Before a type system is ready, a definition whose category is not known has
one only if it is fixed. -/
theorem TypeDefinition.category_apply_unready
    (unknown : memory.facts.get? (.ofType (.definition d) .category) = none) :
    (d.category registry memory).1
      = ((registry.fixedCategories.lookup (.definition d)).map Except.ok).getD
        (.error .notReady) := by
  have read : (MonadReader.read : Query Registry) registry memory
      = (.ok registry, memory) := rfl
  cases hfixed : registry.fixedCategories.lookup (.definition d) with
  | some category =>
    -- A fixed category is answered without the type system.
    have find : d.findCategory registry memory = (.ok category, memory) := by
      refine (bind_apply_ok read).trans ?_
      rw [hfixed]
      rfl
    exact congrArg Prod.fst (rememberIf_apply_ok unknown find)
  | none =>
    -- Any other waits for the type system.
    have find :
        d.findCategory registry memory = (.error .notReady, memory) := by
      refine (bind_apply_ok read).trans ?_
      rw [hfixed]
      exact d.declaredCategory_apply_unready live unready
    exact congrArg Prod.fst (rememberIf_apply_error unknown find)

end

namespace Session

variable {s : Session} {options : Options}

/-- To a careful caller, a definition has no category before the type system is
ready, unless it is fixed. -/
theorem IsCareful.category_of_unready (h : s.IsCareful options)
    (unready : s.system.registry.wellKnown = none) (d : TypeDefinition) :
    (s.system.ask d.category).1
      = ((s.system.registry.fixedCategories.lookup (.definition d)).map
      Except.ok).getD (.error .notReady) := by
  have live := h.isReachable.live
  cases known : s.system.memory.facts.get? (.ofType (.definition d) .category)
    with
  | none => exact d.category_apply_unready live unready known
  | some category =>
    -- What is known is what would be found where nothing is, and so it is
    -- fixed.
    have true' := h.isSettled.memory.isTrue.facts _ category known trivial
    obtain ⟨l, answer⟩ := (true' id tendsto_id).exists
    have fresh : (s.system.registry.withPatience l).held = none := live
    have unmet : ({} : Memory).facts.get? (.ofType (.definition d) .category)
        = none := by simp
    have found := d.category_apply_unready fresh unready unmet
    have fixed :
        (d.category s.system.registry s.system.memory).1 = .ok category :=
      congrArg Prod.fst (rememberIf_apply_some known)
    exact fixed.trans (answer.symm.trans found)

/-- What a failed start leaves of the registry: all of it, and the categories of
the types that were found in front of the one that is missing. -/
theorem IsCareful.start_failed (h : s.IsCareful options) {error : Error}
    {system : TypeSystem} (failed : s.system.start = (.error error, system)) :
    system.registry.wellKnown = none ∧ (system = s.system ∨
      ∃ m found types missing rest, s.system.registry.IsSystemModule m ∧
        WellKnown.all = found ++ missing :: rest ∧
        s.system.StopsAt m found types missing system) := by
  obtain ⟨unknown, ⟨-, rfl⟩ | ⟨m, hm, stopped⟩⟩ :=
    TypeSystem.start_eq_error failed
  · -- Nothing was done.
    exact ⟨unknown, .inl rfl⟩
  · -- The walk over the types stopped at one that is missing.
    obtain ⟨mem, named⟩ := Registry.mem_of_module? hm
    obtain ⟨found, types, missing, rest, kinds, stops⟩ :=
      TypeSystem.stopsAt_findWellKnown
        h.isReachable.isSound h.isSettled.members h.isSettled.memory
        unknown mem stopped
    refine ⟨?_, .inr ⟨m, found, types, missing, rest, ⟨mem, named⟩,
      kinds, stops⟩⟩
    rw [stops.registry]
    exact unknown

/-- A session goes on after a start, whatever becomes of it. -/
theorem IsCareful.after_start (h : s.IsCareful options)
    {outcome : Except Error Unit} {system : TypeSystem}
    (started : s.system.start = (outcome, system)) :
    IsCareful options { s with system } := by
  have careful : Action.start.IsCareful s := trivial
  exact h.step careful (.start started)

section
variable (h : s.IsCareful options) {question : Question}
  (allowed : s.Allows question)
  (owners : question.NamesOwners s.system.registry)
  (steady : question.IsSteady s.system.registry.modules) {system : TypeSystem}
include h allowed owners steady

/-- What a start left in the memory does not show: where a registry knows the
same as the one that the start left, its answer is still given. -/
theorem IsCareful.answers_started {outcome : Except Error Unit}
    (started : s.system.start = (outcome, system)) {before : Registry}
    (same : before.LeadsTo .none system.registry)
    (ends : ∀ name token, (question.answer before s.system.memory).1
      ≠ .error (.circular name token)) :
    ∀ᶠ patience in atTop, ((system.withPatience patience).ask question.answer).1
      = (question.answer before s.system.memory).1 := by
  have later := (h.after_start started).isReachable
  have settled := (h.after_start started).isSettled
  have sound : system.registry.IsSound := later.isSound
  -- A start only adds to what is known.
  have leads : s.system.registry.LeadsTo .growth system.registry := by
    have grows := h.isSettled.leadsTo_start h.isReachable
    rw [started] at grows
    exact grows
  -- It leaves the modules alone.
  have modules : system.registry.modules = s.system.registry.modules := by
    obtain ⟨_, _, changes⟩ := TypeSystem.registry_start s.system
    rw [started] at changes
    rw [changes]
  have nodes : AreNodes system.registry.modules
      (fun _ => True) question.types := by
    rw [modules]
    exact h.isReachable.areNodes allowed
  refine question.answers_alike same sound settled.members nodes
    (owners.more leads.modules) ?_
    (h.isSettled.memory.grow leads sound settled.members)
    settled.memory.isTrue ends
  rw [modules]
  exact steady

/-- Nothing but what a start publishes shows in answers, whether or not it
fails: a steady question is answered as by the registry that is published, where
nothing but the older things are remembered. -/
theorem IsCareful.answers_after_start {outcome : Except Error Unit}
    (started : s.system.start = (outcome, system))
    (ends : ∀ name token, (question.answer system.registry s.system.memory).1
      ≠ .error (.circular name token)) :
    ∀ᶠ patience in atTop, ((system.withPatience patience).ask question.answer).1
      = (question.answer system.registry s.system.memory).1 :=
  h.answers_started allowed owners steady started
    (.rfl (h.after_start started).isReachable.live) ends

/-- A failed start that fixes no category anew does not show in answers at
all. -/
theorem IsCareful.answers_after_failed_start {error : Error}
    (failed : s.system.start = (.error error, system))
    (nothing : ∀ t, system.registry.fixedCategories.lookup t
      = s.system.registry.fixedCategories.lookup t)
    (ends : ∀ name token, (s.system.ask question.answer).1
      ≠ .error (.circular name token)) :
    ∀ᶠ patience in atTop, ((system.withPatience patience).ask question.answer).1
      = (s.system.ask question.answer).1 := by
  obtain ⟨unready, -⟩ := h.start_failed failed
  obtain ⟨unknown, -⟩ := TypeSystem.start_eq_error failed
  -- No category was fixed, so that nothing of the registry has changed.
  have same : s.system.registry.LeadsTo .none system.registry := by
    obtain ⟨_, _, changes⟩ := TypeSystem.registry_start s.system
    rw [failed] at changes
    constructor
    · rw [changes]
    · rw [changes]
      exact fun _ => id
    · rw [changes]
      exact fun _ _ => id
    · exact fun _ => h.isReachable.live
    · rw [unknown]
      exact nofun
    · exact fun _ => unready.trans unknown.symm
    · exact fun t category fixed => (nothing t).trans fixed
    · exact fun t unfixed _ => (nothing t).trans unfixed
  exact h.answers_started allowed owners steady failed same ends

end

/-- A failed start shows in categories: a definition that had none has one from
then on, if it was found in front of the type that is missing and its kind fixes
one. -/
theorem IsCareful.category_after_failed_start (h : s.IsCareful options)
    {error : Error} {system : TypeSystem}
    (failed : s.system.start = (.error error, system)) {m : Module}
    {found : List WellKnown} {types : List Ty} {missing : WellKnown}
    (stops : s.system.StopsAt m found types missing system)
    (d : TypeDefinition) :
    (system.ask d.category).1 = (s.system.ask d.category).1 ∨
      (s.system.ask d.category).1 = .error .notReady ∧
        ∃ category, (fixedFor found types).lookup (.definition d)
          = some category ∧
          (system.ask d.category).1 = .ok category := by
  obtain ⟨unready, -⟩ := h.start_failed failed
  obtain ⟨unknown, -⟩ := TypeSystem.start_eq_error failed
  -- Both times the category is told by what is fixed.
  have before := h.category_of_unready unknown d
  have after := (h.after_start failed).category_of_unready unready d
  rw [before]
  dsimp only at after
  rw [after, stops.registry, List.lookup_append]
  cases s.system.registry.fixedCategories.lookup (.definition d) with
  -- It was fixed before.
  | some category => exact .inl rfl
  | none =>
    cases fixed : (fixedFor found types).lookup (.definition d) with
    -- It was fixed for a type that was found before one was missing.
    | some category => exact .inr ⟨rfl, category, rfl, rfl⟩
    | none => exact .inl rfl

end Session

end CliMetadata
