import CliMetadata.Proofs.TypeSystem.Nearest
import CliMetadata.Proofs.TypeSystem.Recurring.Requests

/-!
# Requests are answered later as before

What was asked of a type is answered in the same way ever after, whatever other
flags are asked for.  The finalizer needs care, since it depends on owners:
those that were met when it was looked for are known from then on
(`Memory.HasMetFinalizer`), and it cannot become known as anything else.  A
request keeps this, and so do any number of them
(`TypeSystem.comesTo_findFlags_later`).
-/

namespace CliMetadata

open Filter Query

/-! ### What a request leaves -/

namespace Query

variable {α β : Type} {registry : Registry} {base memory : Memory}
  {patience : Nat} {query : Query α}

/-- What is reached from a memory is one outcome. -/
theorem ReachesFrom.eq {outcome outcome' : Except Error α}
    (h : query.ReachesFrom registry base memory outcome)
    (h' : query.ReachesFrom registry base memory outcome')
    (true : memory.IsTrueSince registry base) :
    outcome = outcome' := by
  obtain ⟨l, hl, hl'⟩ := (h.and h').exists
  exact (hl memory true (.refl memory)).1.symm.trans
    (hl' memory true (.refl memory)).1

/-- A query that follows adds owners. -/
theorem GainsOwners.bind {next : α → Query β}
    (kept : (query (registry.withPatience patience) memory).2.IsSettledSince
      registry base)
    (second : ∀ a, (next a).Leaves registry base patience) :
    (query (registry.withPatience patience) memory).2.GainsOwners
      ((query >>= next) (registry.withPatience patience) memory).2 := by
  rcases run : query (registry.withPatience patience) memory
    with ⟨error | a, after⟩
  · rw [bind_apply_error run]
    exact (Memory.SameMembers.refl after).gainsOwners
  · rw [run] at kept
    rw [bind_apply_ok run]
    exact (second a).gains after kept

end Query

/-- The owners that were met when the finalizer of a type was looked for are
known, and if it is known then as what was found. -/
structure Memory.HasMetFinalizer (registry : Registry) (memory base : Memory)
    (t : Ty) (outcome : Except Error (Option Bool)) : Prop where
  agrees : ∀ value, memory.facts.get? (.ofType t .finalizer) = some value →
    outcome = .ok (some value)
  met : memory.facts.get? (.ofType t .finalizer) = none →
    ∃ (before : Memory) (patience : Nat),
    before.IsSettledSince registry base ∧
    NotCircular (t.findFinalizer (registry.withPatience patience) before).1 ∧
    (t.findFinalizer (registry.withPatience patience) before).1.map some =
      outcome ∧
    before.GainsOwners
      (t.findFinalizer (registry.withPatience patience) before).2 ∧
    ∀ (key : RowKey) (owner : Ty),
      (t.findFinalizer (registry.withPatience patience)
        before).2.methodOwners[key]? = some owner →
        memory.methodOwners[key]? = some owner

namespace Ty

variable {registry : Registry} {base memory : Memory} {patience : Nat} {t : Ty}
  {request : FlagRequest} {outcome : Except Error (Option Bool)}

@[simp]
theorem part_apply_find {aspect : TypeAspect} {find : Query aspect.Value}
    (unknown : memory.facts.get? (.ofType t aspect) = none) :
    t.part true aspect find registry memory
      = ((find registry memory).1.map some, (find registry memory).2) :=
  part_apply_unknown unknown rfl

/-- To establish the parts does not change the owners. -/
theorem methodOwners_findFlags (t : Ty) (request : FlagRequest)
    (registry : Registry) (memory : Memory) :
    (t.findFlags request registry memory).2.methodOwners
      = (t.findParts request registry memory).2.methodOwners := by
  rw [findFlags_eq]
  rcases run : t.findParts request registry memory with ⟨error | facts, after⟩
  · rw [bind_apply_error run]
  · rw [bind_apply_ok run, publish_apply]
    simp only [Memory.published, Memory.methodOwners_withPart]

/-- What a request leaves of finalizers, if it becomes known of a type whether
it has one: the request asked for it, and found it after the parts before. -/
theorem finalizer_findFlags (proper : registry.IsProper)
    (settled : memory.IsSettledSince registry base) {u : Ty} {value : Bool}
    (unknown : memory.facts.get? (.ofType u .finalizer) = none)
    (known : (t.findFlags request (registry.withPatience patience)
      memory).2.facts.get? (.ofType u .finalizer) = some value) :
    t = u ∧ ∃ before : Memory, before.IsSettledSince registry base ∧
      memory.SameMembers before ∧
        (u.part true .finalizer u.findFinalizer
          (registry.withPatience patience) before).1
          = .ok (some value) := by
  have leaves : (t.findParts request).Leaves registry base patience :=
    t.leaves_findParts proper request
  have gains := leaves.gains memory settled
  rw [findFlags_eq] at known
  rcases run : t.findParts request (registry.withPatience patience) memory
    with ⟨error | facts, after⟩
  · -- An error publishes nothing.
    rw [run] at gains
    rw [bind_apply_error run, gains.finalizers, unknown] at known
    cases known
  rw [run] at gains
  rw [bind_apply_ok run, publish_apply] at known
  rcases Memory.finalizer_published known with ⟨rfl, there⟩ | known
  · -- The finalizer was published, and it was found behind two other parts.
    obtain ⟨m₁, m₂, m₃, category, variance, finalizer, -⟩ := findParts_eq_ok run
    obtain ⟨settled₂, same⟩ := settled_before_finalizer proper settled
      category variance
    have wanted := isSome_of_part (congrArg Prod.fst finalizer)
    rw [there] at wanted
    rw [← wanted, there] at finalizer
    exact ⟨rfl, m₂, settled₂, same, congrArg Prod.fst finalizer⟩
  · -- It was not published, so it was not known at all.
    rw [gains.finalizers, unknown] at known
    cases known

/-- What is known of a finalizer after a request is what was reached before
it. -/
theorem eq_of_finalizer_findFlags (proper : registry.IsProper)
    (settled : memory.IsSettledSince registry base) {u : Ty} {value : Bool}
    (reached : (u.part true .finalizer u.findFinalizer).ReachesFrom registry
      base memory outcome)
    (known : (t.findFlags request (registry.withPatience patience)
      memory).2.facts.get? (.ofType u .finalizer) = some value) :
    outcome = .ok (some value) := by
  have precedes := (t.adds_findFlags request).adds
    (registry.withPatience patience) memory
  cases before : memory.facts.get? (.ofType u .finalizer) with
  | some other =>
    rw [precedes.facts _ other before] at known
    cases known
    exact reached.eq (reachesFrom_of_known before) settled.isTrueSince
  | none =>
    -- It was found by this request, where the same owners were known as before.
    obtain ⟨-, at_, settled', same, found⟩ :=
      finalizer_findFlags proper settled before known
    have now := reachesFrom_partFinalizer (t := u) proper settled' true
      (by rw [found]; exact .ok _)
    rw [found] at now
    exact reached.eq (now.of_sameMembers same) settled.isTrueSince

end Ty

namespace Memory.HasMetFinalizer

variable {registry : Registry} {base memory : Memory} {patience : Nat} {t : Ty}
  {outcome : Except Error (Option Bool)}

/-- What was found of the finalizer is found again. -/
theorem reachesFrom (h : memory.HasMetFinalizer registry base t outcome)
    (proper : registry.IsProper) :
    (t.part true .finalizer t.findFinalizer).ReachesFrom registry base memory
      outcome := by
  cases known : memory.facts.get? (.ofType t .finalizer) with
  | some value =>
    rw [h.agrees value known]
    exact Ty.reachesFrom_of_known known
  | none =>
    obtain ⟨before, patience, settled, ends, rfl, gains, met⟩ := h.met known
    refine Ty.reachesFrom_of_run proper known settled ends
      ⟨fun key owner there => ?_,
      fun key owner other there there' => ?_⟩
    · exact met key owner (gains.owners key owner there)
    · exact Option.some.inj (there'.symm.trans (met key owner there))

/-- Further requests keep what was met. -/
theorem findFlags (h : memory.HasMetFinalizer registry base t outcome)
    (proper : registry.IsProper) (settled : memory.IsSettledSince registry base)
    (u : Ty) (request : FlagRequest) :
    HasMetFinalizer registry (u.findFlags request
      (registry.withPatience patience) memory).2 base t
      outcome where
  agrees _ known := Ty.eq_of_finalizer_findFlags proper settled
    (h.reachesFrom proper) known
  met unknown := by
    have precedes := (u.adds_findFlags request).adds
      (registry.withPatience patience) memory
    obtain ⟨before, patience', settled', ends, found, gains, met⟩ :=
      h.met (precedes.unknown unknown)
    exact ⟨before, patience', settled', ends, found, gains,
      fun key owner there =>
      precedes.methodOwners key owner (met key owner there)⟩

end Memory.HasMetFinalizer

namespace Ty

variable {registry : Registry} {base memory : Memory} {patience : Nat} {t : Ty}
  {request : FlagRequest}

/-- A request that looks for the finalizer has met the owners then. -/
theorem hasMetFinalizer_findFlags (proper : registry.IsProper)
    (settled : memory.IsSettledSince registry base)
    (wanted : request.finalizer = true) {category : Option Category}
    {variance : Option Bool} {m₁ m₂ : Memory}
    (first : t.part request.category .category t.findCategory
      (registry.withPatience patience) memory = (.ok category, m₁))
    (second : t.part request.variance .variance t.findVariance
      (registry.withPatience patience) m₁ = (.ok variance, m₂))
    (ends : NotCircular (t.part true .finalizer t.findFinalizer
      (registry.withPatience patience) m₂).1) :
    Memory.HasMetFinalizer registry
      (t.findFlags request (registry.withPatience patience) memory).2 base t
      (t.part true .finalizer t.findFinalizer
        (registry.withPatience patience) m₂).1 := by
  obtain ⟨settled₂, same⟩ := settled_before_finalizer proper settled
    first second
  have reached := reachesFrom_partFinalizer (t := t) proper settled₂ true ends
  have precedes := (t.adds_findFlags request).adds
    (registry.withPatience patience) memory
  refine ⟨fun value known => ?_, fun unknown => ?_⟩
  · -- A finalizer that is known by now is the one that is found.
    exact eq_of_finalizer_findFlags proper settled
      (reached.of_sameMembers same) known
  · -- Otherwise it was looked for, and the owners that were met are kept.
    have unknown₂ := (same.finalizers t).trans (precedes.unknown unknown)
    rw [part_apply_find unknown₂] at ends ⊢
    have finds : t.findFinalizer.Leaves registry base patience :=
      (t.retraces_findFinalizer proper).toLeaves
    refine ⟨m₂, patience, settled₂, ends.of_map, rfl,
      finds.gains m₂ settled₂, ?_⟩
    have kept := finds.settles m₂ settled₂
    have found :
        (t.part true .finalizer t.findFinalizer
          (registry.withPatience patience) m₂).2
        = (t.findFinalizer (registry.withPatience patience)
          m₂).2 := by rw [part_apply_find unknown₂]
    rw [methodOwners_findFlags, findParts, wanted, bind_apply_ok first,
      bind_apply_ok second, ← found]
    refine (GainsOwners.bind (found ▸ kept) fun _ => ?_).owners
    exact (t.recurs_partAttributes proper _).leaves.bind
      fun _ => (Recurs.pure _).leaves

end Ty

/-! ### Request after request -/

/-- Somebody asks for flags of some type, with some patience. -/
def TypeSystem.MakesRequest (system later : TypeSystem) : Prop :=
  ∃ (patience : Nat) (t : Ty) (request : FlagRequest),
    later = ((system.withPatience patience).ask (t.findFlags request)).2

/-- A type system with this registry, but for its patience, and with a memory
that is settled since a base. -/
structure TypeSystem.IsSettledSince (registry : Registry) (base : Memory)
    (system : TypeSystem) :
    Prop where
  same : ∀ l, system.registry.withPatience l = registry.withPatience l
  memory : system.memory.IsSettledSince registry base

namespace TypeSystem

variable {registry : Registry} {base : Memory} {system later : TypeSystem}
  {t : Ty} {request : FlagRequest} {patience : Nat}

theorem IsSettledSince.memory_ask (h : system.IsSettledSince registry base)
    (t : Ty) (request : FlagRequest) :
    ((system.withPatience patience).ask (t.findFlags request)).2.memory
      = (t.findFlags request (registry.withPatience patience)
        system.memory).2 := by
  rw [← h.same]
  rfl

theorem isSettledSince_memory (system : TypeSystem) :
    system.IsSettledSince system.registry system.memory :=
  ⟨fun _ => rfl, Memory.isSettledSince_base _ _⟩

/-- What a query comes to from the memory of a settled system, the system is
told. -/
theorem IsSettledSince.comesTo {α : Type} {query : Query α}
    {outcome : Except Error α} (settled : system.IsSettledSince registry base)
    (reached : query.ReachesFrom registry base system.memory outcome) :
    system.ComesTo query (· = outcome) := by
  filter_upwards [reached] with l hl
  have told := (hl system.memory settled.memory.isTrueSince (.refl _)).1
  rwa [← settled.same] at told

section
variable (proper : registry.IsProper)
include proper

/-- One request leaves the system settled. -/
theorem IsSettledSince.step (settled : system.IsSettledSince registry base)
    (step : system.MakesRequest later) :
    later.IsSettledSince registry base := by
  obtain ⟨patience, u, request, rfl⟩ := step
  refine ⟨settled.same, ?_⟩
  rw [settled.memory_ask]
  exact Ty.settles_findFlags proper patience u request settled.memory

/-- Any number of requests keep what was met when a finalizer was looked for. -/
theorem IsSettledSince.run (settled : system.IsSettledSince registry base)
    (run : Relation.ReflTransGen MakesRequest system later) :
    later.IsSettledSince registry base ∧
    ∀ (t : Ty) (outcome : Except Error (Option Bool)),
      system.memory.HasMetFinalizer registry base t outcome →
        later.memory.HasMetFinalizer registry base t outcome := by
  induction run with
  | refl => exact ⟨settled, fun _ _ => id⟩
  | tail _ step ih =>
    obtain ⟨kept, met⟩ := ih
    refine ⟨kept.step proper step, fun t outcome before => ?_⟩
    obtain ⟨patience, u, request, rfl⟩ := step
    rw [kept.memory_ask]
    exact (met t outcome before).findFlags proper kept.memory u request

end

variable (proper : system.registry.IsProper)
include proper

/-- What a request comes to, it comes to from another memory, if the finalizer
does. -/
theorem comesTo_findFlags_of_finalizer
    (ends : NotCircular ((system.withPatience patience).ask
      (t.findFlags request)).1)
    (kept : later.IsSettledSince system.registry system.memory)
    (finalizer : Ty.FindsFinalizerFrom system.registry system.memory patience t
      request system.memory later.memory) :
    later.ComesTo (t.findFlags request)
      (· = ((system.withPatience patience).ask (t.findFlags request)).1) := by
  -- Flags come to what their parts come to.
  have asked : ((system.withPatience patience).ask (t.findFlags request)).1
      = (t.findParts request (system.registry.withPatience patience)
        system.memory).1 :=
    t.findFlags_apply request _ _
  rw [asked] at ends ⊢
  have settled := Memory.isSettledSince_base system.registry system.memory
  have reached := Ty.reachesFrom_findParts proper settled ends finalizer
  refine (kept.comesTo reached).mono fun l hl => ?_
  exact (t.findFlags_apply request _ _).trans hl

/-- What a request comes to once, the same request comes to whatever was
requested in between. -/
theorem comesTo_findFlags_later
    (ends : NotCircular ((system.withPatience patience).ask
      (t.findFlags request)).1)
    (run : Relation.ReflTransGen MakesRequest
      ((system.withPatience patience).ask (t.findFlags request)).2 later) :
    later.ComesTo (t.findFlags request)
      (· = ((system.withPatience patience).ask (t.findFlags request)).1) := by
  -- Requests in between keep what is settled and the owners that were met.
  have start := system.isSettledSince_memory
  have after := start.step proper ⟨patience, t, request, rfl⟩
  obtain ⟨kept, met⟩ := after.run proper run
  refine comesTo_findFlags_of_finalizer proper ends kept ?_
  intro category variance m₁ m₂ first second ends
  cases wanted : request.finalizer with
  | false => exact .of_forall fun _ _ true _ => ⟨rfl, true⟩
  | true =>
    rw [wanted] at ends
    have found := Ty.hasMetFinalizer_findFlags proper start.memory wanted
      first second ends
    exact (met t _ found).reachesFrom proper

/-- What a request comes to at some time, it comes to with any greater
patience. -/
theorem comesTo_findFlags
    (ends : NotCircular ((system.withPatience patience).ask
      (t.findFlags request)).1) :
    system.ComesTo (t.findFlags request)
      (· = ((system.withPatience patience).ask (t.findFlags request)).1) := by
  have start := system.isSettledSince_memory
  refine comesTo_findFlags_of_finalizer proper ends start ?_
  intro category variance m₁ m₂ first second ends
  obtain ⟨settled, same⟩ := Ty.settled_before_finalizer proper start.memory
    first second
  exact (Ty.reachesFrom_partFinalizer proper settled _ ends).of_sameMembers same

end TypeSystem

end CliMetadata
