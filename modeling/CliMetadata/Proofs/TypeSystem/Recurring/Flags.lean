import CliMetadata.Proofs.TypeSystem.Lasting.Flags
import CliMetadata.Proofs.TypeSystem.Recurring.Finalizers

/-!
# The parts of a request for flags

A part that is wanted is known, or is found and established only later.  Three
of the parts come to the same whatever is remembered since a base
(`Ty.recurs_part`).  The finalizer leaves owners behind, and comes to the same
wherever the owners that it needs are remembered
(`Ty.reachesFrom_partFinalizer`), which is so before any other finalizer is
asked for.
-/

namespace CliMetadata

open Filter Query

theorem NotCircular.of_map {α β : Type} {outcome : Except Error α} {f : α → β}
    (h : NotCircular (outcome.map f)) : NotCircular outcome := by
  cases outcome with
  | error error => exact h.error_of
  | ok a => exact .ok a

/-! ### What a query tells since a base -/

namespace Query

variable {α β : Type} {registry : Registry} {base : Memory} {patience : Nat}

/-- What is known of the answers that a settled memory leads to. -/
def TellsSince (registry : Registry) (base : Memory) (patience : Nat)
    (query : Query α) (P : α → Prop) : Prop :=
  ∀ memory : Memory, memory.IsSettledSince registry base →
    ∀ a, (query (registry.withPatience patience) memory).1 = .ok a → P a

theorem TellsSince.bind {query : Query α} {next : α → Query β} {P : α → Prop}
    {Q : β → Prop} (told : query.TellsSince registry base patience P)
    (first : query.Leaves registry base patience)
    (second : ∀ a, P a → (next a).TellsSince registry base patience Q) :
    (query >>= next).TellsSince registry base patience Q := by
  intro memory settled b answer
  obtain ⟨a, memory', run, answer⟩ := bind_eq_ok.mp answer
  have kept := first.settles memory settled
  rw [run] at kept
  exact second a (told memory settled a (by rw [run])) memory' kept b answer

/-- A query that recurs tells what it comes to again. -/
theorem Recurs.tells {query : Query α}
    (h : Recurs registry base patience fun _ => query) :
    query.TellsSince registry base patience fun a =>
      ReachesSince registry base (fun _ => query) (.ok a) := by
  intro memory settled a answer
  have reached := h.reaches memory settled
  rw [answer] at reached
  exact reached (.ok a)

theorem TellsSince.pure {a : α} {P : α → Prop} (h : P a) :
    (Pure.pure a : Query α).TellsSince registry base patience P := by
  rintro _ _ _ ⟨⟩
  exact h

/-- What is settled is found. -/
theorem ReachesSince.of_isSettledSince {fact : Fact} {value : fact.Value}
    {find : Query fact.Value} (unknown : base.facts.get? fact = none)
    (asks : ∀ room, fact.ask room = Query.remember fact find)
    (h : ∀ patience, Recurs registry base patience fun _ => find)
    (settled : fact.IsSettledSince registry base value) :
    ReachesSince registry base (fun _ => find) (.ok value) := by
  obtain ⟨l, hl⟩ := (settled.isFoundFrom id tendsto_id).exists
  rw [asks, Query.remember, rememberIf_apply_unknown unknown] at hl
  have reached := (h l).reaches base (Memory.isSettledSince_base registry base)
  rw [hl] at reached
  exact reached (.ok value)

end Query

/-! ### Parts -/

namespace Ty

variable {registry : Registry} {base : Memory} {patience : Nat}

/-- A part of a type's flags leaves what is found to leave, or nothing. -/
theorem leaves_part (t : Ty) (aspect : TypeAspect) {find : Query aspect.Value}
    (h : find.Leaves registry base patience) (isWanted : Bool) :
    (t.part isWanted aspect find).Leaves registry base patience := by
  cases isWanted with
  | false => exact (Recurs.pure none).leaves
  | true =>
    refine ⟨fun memory settled => ?_, fun memory settled => ?_⟩
    all_goals cases known : memory.facts.get? (.ofType t aspect)
    · rw [part_apply_unknown known rfl]
      exact h.settles memory settled
    · rw [part_apply_known known]
      exact settled
    · rw [part_apply_unknown known rfl]
      exact h.gains memory settled
    · rw [part_apply_known known]
      exact (Memory.SameMembers.refl memory).gainsOwners

section
variable (t : Ty) (aspect : TypeAspect) {find : Query aspect.Value}
  (kept : (Fact.ofType t aspect).IsKept)
  (asks : ∀ room, (Fact.ofType t aspect).ask room
    = remember (.ofType t aspect) find)
include kept asks

/-- A part of a type's flags is what is found, whether or not it is known. -/
theorem reachesSince_part {outcome : Except Error aspect.Value}
    (unknown : base.facts.get? (.ofType t aspect) = none)
    (reached : ReachesSince registry base (fun _ => find) outcome) :
    ReachesSince registry base (fun _ => t.part true aspect find)
      (outcome.map some) := by
  have found := Remembers.ask_base (.of_ask asks) tendsto_id unknown reached
  filter_upwards [reached] with l hl memory true
  cases known : memory.facts.get? (.ofType t aspect) with
  | some value =>
    -- What is known by now was found as well, and two findings agree.
    have told := true.facts _ value known unknown kept.isPlain
    obtain ⟨l', found, found'⟩ := ((told id tendsto_id).and found).exists
    rw [part_apply_known known, ← found.symm.trans found']
    exact ⟨rfl, true, .refl memory⟩
  | none =>
    -- What is unknown is found now.
    obtain ⟨answer, left, same⟩ := hl memory true
    rw [part_apply_unknown known (Prod.ext answer rfl)]
    exact ⟨rfl, left, same⟩

variable (h : ∀ patience, Recurs registry base patience fun _ => find)
include h

/-- A part of a type's flags recurs. -/
theorem recurs_part (isWanted : Bool) :
    Recurs registry base patience fun _ => t.part isWanted aspect find := by
  cases isWanted with
  | false => exact .pure none
  | true =>
    refine ⟨(leaves_part t aspect (h patience).leaves _).settles,
      fun memory settled => ?_,
      fun memory settled ends => ?_⟩
    all_goals cases known : memory.facts.get? (.ofType t aspect)
    · rw [part_apply_unknown known rfl]
      exact (h patience).same memory settled
    · rw [part_apply_known known]
    · rw [part_apply_unknown known rfl] at ends ⊢
      have reached := (h patience).reaches memory settled ends.of_map
      exact reachesSince_part t aspect kept asks
        (settled.precedes.unknown known) reached
    · next value =>
      rw [part_apply_known known]
      cases fresh : base.facts.get? (.ofType t aspect) with
      | none =>
        have settles := settled.facts _ value known fresh kept.isPlain
        exact reachesSince_part t aspect kept asks fresh
          (.of_isSettledSince fresh asks h settles)
      | some other =>
        -- What the base knows, all know.
        have told := settled.precedes.facts _ other fresh
        rw [known] at told
        obtain rfl := Option.some.inj told
        refine .of_forall fun l more true => ?_
        dsimp only
        rw [part_apply_known (true.precedes.facts _ value fresh)]
        exact ⟨rfl, true, .refl more⟩

/-- A part of a type's flags may be established. -/
theorem tellsSince_part (isWanted : Bool) :
    (t.part isWanted aspect find).TellsSince registry base patience
      fun part => ∀ value ∈ part,
        (Fact.ofType t aspect).IsNotable registry base value := by
  intro memory settled part answer
  cases isWanted with
  | false =>
    -- A part that is not asked for tells nothing.
    cases answer
    exact nofun
  | true =>
    cases known : memory.facts.get? (.ofType t aspect) with
    | some value =>
      -- A value that is known was noted before, and notes are settled.
      rw [part_apply_known known] at answer
      cases answer
      rintro _ ⟨⟩
      refine ⟨fun other there => ?_,
        fun fresh _ => settled.facts _ value known fresh kept.isPlain⟩
      exact Option.some.inj
        (known.symm.trans (settled.precedes.facts _ other there))
    | none =>
      have unknown := settled.precedes.unknown known
      rcases hrun : find (registry.withPatience patience) memory
        with ⟨error | value, memory'⟩
      · rw [part_apply_unknown known hrun] at answer
        cases answer
      · rw [part_apply_unknown known hrun] at answer
        cases answer
        -- A value that was found now is found again.
        rintro _ ⟨⟩
        refine ⟨by simp [unknown], fun _ _ => ⟨kept.isAllowed value,
          fun room large => ?_⟩⟩
        have reached := (h patience).reaches memory settled
        rw [hrun] at reached
        simp only [asks]
        exact ReachesSince.rememberIf (.of_ask asks) kept.isPlain unknown
          (fun _ _ => reached (.ok value)) large

end

/-! ### The finalizer -/

/-- Whether a type has a finalizer, before it is established. -/
def findFinalizer (t : Ty) : Query Bool := return (← t.finalizer).isSome

theorem retraces_findFinalizer (proper : registry.IsProper) (t : Ty) :
    t.findFinalizer.Retraces registry base patience :=
  (t.retraces_finalizer proper).bind fun _ => .pure _

theorem leaves_partFinalizer (proper : registry.IsProper) (t : Ty)
    (isWanted : Bool) :
    (t.part isWanted .finalizer t.findFinalizer).Leaves registry
      base patience :=
  leaves_part t .finalizer (t.retraces_findFinalizer proper).toLeaves isWanted

theorem tellsSince_partFinalizer (t : Ty) (isWanted : Bool) :
    (t.part isWanted .finalizer t.findFinalizer).TellsSince registry
      base patience
      fun part => ∀ value ∈ part,
        (Fact.ofType t .finalizer).IsNotable registry base value := by
  intro memory settled part answer value hvalue
  refine ⟨fun known there => ?_, fun _ plain => absurd plain id⟩
  rw [Option.mem_def] at hvalue
  subst hvalue
  cases isWanted with
  | false => cases answer
  | true =>
    rw [part_apply_known (settled.precedes.facts _ known there)] at answer
    cases answer
    rfl

end Ty

/-- Whatever is remembered, if it is true since the base and the same of members
as here, the query has the outcome and leaves what is true since the base. -/
def Query.ReachesFrom {α : Type} (registry : Registry) (base memory : Memory)
    (query : Query α) (outcome : Except Error α) : Prop :=
  ∀ᶠ l in atTop, ∀ more : Memory,
    more.IsTrueSince registry base → memory.SameMembers more →
      (query (registry.withPatience l) more).1 = outcome ∧
        (query (registry.withPatience l) more).2.IsTrueSince registry base

namespace Query.ReachesFrom

variable {α β : Type} {registry : Registry} {base memory : Memory}
  {query : Query α} {next : α → Query β}

theorem of_reachesSince {outcome : Except Error α}
    (h : ReachesSince registry base (fun _ => query) outcome) :
    query.ReachesFrom registry base memory outcome :=
  h.mono fun _ hl more true _ => ⟨(hl more true).1, (hl more true).2.1⟩

theorem of_sameMembers {memory' : Memory} {outcome : Except Error α}
    (same : memory'.SameMembers memory)
    (h : query.ReachesFrom registry base memory outcome) :
    query.ReachesFrom registry base memory' outcome :=
  h.mono fun _ hl more true same' => hl more true (same.symm.trans same')

/-- A query that keeps members, followed by another. -/
theorem bind_of_reachesSince {a : α} {outcome : Except Error β}
    (first : ReachesSince registry base (fun _ => query) (.ok a))
    (second : (next a).ReachesFrom registry base memory outcome) :
    (query >>= next).ReachesFrom registry base memory outcome := by
  filter_upwards [first, second] with l hl hl' more true same
  obtain ⟨answer, kept, left⟩ := hl more true
  rw [bind_apply_ok (Prod.ext answer rfl)]
  exact hl' _ kept (same.trans left)

/-- A query that is followed by one for which members do not matter. -/
theorem bind_reachesSince {a : α} {outcome : Except Error β}
    (first : query.ReachesFrom registry base memory (.ok a))
    (second : ReachesSince registry base (fun _ => next a) outcome) :
    (query >>= next).ReachesFrom registry base memory outcome := by
  filter_upwards [first, second] with l hl hl' more true same
  obtain ⟨answer, kept⟩ := hl more true same
  rw [bind_apply_ok (Prod.ext answer rfl)]
  exact ⟨(hl' _ kept).1, (hl' _ kept).2.1⟩

theorem bind_error {error : Error}
    (first : query.ReachesFrom registry base memory (.error error)) :
    (query >>= next).ReachesFrom registry base memory (.error error) := by
  filter_upwards [first] with l hl more true same
  obtain ⟨answer, kept⟩ := hl more true same
  rw [bind_apply_error (Prod.ext answer rfl)]
  exact ⟨rfl, kept⟩

end Query.ReachesFrom

namespace Ty

variable {registry : Registry} {base memory : Memory} {patience : Nat} {t : Ty}

theorem reachesFrom_of_known {value : Bool}
    (known : memory.facts.get? (.ofType t .finalizer) = some value) :
    (t.part true .finalizer t.findFinalizer).ReachesFrom registry base memory
      (.ok (some value)) :=
  .of_forall fun l more true same => by
    rw [part_apply_known ((same.finalizers t).trans known)]
    exact ⟨rfl, true⟩

/-- What was found once of the finalizer is found where the owners are known
that were met. -/
theorem reachesFrom_of_run (proper : registry.IsProper)
    (unknown : memory.facts.get? (.ofType t .finalizer) = none)
    {before : Memory} (settled : before.IsSettledSince registry base)
    (ends : NotCircular
      (t.findFinalizer (registry.withPatience patience) before).1)
    (meets : memory.MeetsAs before
      (t.findFinalizer (registry.withPatience patience) before).2) :
    (t.part true .finalizer t.findFinalizer).ReachesFrom registry base memory
      ((t.findFinalizer (registry.withPatience patience) before).1.map
        some) := by
  have retraces : t.findFinalizer.Retraces registry base patience :=
    t.retraces_findFinalizer proper
  filter_upwards [retraces.again before settled ends] with l hl more true same
  -- Members that were met before have the same owners later.
  have meets' : more.MeetsAs before
      (t.findFinalizer (registry.withPatience patience) before).2 := by
    constructor
    · rw [same.methodOwners]
      exact meets.holds
    · rw [same.methodOwners]
      exact meets.agrees
  obtain ⟨answer, follows⟩ := hl more true meets'
  rcases again : t.findFinalizer (registry.withPatience l) more
    with ⟨outcome, more'⟩
  rw [again] at answer follows
  rw [part_apply_unknown ((same.finalizers t).trans unknown) again]
  exact ⟨congrArg (Except.map some) answer, follows.true⟩

/-- As long as owners stay as they are, the finalizer stays. -/
theorem reachesFrom_partFinalizer (proper : registry.IsProper)
    (settled : memory.IsSettledSince registry base) (isWanted : Bool)
    (ends : NotCircular (t.part isWanted .finalizer t.findFinalizer
      (registry.withPatience patience) memory).1) :
    (t.part isWanted .finalizer t.findFinalizer).ReachesFrom
      registry base memory
      (t.part isWanted .finalizer t.findFinalizer
        (registry.withPatience patience) memory).1 := by
  cases isWanted with
  | false => exact .of_forall fun _ _ true _ => ⟨rfl, true⟩
  | true =>
    cases known : memory.facts.get? (.ofType t .finalizer) with
    | some value =>
      rw [part_apply_known known]
      exact reachesFrom_of_known known
    | none =>
      rw [part_apply_unknown known rfl] at ends ⊢
      have retraces : t.findFinalizer.Retraces registry base patience :=
        t.retraces_findFinalizer proper
      -- Owners that are gained agree with those that were there.
      have gains := retraces.gains memory settled
      refine reachesFrom_of_run proper known settled ends.of_map
        ⟨fun _ _ => id, ?_⟩
      exact fun key u v met there => Option.some.inj
        ((gains.owners key v there).symm.trans met)

end Ty

end CliMetadata
