import CliMetadata.Proofs.TypeSystem.Ends
import CliMetadata.Proofs.TypeSystem.Lasting.Basic

/-!
# What queries come to, whatever was asked in between

What a type system remembers decides what it answers, and it may remember what
nobody would find in its modules: an owner that a caller made up, or an answer
from before a module was there.  So the memory at some time is taken here as the
*base*, right or wrong.  A memory is *true since* the base if it holds that, and
else only what would be found from the base (`Memory.IsTrueSince`), and *settled
since* the base if what it holds in addition is found from any memory that is
true since the base (`Memory.IsSettledSince`).

A query recurs (`Query.Recurs`) if it leaves the memory settled, and comes to
the same from any memory that is true since the base, answers and errors alike.
What is asked first and what later then makes no difference.

This is so for all that does not depend on owners of methods.  Whether a type
has a finalizer does, and of this nothing is said here but that it is left alone
(`Memory.SameMembers`).
-/

namespace CliMetadata

open Filter Query

/-! ### Memories with a base -/

namespace Fact

/-- A fact that has nothing to do with who owns a member, or with the time it
was established. -/
def IsPlain : Fact → Prop
  | .ofType _ .finalizer | .ofType _ .hash => False
  | _ => True

/-- A plain fact that is worth keeping whatever is found of it. -/
def IsKept : Fact → Prop
  | .ofType _ .finalizer | .ofType _ .hash | .resolved .. => False
  | _ => True

theorem IsKept.isPlain {fact : Fact} (kept : fact.IsKept) : fact.IsPlain := by
  unfold IsKept at kept
  split at kept
  · exact kept
  · exact kept
  · exact kept.elim
  · next finalizer hash _ =>
    unfold IsPlain
    split
    · exact finalizer _ rfl
    · exact hash _ rfl
    · exact trivial

theorem IsKept.isAllowed {modules : List Module} {fact : Fact}
    (kept : fact.IsKept) (value : fact.Value) :
    fact.IsAllowed modules value := by
  unfold IsKept at kept
  split at kept
  · exact kept.elim
  · exact kept.elim
  · exact kept.elim
  · next finalizer _ resolved =>
    unfold IsAllowed
    split
    · exact absurd rfl (finalizer _)
    · exact absurd rfl (resolved _ _)
    · exact trivial

/-- What is found of a fact from a memory. -/
def IsFoundFrom (registry : Registry) (base : Memory) (fact : Fact)
    (value : fact.Value) : Prop :=
  ∀ room, Tendsto room atTop atTop →
    ∀ᶠ l in atTop, (fact.ask (room l) (registry.withPatience l) base).1
      = .ok value

end Fact

namespace Memory

/-- What is not known later was not known before. -/
theorem Precedes.unknown {memory more : Memory} (h : memory.Precedes more)
    {fact : Fact} (unknown : more.facts.get? fact = none) :
    memory.facts.get? fact = none := by
  by_contra known
  obtain ⟨value, known⟩ := Option.ne_none_iff_exists'.mp known
  rw [h.facts fact value known] at unknown
  cases unknown

/-- The memory holds the base, and else what is found from the base. -/
structure IsTrueSince (registry : Registry) (memory base : Memory) : Prop where
  precedes : base.Precedes memory
  facts : ∀ fact value, memory.facts.get? fact = some value →
    base.facts.get? fact = none →
    fact.IsPlain → fact.IsFoundFrom registry base value

theorem isTrueSince_base (registry : Registry) (base : Memory) :
    base.IsTrueSince registry base where
  precedes := .refl base
  facts fact value known unknown := by
    rw [known] at unknown
    cases unknown

/-- The same owners of members are remembered, and the same is known about
finalizers. -/
structure SameMembers (memory after : Memory) : Prop where
  methodOwners : after.methodOwners = memory.methodOwners
  fieldOwners : after.fieldOwners = memory.fieldOwners
  finalizers : ∀ t : Ty, after.facts.get? (.ofType t .finalizer)
    = memory.facts.get? (.ofType t .finalizer)

@[refl]
theorem SameMembers.refl (memory : Memory) : memory.SameMembers memory :=
  ⟨rfl, rfl, fun _ => rfl⟩

@[symm]
theorem SameMembers.symm {memory after : Memory}
    (h : memory.SameMembers after) :
    after.SameMembers memory :=
  ⟨h.methodOwners.symm, h.fieldOwners.symm, fun t => (h.finalizers t).symm⟩

theorem SameMembers.trans {memory more most : Memory}
    (h : memory.SameMembers more) (h' : more.SameMembers most) :
    memory.SameMembers most where
  methodOwners := h'.methodOwners.trans h.methodOwners
  fieldOwners := h'.fieldOwners.trans h.fieldOwners
  finalizers t := (h'.finalizers t).trans (h.finalizers t)

end Memory

/-! ### Outcomes that are reached since the base -/

namespace Query

variable {α β : Type} {registry : Registry} {base : Memory}

/-- Whatever is remembered, if it is true since the base, the query has the
outcome, leaves what is true since the base, and leaves members alone. -/
def ReachesSince (registry : Registry) (base : Memory) (query : Nat → Query α)
    (outcome : Except Error α) : Prop :=
  ∀ᶠ l in atTop, ∀ memory : Memory, memory.IsTrueSince registry base →
    (query l (registry.withPatience l) memory).1 = outcome ∧
      (query l (registry.withPatience l) memory).2.IsTrueSince registry base ∧
      memory.SameMembers (query l (registry.withPatience l) memory).2

/-- An attempt leaves the traces of the query. -/
@[simp]
theorem memory_attempt (query : Query α) (registry : Registry)
    (memory : Memory) :
    (query.attempt registry memory).2 = (query registry memory).2 := by
  rw [Query.attempt]
  split
  all_goals
    next hrun =>
    rw [hrun]

/-- A query that leaves no traces. -/
theorem ReachesSince.of_outcome {query : Nat → Query α}
    {outcome : Except Error α}
    (run : ∀ l memory, query l (registry.withPatience l) memory
      = (outcome, memory)) :
    ReachesSince registry base query outcome :=
  .of_forall fun l memory true => by
    rw [run]
    exact ⟨rfl, true, .refl memory⟩

theorem ReachesSince.bind {query : Nat → Query α} {next : Nat → α → Query β}
    {a : α} {outcome : Except Error β}
    (first : ReachesSince registry base query (.ok a))
    (second : ReachesSince registry base (fun l => next l a) outcome) :
    ReachesSince registry base (fun l => query l >>= next l) outcome := by
  filter_upwards [first, second] with l hl hl' memory true
  obtain ⟨answer, kept, same⟩ := hl memory true
  obtain ⟨answer', kept', same'⟩ := hl' _ kept
  have run : query l (registry.withPatience l) memory
      = (.ok a, (query l (registry.withPatience l) memory).2) :=
      Prod.ext answer rfl
  rw [bind_apply_ok run]
  exact ⟨answer', kept', same.trans same'⟩

theorem ReachesSince.bind_error {query : Nat → Query α}
    {next : Nat → α → Query β} {error : Error}
    (first : ReachesSince registry base query (.error error)) :
    ReachesSince registry base (fun l => query l >>= next l)
      (.error error) := by
  filter_upwards [first] with l hl memory true
  obtain ⟨answer, kept, same⟩ := hl memory true
  have run : query l (registry.withPatience l) memory
      = (.error error, (query l (registry.withPatience l) memory).2) :=
      Prod.ext answer rfl
  rw [bind_apply_error run]
  exact ⟨rfl, kept, same⟩

/-- A query comes to one outcome. -/
theorem ReachesSince.eq {query : Nat → Query α}
    {outcome outcome' : Except Error α}
    (h : ReachesSince registry base query outcome)
    (h' : ReachesSince registry base query outcome') :
    outcome = outcome' := by
  obtain ⟨l, hl, hl'⟩ := (h.and h').exists
  have true := Memory.isTrueSince_base registry base
  exact (hl base true).1.symm.trans (hl' base true).1

end Query

/-- What may be remembered of a fact, and is found from any memory that is true
since the base. -/
structure Fact.IsSettledSince (registry : Registry) (base : Memory)
    (fact : Fact) (value : fact.Value) : Prop where
  allowed : fact.IsAllowed registry.modules value
  reaches : ∀ room, Tendsto room atTop atTop →
    ReachesSince registry base (fun l => fact.ask (room l)) (.ok value)

theorem Fact.IsSettledSince.isFoundFrom {registry : Registry} {base : Memory}
    {fact : Fact} {value : fact.Value}
    (h : fact.IsSettledSince registry base value) :
    fact.IsFoundFrom registry base value :=
  fun room large => (h.reaches room large).mono fun _ hl =>
    (hl base (Memory.isTrueSince_base registry base)).1

namespace Memory

variable {registry : Registry} {base memory : Memory} {fact : Fact}
  {value : fact.Value}

/-- The memory holds the base, and else what is settled since. -/
structure IsSettledSince (registry : Registry) (memory base : Memory) :
    Prop where
  precedes : base.Precedes memory
  facts : ∀ fact value, memory.facts.get? fact = some value →
    base.facts.get? fact = none →
    fact.IsPlain → fact.IsSettledSince registry base value

theorem isSettledSince_base (registry : Registry) (base : Memory) :
    base.IsSettledSince registry base where
  precedes := .refl base
  facts fact value known unknown := by
    rw [known] at unknown
    cases unknown

theorem IsSettledSince.isTrueSince (h : memory.IsSettledSince registry base) :
    memory.IsTrueSince registry base where
  precedes := h.precedes
  facts fact value known unknown plain :=
  (h.facts fact value known unknown plain).isFoundFrom

theorem IsTrueSince.establish (h : memory.IsTrueSince registry base)
    (unknown : base.facts.get? fact = none)
    (found : fact.IsPlain → fact.IsFoundFrom registry base value) :
    IsTrueSince registry { memory with facts := memory.facts.insert fact value }
      base where
  precedes := h.precedes.establish (by simp [unknown])
  facts other v known fresh plain := by
    rcases get?_insert known with ⟨rfl, rfl⟩ | known
    · exact found plain
    · exact h.facts other v known fresh plain

end Memory

/-- The value of a fact is that of the base, or else it is settled since. -/
structure Fact.IsNotable (registry : Registry) (base : Memory) (fact : Fact)
    (value : fact.Value) :
    Prop where
  agrees : ∀ known, base.facts.get? fact = some known → value = known
  settles : base.facts.get? fact = none → fact.IsPlain →
    fact.IsSettledSince registry base value

namespace Memory

variable {registry : Registry} {base memory : Memory} {fact : Fact}
  {value : fact.Value}

theorem IsSettledSince.establish (h : memory.IsSettledSince registry base)
    (notable : fact.IsNotable registry base value) :
    IsSettledSince registry
      { memory with facts := memory.facts.insert fact value } base where
  precedes := h.precedes.establish notable.agrees
  facts other v known fresh plain := by
    rcases get?_insert known with ⟨rfl, rfl⟩ | known
    · exact notable.settles fresh plain
    · exact h.facts other v known fresh plain

/-- To establish a plain fact does not touch members. -/
theorem SameMembers.establish {after : Memory} (h : memory.SameMembers after)
    (plain : fact.IsPlain) :
    memory.SameMembers
      { after with facts := after.facts.insert fact value } where
  methodOwners := h.methodOwners
  fieldOwners := h.fieldOwners
  finalizers t := by
    rw [Std.DHashMap.get?_insert, dif_neg]
    · exact h.finalizers t
    · intro same
      obtain rfl := eq_of_beq same
      exact plain

end Memory

/-! ### Queries that recur -/

namespace Query

variable {α β : Type} {registry : Registry} {base : Memory} {patience : Nat}

/-- Where the memory is settled since the base, it stays so and keeps its
members, and what the query comes to is reached from any memory that is true
since the base. -/
structure Recurs (registry : Registry) (base : Memory) (patience : Nat)
    (query : Nat → Query α) :
    Prop where
  settles : ∀ memory : Memory, memory.IsSettledSince registry base →
    (query patience (registry.withPatience patience) memory).2.IsSettledSince
      registry base
  same : ∀ memory : Memory, memory.IsSettledSince registry base →
    memory.SameMembers
      (query patience (registry.withPatience patience) memory).2
  reaches : ∀ memory : Memory, memory.IsSettledSince registry base →
    NotCircular (query patience (registry.withPatience patience) memory).1 →
      ReachesSince registry base query
        (query patience (registry.withPatience patience) memory).1

namespace Recurs

variable {query : Nat → Query α}

/-- A query that leaves no traces. -/
theorem of_outcome (outcome : Except Error α)
    (run : ∀ l memory, query l (registry.withPatience l) memory
      = (outcome, memory)) :
    Recurs registry base patience query where
  settles memory settled := by
    rw [run]
    exact settled
  same memory _ := by
    rw [run]
  reaches memory _ _ := by
    rw [run]
    exact .of_outcome run

/-- A query that runs in a circle has nothing to reach. -/
theorem of_circular (name : String) (token : Token)
    (run : ∀ memory, query patience (registry.withPatience patience) memory
      = (.error (.circular name token), memory)) :
    Recurs registry base patience query where
  settles memory settled := by
    rw [run]
    exact settled
  same memory _ := by
    rw [run]
  reaches memory _ ends := by
    rw [run] at ends
    exact absurd rfl (ends name token)

/-- What happens with little patience does not matter, except for the patience
at hand. -/
theorem congr {query' : Nat → Query α} (h : Recurs registry base patience query)
    (now : query patience = query' patience)
    (same : ∀ᶠ l in atTop, query l = query' l) :
    Recurs registry base patience query' where
  settles memory settled := by
    rw [← now]
    exact h.settles memory settled
  same memory settled := by
    rw [← now]
    exact h.same memory settled
  reaches memory settled := by
    rw [← now]
    intro ends
    filter_upwards [h.reaches memory settled ends, same] with l hl hsame
    rw [← hsame]
    exact hl

theorem pure (a : α) :
    Recurs registry base patience fun _ => (Pure.pure a : Query α) :=
  of_outcome (.ok a) fun _ _ => rfl

theorem throw (error : Error) :
    Recurs registry base patience fun _ =>
      (MonadExcept.throw error : Query α) :=
  of_outcome (.error error) fun _ _ => rfl

/-- What would follow an error does not matter. -/
theorem throw_bind (error : Error) (next : Nat → α → Query β) :
    Recurs registry base patience fun l =>
      (MonadExcept.throw error : Query α) >>= next l :=
  of_outcome (.error error) fun _ _ => rfl

/-- A result that needs no type system. -/
theorem lift (result : Except Error α) :
    Recurs registry base patience fun _ => (liftM result : Query α) := by
  cases result with
  | error error => exact throw error
  | ok a => exact pure a

theorem ite {c : Prop} [Decidable c] {other : Nat → Query α}
    (first : c → Recurs registry base patience query)
    (second : ¬ c → Recurs registry base patience other) :
    Recurs registry base patience fun l => if c then query l else other l := by
  by_cases hc : c
  · simpa only [if_pos hc] using first hc
  · simpa only [if_neg hc] using second hc

/-- A query that is followed by another, which may use what is known of the
answer. -/
theorem bind_told {next : Nat → α → Query β} {P : α → Prop}
    (first : Recurs registry base patience query)
    (told : ∀ memory a,
      (query patience (registry.withPatience patience) memory).1 = .ok a → P a)
    (second : ∀ a, P a → Recurs registry base patience fun l => next l a) :
    Recurs registry base patience fun l => query l >>= next l := by
  -- What is left is settled, whether or not the first query fails.
  have leaves (memory : Memory) (settled : memory.IsSettledSince registry base)
      {after : Memory}
      (run : ((query patience >>= next patience)
        (registry.withPatience patience) memory).2 = after) :
      after.IsSettledSince registry base ∧ memory.SameMembers after := by
    have kept := first.settles memory settled
    have same := first.same memory settled
    subst run
    rcases hrun : query patience (registry.withPatience patience) memory
      with ⟨error | a, memory'⟩
    · rw [hrun] at kept same
      rw [bind_apply_error hrun]
      exact ⟨kept, same⟩
    · rw [hrun] at kept same
      rw [bind_apply_ok hrun]
      have follows := second a (told memory a (by rw [hrun]))
      exact ⟨follows.settles memory' kept,
        same.trans (follows.same memory' kept)⟩
  refine ⟨fun memory settled => (leaves memory settled rfl).1,
    fun memory settled => (leaves memory settled rfl).2,
      fun memory settled => ?_⟩
  -- What came out once comes out again, of the first query and of the next.
  have kept := first.settles memory settled
  have reached := first.reaches memory settled
  rcases hrun : query patience (registry.withPatience patience) memory
    with ⟨error | a, memory'⟩
  · rw [hrun] at reached
    rw [bind_apply_error hrun]
    exact fun ends => (reached ends.error_of).bind_error
  · rw [hrun] at kept reached
    rw [bind_apply_ok hrun]
    have follows := second a (told memory a (by rw [hrun]))
    exact fun ends => (reached (.ok a)).bind (follows.reaches memory' kept ends)

/-- A query that is followed by another. -/
theorem bind {next : Nat → α → Query β}
    (first : Recurs registry base patience query)
    (second : ∀ a, Recurs registry base patience fun l => next l a) :
    Recurs registry base patience fun l => query l >>= next l :=
  first.bind_told (fun _ _ _ => trivial) fun a _ => second a

/-- A query that looks at the registry first. -/
theorem read {next : Nat → Registry → Query α}
    (h : Recurs registry base patience fun l => next l
      (registry.withPatience l)) :
    Recurs registry base patience fun l => MonadReader.read >>= next l :=
  ⟨h.settles, h.same, h.reaches⟩

/-- A query that looks at the registry, but not at its patience. -/
theorem read_bind {next : Nat → Registry → Query α}
    (same : ∀ l, next l (registry.withPatience l) = next l registry)
    (h : Recurs registry base patience fun l => next l registry) :
    Recurs registry base patience fun l => MonadReader.read >>= next l :=
  read (by simpa only [same] using h)

theorem attempt (h : Recurs registry base patience query) :
    Recurs registry base patience fun l => (query l).attempt := by
  refine ⟨fun memory settled => ?_, fun memory settled => ?_,
    fun memory settled ends => ?_⟩
  · -- An attempt leaves what the query leaves.
    rw [memory_attempt]
    exact h.settles memory settled
  · rw [memory_attempt]
    exact h.same memory settled
  · rw [Query.attempt] at ends ⊢
    split at ends
    · -- A circle need not come out again.
      exact absurd rfl (ends _ _)
    · next outcome memory' fails hrun =>
      -- Any other error is carried as an answer and comes out again.
      have carried : NotCircular outcome :=
        fun name token same => fails name token (by rw [same])
      have reached := h.reaches memory settled
      rw [hrun] at reached
      filter_upwards [reached carried] with l hl memory true
      obtain ⟨answer, kept, same⟩ := hl memory true
      rw [memory_attempt]
      refine ⟨?_, kept, same⟩
      rw [attempt_apply (Prod.ext answer rfl) carried]

/-- Sharing does not decide anything. -/
theorem share (t : Ty) :
    Recurs registry base patience fun _ => Query.share t := by
  refine ⟨fun memory settled => ?_, fun memory settled => ?_,
    fun memory settled _ => ?_⟩
  · rw [share_eq]
    exact { precedes := { settled.precedes with }, facts := settled.facts }
  · rw [share_eq]
    exact ⟨rfl, rfl, fun _ => rfl⟩
  · rw [share_eq]
    refine .of_forall fun l memory true => ?_
    dsimp only
    rw [share_eq]
    exact ⟨rfl, { precedes := { true.precedes with }, facts := true.facts },
      rfl, rfl, fun _ => rfl⟩

end Recurs

/-! ### Establishing facts -/

section
variable {fact : Fact} {isKept : fact.Value → Bool}
  {find : Nat → Query fact.Value} {outcome : Except Error fact.Value}

/-- What is found of a fact is found from the base, if the base does not know of
it. -/
theorem Remembers.ask_base (asks : Remembers registry fact isKept find)
    {room : Nat → Nat} (large : Tendsto room atTop atTop)
    (unknown : base.facts.get? fact = none)
    (h : ReachesSince registry base (fun l => find (room l)) outcome) :
    ∀ᶠ l in atTop, (fact.ask (room l) (registry.withPatience l) base).1
      = outcome := by
  filter_upwards [h, large.eventually asks] with l hl hasks
  rw [hasks, rememberIf_apply_unknown unknown]
  exact (hl base (Memory.isTrueSince_base registry base)).1

/-- Remembering does not change an outcome that is reached, if the base does not
know of it. -/
theorem ReachesSince.rememberIf (asks : Remembers registry fact isKept find)
    (plain : fact.IsPlain) (unknown : base.facts.get? fact = none)
    (h : ∀ room, Tendsto room atTop atTop →
      ReachesSince registry base (fun l => find (room l)) outcome)
    {room : Nat → Nat} (large : Tendsto room atTop atTop) :
    ReachesSince registry base (fun l => Query.rememberIf fact isKept
      (find (room l))) outcome := by
  filter_upwards [h room large] with l hl memory true
  cases known : memory.facts.get? fact with
  | some value =>
    -- What is remembered is what is found from the base, which is the outcome.
    have told := true.facts fact value known unknown plain
    obtain ⟨l', found, found'⟩ := ((told id tendsto_id).and
      (asks.ask_base tendsto_id unknown (h id tendsto_id))).exists
    rw [rememberIf_apply_some known]
    exact ⟨found.symm.trans found', true, .refl memory⟩
  | none =>
    obtain ⟨answer, kept, same⟩ := hl memory true
    have run : find (room l) (registry.withPatience l) memory
        = (outcome, (find (room l) (registry.withPatience l) memory).2) :=
        Prod.ext answer rfl
    cases outcome with
    | error error =>
      rw [rememberIf_apply_error known run]
      exact ⟨rfl, kept, same⟩
    | ok value =>
      rw [rememberIf_apply_ok known run]
      refine ⟨rfl, ?_⟩
      split
      · refine ⟨kept.establish unknown fun _ room large => ?_,
          same.establish plain⟩
        exact asks.ask_base large unknown (h room large)
      · exact ⟨kept, same⟩

section
variable {room : Nat → Nat} {memory : Memory}
  (h : ∀ room', Tendsto room' atTop atTop → room' patience = room patience →
    Recurs registry base patience fun l => find (room' l))
  (settled : memory.IsSettledSince registry base)
include h settled

/-- What is found in the number of steps at hand is found in any number that
grows. -/
theorem Recurs.reaches_rooms
    (ends : NotCircular (find (room patience)
      (registry.withPatience patience) memory).1)
    {room' : Nat → Nat} (large : Tendsto room' atTop atTop) :
    ReachesSince registry base (fun l => find (room' l))
      (find (room patience) (registry.withPatience patience) memory).1 := by
  -- The number of steps at hand is kept, and those to come are taken.
  let steps : Nat → Nat := Function.update room' patience (room patience)
  have now : steps patience = room patience := Function.update_self ..
  have later : ∀ᶠ l in atTop, steps l = room' l :=
    (eventually_gt_atTop patience).mono fun l hl =>
      Function.update_of_ne hl.ne' _ _
  have grows : Tendsto steps atTop atTop :=
    large.congr' (later.mono fun _ hl => hl.symm)
  have reached := (h steps grows now).reaches memory settled
  rw [now] at reached
  filter_upwards [reached ends, later] with l hl hsame
  rw [← hsame]
  exact hl

variable (asks : Remembers registry fact isKept find) (plain : fact.IsPlain)
  (unknown : memory.facts.get? fact = none)
include asks plain unknown

/-- What is found now is found again, and so it is whether or not it is
remembered then. -/
theorem Recurs.reaches_rememberIf
    (ends : NotCircular (find (room patience)
      (registry.withPatience patience) memory).1)
    {room' : Nat → Nat} (large : Tendsto room' atTop atTop) :
    ReachesSince registry base (fun l => Query.rememberIf fact isKept
      (find (room' l)))
      (find (room patience) (registry.withPatience patience) memory).1 :=
  ReachesSince.rememberIf asks plain (settled.precedes.unknown unknown)
    (fun _ large => Recurs.reaches_rooms h settled ends large) large

/-- What is found now may be established. -/
theorem Recurs.leaves_rememberIf (large : Tendsto room atTop atTop)
    (allowed : ∀ value, isKept value → fact.IsAllowed registry.modules value)
    {after : Memory}
    (run : (Query.rememberIf fact isKept (find (room patience))
      (registry.withPatience patience) memory).2 = after) :
    after.IsSettledSince registry base ∧ memory.SameMembers after := by
  have kept := (h room large rfl).settles memory settled
  have same := (h room large rfl).same memory settled
  -- What was found is found again in any memory that is true since `base`.
  have found {room' : Nat → Nat} (large' : Tendsto room' atTop atTop)
      (ends : NotCircular (find (room patience) (registry.withPatience patience)
        memory).1) :
      ReachesSince registry base (fun l => Query.rememberIf fact isKept
        (find (room' l)))
        (find (room patience) (registry.withPatience patience) memory).1 :=
    Recurs.reaches_rememberIf h settled asks plain unknown ends large'
  subst run
  rcases hrun : find (room patience) (registry.withPatience patience) memory
    with ⟨error | value, memory'⟩
  · -- An error is not noted.
    rw [hrun] at kept same
    rw [rememberIf_apply_error unknown hrun]
    exact ⟨kept, same⟩
  · rw [hrun] at kept same found
    rw [rememberIf_apply_ok unknown hrun]
    dsimp only
    split
    · next keeps =>
      -- The value is noted, for it is found again.
      refine ⟨kept.establish
        ⟨?_, fun _ _ => ⟨allowed value keeps, fun room' large' => ?_⟩⟩,
        same.establish plain⟩
      · simp [settled.precedes.unknown unknown]
      · filter_upwards [found large' (.ok value), large'.eventually asks]
          with l hl hasks
        simpa only [hasks] using hl
    · exact ⟨kept, same⟩

end

/-- Facts are found or remembered, and it does not matter which. -/
theorem Recurs.rememberIf (asks : Remembers registry fact isKept find)
    (plain : fact.IsPlain)
    (allowed : ∀ value, isKept value → fact.IsAllowed registry.modules value)
    {room : Nat → Nat} (large : Tendsto room atTop atTop)
    (h : ∀ room', Tendsto room' atTop atTop → room' patience = room patience →
      Recurs registry base patience fun l => find (room' l)) :
    Recurs registry base patience fun l => Query.rememberIf fact isKept
      (find (room l)) := by
  have leaves (memory : Memory) (settled : memory.IsSettledSince registry base)
      {after : Memory}
      (run : (Query.rememberIf fact isKept (find (room patience))
        (registry.withPatience patience)
        memory).2 = after) : after.IsSettledSince registry base ∧
        memory.SameMembers after := by
    cases known : memory.facts.get? fact with
    | some value =>
      rw [rememberIf_apply_some known] at run
      obtain rfl := run
      exact ⟨settled, .refl memory⟩
    | none =>
      exact Recurs.leaves_rememberIf h settled asks plain known
        large allowed run
  refine ⟨fun memory settled => (leaves memory settled rfl).1,
    fun memory settled => (leaves memory settled rfl).2,
      fun memory settled ends => ?_⟩
  cases known : memory.facts.get? fact with
  | none =>
    rw [rememberIf_apply_unknown known] at ends ⊢
    exact Recurs.reaches_rememberIf h settled asks plain known ends large
  | some value =>
    rw [rememberIf_apply_some known]
    cases fresh : base.facts.get? fact with
    | none =>
      have settles :=
        (settled.facts fact value known fresh plain).reaches room large
      filter_upwards [settles, large.eventually asks] with l hl hasks
      simpa only [hasks] using hl
    | some other =>
      -- What the base knows, all know.
      have told := settled.precedes.facts fact other fresh
      rw [known] at told
      obtain rfl := Option.some.inj told
      refine .of_forall fun l more true => ?_
      dsimp only
      rw [rememberIf_apply_some (true.precedes.facts fact value fresh)]
      exact ⟨rfl, true, .refl more⟩

/-- A fact that takes no number of steps is found or remembered. -/
theorem Recurs.remember {find : Query fact.Value}
    (asks : ∀ room, fact.ask room = Query.remember fact find)
    (kept : fact.IsKept) (h : Recurs registry base patience fun _ => find) :
    Recurs registry base patience fun _ => Query.remember fact find := by
  have remembers : Remembers registry fact (fun _ => true) fun _ => find :=
    .of_ask asks
  have recurs := Recurs.rememberIf remembers kept.isPlain
    (fun value _ => kept.isAllowed value) tendsto_id fun _ _ _ => h
  exact recurs

end

end Query

end CliMetadata
