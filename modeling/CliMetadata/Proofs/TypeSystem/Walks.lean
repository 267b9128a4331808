import CliMetadata.Proofs.TypeSystem.Listing

/-!
# Walks along bases

What a type does not have itself is looked for in its base, then in the base of
this, and so on.  The bases may go on for ever, through the same types or
through ever new ones, and nothing but a limit ends the walk then: a type is
asked with as many bases as the limit says, and if there is one more, it is an
error (`Ty.HasChain.reaches_alongBases`).

`IsNearest` says what the outcome is for any such search; there is one
(`IsNearest.eq`).
-/

namespace CliMetadata

open Query

variable {registry : Registry} {α : Type} {limit : Nat}
  {chain : Nat → Option Ty} {answers : Ty → Option α}

/-! ### The nearest answer -/

/-- The outcome of a search along a chain with a limit: the answer of the first
member that has one, among those up to the limit; without one, an error if the
chain goes on, and nothing if it ends. -/
inductive IsNearest (limit : Nat) (chain : Nat → Option Ty)
    (answers : Ty → Option α) :
    Except Error (Option α) → Prop where
  | found {i : Nat} {a : α} : i ≤ limit → (chain i).bind answers = some a →
      (∀ j < i, (chain j).bind answers = none) →
      IsNearest limit chain answers (.ok (some a))
  | tooDeep : (∀ i ≤ limit, (chain i).bind answers = none) →
      (chain (limit + 1)).isSome →
      IsNearest limit chain answers (.error (.tooDeep limit))
  | nothing : (∀ i ≤ limit, (chain i).bind answers = none) →
      chain (limit + 1) = none →
      IsNearest limit chain answers (.ok none)

/-- A search has one outcome. -/
theorem IsNearest.eq {outcome other : Except Error (Option α)}
    (h : IsNearest limit chain answers outcome)
    (h' : IsNearest limit chain answers other) :
    outcome = other := by
  cases h with
  | @found i a within answer passed =>
    cases h' with
    | @found j b _ answer' passed' =>
      -- Neither of the two members comes before the other.
      obtain before | rfl | after := Nat.lt_trichotomy i j
      · rw [passed' i before] at answer
        cases answer
      · rw [answer] at answer'
        cases answer'
        rfl
      · rw [passed j after] at answer'
        cases answer'
    | tooDeep missing | nothing missing =>
      rw [missing i within] at answer
      cases answer
  | tooDeep missing goesOn =>
    cases h' with
    | @found j _ within answer =>
      rw [missing j within] at answer
      cases answer
    | tooDeep => rfl
    | nothing _ ends =>
      rw [ends] at goesOn
      cases goesOn
  | nothing missing ends =>
    cases h' with
    | @found j _ within answer =>
      rw [missing j within] at answer
      cases answer
    | tooDeep _ goesOn =>
      rw [ends] at goesOn
      cases goesOn
    | nothing => rfl

/-- What is made of the answers is made of the nearest one. -/
theorem IsNearest.map {β : Type} {outcome : Except Error (Option α)}
    (h : IsNearest limit chain answers outcome) (f : α → β) :
    IsNearest limit chain (fun u => (answers u).map f)
      (outcome.map (Option.map f)) := by
  -- Where nothing is answered nothing is mapped.
  have mapped (i : Nat) :
      (chain i).bind (fun u => (answers u).map f)
        = ((chain i).bind answers).map f :=
    Option.map_bind.symm
  have missing {i : Nat} (unanswered : (chain i).bind answers = none) :
      (chain i).bind (fun u => (answers u).map f) = none := by
    rw [mapped, unanswered]
    rfl
  cases h with
  | found within answer passed =>
    exact .found within (by rw [mapped, answer]; rfl) fun j hj => missing
      (passed j hj)
  | tooDeep unanswered goesOn =>
    exact .tooDeep (fun i hi => missing (unanswered i hi)) goesOn
  | nothing unanswered ends =>
    exact .nothing (fun i hi => missing (unanswered i hi)) ends

/-- Along a list that the limit does not cut, the first answer is found. -/
theorem isNearest_of_list {members : List Ty}
    (fits : members.length ≤ limit + 1) :
    IsNearest limit (members[·]?) answers
      (.ok (members.findSome? answers)) := by
  cases found : members.findSome? answers with
  | some a =>
    -- The member that answers is reached, for the list fits.
    obtain ⟨before, t, after, rfl, answer, passed⟩ :=
      List.findSome?_eq_some_iff.mp found
    rw [List.length_append, List.length_cons] at fits
    refine .found (by omega) (i := before.length) (by simpa using answer)
      fun j hj => ?_
    rw [List.getElem?_append_left hj, List.getElem?_eq_getElem hj]
    exact passed _ (List.getElem_mem hj)
  | none =>
    -- No member answers, and the chain ends with the list.
    refine .nothing (fun i _ => ?_) (List.getElem?_eq_none fits)
    rw [Option.bind_eq_none_iff]
    exact fun t ht => List.findSome?_eq_none_iff.mp found t
      (List.mem_of_getElem? ht)

/-! ### Chains of bases -/

/-- A base that is not spelled as a signature is the type of its token. -/
theorem TypeDefinition.yields_baseType (sound : registry.IsSound)
    {d : TypeDefinition} {m : Module} (hm : m ∈ registry.modules)
    (named : m.name = d.module) (notNull : d.base.isNull = false)
    (notSpec : d.base.isIn .typeSpec = false) {base : Ty}
    (leads : (m.type d.base).Yields registry (some base))
    (suits : base.canBeBase = true) :
    d.baseType.Yields registry (some base) := by
  have reach := yields_reachModule sound hm
  rw [named] at reach
  -- The token leads to the base, which is of the right sort.
  have spelled : d.openBase.Yields registry (some base) := by
    rw [TypeDefinition.openBase, notNull, if_neg Bool.false_ne_true]
    refine reach.bind ((Yields.attempt leads).bind ?_)
    dsimp only
    rw [suits, if_pos rfl]
    exact .pure _
  refine .remember (fun _ => rfl) trivial (spelled.bind ?_)
  -- No parameters are put into a base that is not a specification.
  dsimp only
  rw [notSpec, if_neg Bool.false_ne_true]
  exact .pure _

section
variable {t : Ty} {ask : Ty → Query (Option α)} {holds : Nat → Memory → Prop}
  {ended : Memory → Prop} (starts : chain 0 = some t)
  (ends : ∀ i, chain i = none → chain (i + 1) = none)

include ends in
theorem eq_none_of_le {i j : Nat} (missing : chain i = none) (le : i ≤ j) :
    chain j = none := by
  induction le with
  | refl => exact missing
  | step _ ih => exact ends _ ih

variable (closes : ∀ i memory, holds i memory → ended memory)
  (asks : ∀ i ≤ limit, ∀ u, chain i = some u →
    (ask u).RunsTo registry (holds i) (fun memory => ended memory ∧
      (answers u = none → holds (i + 1) memory)) (.ok (answers u)))
  (bases : ∀ i ≤ limit, ∀ u, chain i = some u →
    u.base.RunsTo registry (holds (i + 1)) (holds (i + 1))
      (.ok (chain (i + 1))))

include ends closes asks bases in
/-- A walk that has come to a member of the chain goes on from there, where
`holds` tells what is remembered once it has come so far.  The induction is on
the members that may still be asked. -/
theorem runsTo_alongBasesWithin {room i : Nat} (asked : i + room = limit + 1)
    (passed : ∀ j < i, (chain j).bind answers = none) :
    ∃ outcome, IsNearest limit chain answers outcome ∧
      (alongBasesWithin ask limit room (chain i)).RunsTo registry
        (holds i) ended outcome := by
  induction room generalizing i with
  | zero =>
    obtain rfl : i = limit + 1 := asked
    have missing : ∀ j ≤ limit, (chain j).bind answers = none :=
      fun j hj => passed j (Nat.lt_succ_of_le hj)
    cases beyond : chain (limit + 1) with
    | none => exact ⟨.ok none, .nothing missing beyond, .pure none (closes _)⟩
    | some u =>
      exact ⟨_, .tooDeep missing (by rw [beyond]; rfl), .throw _ (closes _)⟩
  | succ room ih =>
    have within : i ≤ limit := by omega
    cases here : chain i with
    | none =>
      -- The chain has ended, so that no later member has an answer either.
      have missing : ∀ j, (chain j).bind answers = none := fun j => by
        obtain before | after := Nat.lt_or_ge j i
        · exact passed j before
        · rw [eq_none_of_le ends here after]
          rfl
      have ended := eq_none_of_le ends here (Nat.le_succ_of_le within)
      exact ⟨.ok none, .nothing (fun j _ => missing j) ended,
        .pure none (closes _)⟩
    | some u =>
      have asked' := asks i within u here
      cases answer : answers u with
      | some a =>
        rw [answer] at asked'
        refine ⟨.ok (some a), .found within (by rw [here]; exact answer) passed,
          ?_⟩
        exact asked'.bind (.pure (some a) fun _ => And.left)
      | none =>
        rw [answer] at asked'
        have passed' : ∀ j < i + 1, (chain j).bind answers = none :=
          fun j hj => by
          obtain before | rfl := Nat.lt_succ_iff_lt_or_eq.mp hj
          · exact passed j before
          · rw [here]
            exact answer
        obtain ⟨outcome, nearest, reached⟩ := ih (by omega) passed'
        refine ⟨outcome, nearest,
          (asked'.imp (fun _ => id) fun memory left => left.2 rfl).bind ?_⟩
        exact (bases i within u here).bind reached

include starts ends closes asks bases in
/-- What is looked for along the bases is the nearest answer. -/
theorem runsTo_alongBases
    (limited : registry.options.maxInheritanceDepth = limit) :
    ∃ outcome, IsNearest limit chain answers outcome ∧
      (alongBases ask t).RunsTo registry (holds 0) ended outcome := by
  obtain ⟨outcome, nearest, reached⟩ :=
    runsTo_alongBasesWithin ends closes asks bases (Nat.zero_add _) nofun
  rw [starts, ← limited] at reached
  exact ⟨outcome, nearest, reached⟩

end

/-- A type with its base, the base of this, and so on, as far as a limit lets
them be followed. -/
structure Ty.HasChain (registry : Registry) (t : Ty) (limit : Nat)
    (chain : Nat → Option Ty) :
    Prop where
  start : chain 0 = some t
  base : ∀ i ≤ limit, ∀ u, chain i = some u →
    u.base.Yields registry (chain (i + 1))
  ends : ∀ i, chain i = none → chain (i + 1) = none

namespace Ty.HasChain

variable {t : Ty} (h : t.HasChain registry limit chain)
include h

theorem isNode (sound : registry.IsSound)
    (ht : t.IsNode registry.modules fun _ => True) {i : Nat}
    (within : i ≤ limit) {u : Ty} (hu : chain i = some u) :
    u.IsNode registry.modules fun _ => True := by
  induction i generalizing u with
  | zero =>
    obtain rfl := Option.some.inj (h.start.symm.trans hu)
    exact ht
  | succ i ih =>
    cases before : chain i with
    | none =>
      -- The chain has ended before.
      rw [h.ends i before] at hu
      cases hu
    | some v =>
      -- The base of a node is a node.
      have node := ih (Nat.le_of_succ_le within) before
      have derives := h.base i (Nat.le_of_succ_le within) v before
      rw [hu] at derives
      exact (derives.areNodes sound fun _ => Ty.gives_base node).head

/-- What is looked for along the bases is the nearest answer. -/
theorem reaches_alongBases {ask : Ty → Query (Option α)}
    (limited : registry.options.maxInheritanceDepth = limit)
    (asks : ∀ i ≤ limit, ∀ u, chain i = some u →
      (ask u).Yields registry (answers u)) :
    ∃ outcome, IsNearest limit chain answers outcome ∧
      Reaches registry (fun _ => alongBases ask t) outcome := by
  -- What is true stays true, however far the walk has come.
  have asks' (i : Nat) (within : i ≤ limit) (u : Ty) (hu : chain i = some u) :
      (ask u).RunsTo registry (Memory.IsTrue registry)
        (fun memory => memory.IsTrue registry ∧
          (answers u = none → memory.IsTrue registry))
        (.ok (answers u)) :=
    RunsTo.imp (asks i within u hu) (fun _ => id)
      fun _ true => ⟨true, fun _ => true⟩
  have bases (i : Nat) (within : i ≤ limit) (u : Ty) (hu : chain i = some u) :
      u.base.RunsTo registry (Memory.IsTrue registry) (Memory.IsTrue registry)
        (.ok (chain (i + 1))) :=
    h.base i within u hu
  have closes (_ : Nat) (memory : Memory) : memory.IsTrue registry →
      memory.IsTrue registry := id
  exact runsTo_alongBases h.start h.ends closes asks' bases limited

end Ty.HasChain

end CliMetadata
