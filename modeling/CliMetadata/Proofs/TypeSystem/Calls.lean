import Mathlib.Data.List.Find
import CliMetadata.Proofs.TypeSystem.References
import CliMetadata.Proofs.TypeSystem.Slots
import CliMetadata.Proofs.TypeSystem.Walks

/-!
# Calls of virtual methods

`Ty.HasBases` says which bases a type has, up to its root, and `Ty.Lineage` what
they list as well.  What is looked for along the bases is looked for in this
list (`Ty.HasBases.yields_alongBases`), so that a call is dispatched to the
method that a search without slots meets (`Ty.Lineage.yields_dispatch`).

This is who fills the slot of the declaration if and only if no slot that is
opened below it, for its name and signature, is taken over
(`Ty.Lineage.yields_occupant_iff`).
-/

namespace CliMetadata

open Query

variable {registry : Registry} {t : Ty} {bases : List Ty}

/-! ### Bases -/

/-- The bases of a type are these, its root being the last. -/
inductive Ty.HasBases (registry : Registry) : Ty → List Ty → Prop where
  | root {t : Ty} : t.base.Yields registry none → HasBases registry t []
  | derived {t base : Ty} {bases : List Ty} :
      t.base.Yields registry (some base) →
      HasBases registry base bases → HasBases registry t (base :: bases)

theorem Ty.HasBases.eq {other : List Ty} (h : t.HasBases registry bases)
    (h' : t.HasBases registry other) : bases = other := by
  induction h generalizing other with
  | root ends =>
    cases h' with
    | root => rfl
    | derived derives => cases ends.eq derives
  | derived derives _ ih =>
    cases h' with
    | root ends => cases ends.eq derives
    | derived derives' rest =>
      obtain rfl := Option.some.inj (derives.eq derives')
      rw [ih rest]

/-- The bases of a base are the bases that come after it. -/
theorem Ty.HasBases.of_mem (h : t.HasBases registry bases) {u : Ty}
    (hu : u ∈ bases) :
    ∃ before after, bases = before ++ u :: after ∧
    u.HasBases registry after := by
  induction h with
  | root => cases hu
  | @derived _ base bases _ rest ih =>
    rcases List.mem_cons.mp hu with rfl | later
    · exact ⟨[], bases, rfl, rest⟩
    · obtain ⟨before, after, rfl, h⟩ := ih later
      exact ⟨base :: before, after, rfl, h⟩

/-- A type is not among its own bases, and neither is a base. -/
theorem Ty.HasBases.nodup (h : t.HasBases registry bases) :
    (t :: bases).Nodup := by
  induction h with
  | root => exact List.nodup_singleton _
  | @derived t base bases derives rest ih =>
    refine List.nodup_cons.mpr ⟨fun circular => ?_, ih⟩
    have h : t.HasBases registry (base :: bases) := .derived derives rest
    obtain ⟨before, after, parts, h'⟩ := h.of_mem circular
    -- The bases of the type would be the part of them after the type.
    have shorter := congrArg List.length ((h.eq h').symm.trans parts)
    rw [List.length_append, List.length_cons] at shorter
    omega

section
variable {α : Type} {ask : Ty → Query (Option α)} {answers : Ty → Option α}

/-- A type and its bases are a chain, one after the other. -/
theorem Ty.HasBases.hasChain (h : t.HasBases registry bases) (limit : Nat) :
    t.HasChain registry limit ((t :: bases)[·]?) where
  start := rfl
  base i within u hu := by
    induction h generalizing i with
    | root ends =>
      -- The chain ends with the root.
      obtain rfl : i = 0 := by simpa using (List.getElem?_eq_some_iff.mp hu).1
      cases hu
      exact ends
    | derived derives _ ih =>
      cases i with
      | zero =>
        -- The base of the type itself.
        cases hu
        exact derives
      | succ i => exact ih i (Nat.le_of_succ_le within) hu
  ends i missing := by
    rw [List.getElem?_eq_none_iff] at missing ⊢
    exact Nat.le_succ_of_le missing

theorem Ty.HasBases.isNode (h : t.HasBases registry bases)
    (sound : registry.IsSound) (ht : t.IsNode registry.modules fun _ => True) :
    ∀ u ∈ t :: bases, u.IsNode registry.modules fun _ => True := by
  intro u hu
  obtain ⟨i, hi, rfl⟩ := List.getElem_of_mem hu
  have within : i ≤ bases.length := Nat.le_of_lt_succ hi
  exact (h.hasChain bases.length).isNode sound ht within
    (List.getElem?_eq_getElem hi)

/-- What is looked for along the bases is what the first of them has, if there
are not too many. -/
theorem Ty.HasBases.yields_alongBases (h : t.HasBases registry bases)
    (fits : bases.length ≤ registry.options.maxInheritanceDepth)
    (asks : ∀ u ∈ t :: bases, (ask u).Yields registry (answers u)) :
    (alongBases ask t).Yields registry ((t :: bases).findSome? answers) := by
  obtain ⟨outcome, nearest, reached⟩ := (h.hasChain _).reaches_alongBases rfl
    fun i _ u hu => asks u (List.mem_of_getElem? hu)
  rwa [nearest.eq (isNearest_of_list (Nat.succ_le_succ fits))] at reached

end

/-! ### Methods that end a call -/

namespace MethodEntry

/-- Whether a call of a declaration ends at a method of its name. -/
def endsCall (declaration entry : MethodEntry) : Bool :=
  entry.method = declaration.method ∨
    entry.method.flags.isVirtual ∧ ¬ entry.opens ∧
    entry.signature = declaration.signature

theorem runsTo_answersCall (d : MethodEntry) {entry : MethodEntry}
    {holds : Memory → Prop}
    (told : entry.method.signature.RunsTo registry holds holds
      (.ok entry.signature)) :
    (Ty.answersCall d.method d.signature entry.method).RunsTo
      registry holds holds
      (.ok (d.endsCall entry)) := by
  rw [Ty.answersCall.eq_def, endsCall]
  -- The method that is called ends the search.
  by_cases same : entry.method = d.method
  · rw [if_pos same, decide_eq_true (.inl same)]
    exact .pure true fun _ => id
  rw [if_neg same]
  by_cases passed : ¬ entry.method.flags.isVirtual ∨
    entry.method.flags.isNewSlot
  · -- A method that is not virtual or opens a slot is passed.
    rw [if_pos passed, decide_eq_false]
    · exact .pure false fun _ => id
    · rintro (same' | ⟨isVirtual, reuses, -⟩)
      · exact same same'
      · exact passed.elim (· isVirtual) reuses
  · -- Any other one ends it if the signatures agree.
    obtain ⟨isVirtual, reuses⟩ := not_or.mp passed
    have decides : decide (entry.signature = d.signature)
        = decide (entry.method = d.method ∨
        entry.method.flags.isVirtual ∧ ¬ entry.opens ∧
        entry.signature = d.signature) := by
      simp [same, opens, not_not.mp isVirtual, reuses]
    rw [if_neg passed, ← decides]
    exact told.bind (.pure _ fun _ => id)

end MethodEntry

/-- A call ends at the first method, from the type up, that has the name of the
declaration and at which a call of it ends. -/
theorem Ty.HasBases.yields_dispatch (h : t.HasBases registry bases)
    (sound : registry.IsSound) (owns : registry.OwnsMembers)
    (ht : t.IsNode registry.modules fun _ => True)
    (fits : bases.length ≤ registry.options.maxInheritanceDepth)
    {entries : Ty → List MethodEntry}
    (lists : ∀ u ∈ t :: bases, u.Lists registry (entries u)) {d : MethodEntry}
    {v : Ty} (hv : v ∈ t :: bases) (hd : d ∈ entries v) :
    (t.dispatch d.method).Yields registry
      ((((t :: bases).flatMap entries).find? fun entry =>
      entry.name = d.name && d.endsCall entry).map MethodEntry.method) := by
  obtain ⟨_, m, _, _, hm, _, tells⟩ := (lists v hv).tells hd
  have nodes := h.isNode sound ht
  -- Each type is asked for what a search in its list finds.
  have asks (u : Ty) (hu : u ∈ t :: bases) :
      (do (← u.methods (.named d.name)).find (Ty.answersCall d.method
        d.signature) :
        Query (Option Method)).Yields registry (((entries u).find? fun entry =>
          entry.name = d.name && d.endsCall entry).map MethodEntry.method) := by
    refine (lists u hu).names.yields_find
      (Ty.answersCall d.method d.signature) sound owns
      (nodes u hu) fun entry hentry _ => ?_
    obtain ⟨_, _, _, _, _, _, tells⟩ := (lists u hu).tells hentry
    exact d.runsTo_answersCall tells.signature
  have search := h.yields_alongBases fits asks
  rw [List.find?_flatMap, List.map_findSome?]
  refine (tells.yields_name sound hm).bind (tells.signature.bind ?_)
  exact (yields_requireTypeSystem sound).bind search

namespace MethodEntry

/-- Whether a method of the lineage of a declaration ends a search for it. -/
def meets (declaration entry : MethodEntry) : Bool :=
  entry.method = declaration.method || declaration.reuses entry

@[simp]
theorem meets_self (d : MethodEntry) : d.meets d = true := by
  rw [meets, decide_eq_true rfl, Bool.true_or]

/-- What is met has the name and signature of the declaration, if it is told
apart from it. -/
theorem fits_of_meets {d entry : MethodEntry}
    (told : entry.method = d.method → entry = d) (met : d.meets entry = true) :
    entry.fits d = true := by
  rw [meets, Bool.or_eq_true, decide_eq_true_eq] at met
  rcases met with same | reuses
  · rw [told same]
    exact d.fits_self
  · exact (Bool.and_eq_true_iff.mp reuses).1

end MethodEntry

/-- Where at most one item passes, a search from the end finds what a search
from the start finds. -/
theorem find?_reverse_of_single {α : Type} {passes : α → Bool} {items : List α}
    (single : items.Pairwise fun a b => passes a = true → passes b = false) :
    items.reverse.find? passes = items.find? passes := by
  induction items with
  | nil => rfl
  | cons a rest ih =>
    obtain ⟨first, others⟩ := List.pairwise_cons.mp single
    rw [List.reverse_cons, List.find?_append, ih others, List.find?_singleton,
      List.find?_cons]
    cases passed : passes a with
    | true =>
      -- If the first item passes, no later one does.
      have missed : rest.find? passes = none := by
        refine List.find?_eq_none.mpr fun b hb => ?_
        rw [first b hb passed]
        exact Bool.false_ne_true
      rw [missed]
      rfl
    | false => exact Option.or_none

/-! ### What a type and its bases list -/

/-- A type with its bases, not too many, and what is told of their methods.
None of the types has two virtual methods of one name and signature. -/
structure Ty.Lineage (registry : Registry) (t : Ty) where
  bases : List Ty
  entries : Ty → List MethodEntry
  hasBases : t.HasBases registry bases
  fits : bases.length ≤ registry.options.maxInheritanceDepth
  lists : ∀ u ∈ t :: bases, u.Lists registry (entries u)
  single : ∀ u ∈ t :: bases,
    ((entries u).filter (·.method.flags.isVirtual)).Pairwise
    fun entry other => entry.fits other = false

namespace Ty.Lineage

variable (line : t.Lineage registry)

/-- The virtual methods of a type of the lineage. -/
def virtualsOf (u : Ty) :
    List MethodEntry := (line.entries u).filter (·.method.flags.isVirtual)

/-- The virtual methods of the lineage, from the root down. -/
def virtuals :
    List MethodEntry := (t :: line.bases).reverse.flatMap line.virtualsOf

variable {line}

@[simp]
theorem mem_virtuals {entry : MethodEntry} : entry ∈ line.virtuals ↔
    ∃ u ∈ t :: line.bases, entry ∈ line.entries u ∧
    entry.method.flags.isVirtual = true := by
  simp only [virtuals, virtualsOf, List.mem_flatMap, List.mem_reverse,
    List.mem_filter]

/-- The methods of the lineage are told apart by themselves. -/
theorem eq_of_method_eq (sound : registry.IsSound) {u v : Ty}
    (hu : u ∈ t :: line.bases) (hv : v ∈ t :: line.bases)
    {entry other : MethodEntry} (hentry : entry ∈ line.entries u)
    (hother : other ∈ line.entries v) (same : entry.method = other.method) :
    u = v ∧ entry = other :=
  Ty.Lists.eq_of_method_eq sound.proper (line.lists u hu)
    (line.lists v hv) hentry hother same

theorem nodup_virtuals (sound : registry.IsSound) :
    (line.virtuals.map MethodEntry.method).Nodup := by
  rw [List.Nodup, List.pairwise_map, virtuals, List.pairwise_flatMap]
  -- Methods of one type differ in name or signature, and methods of two types
  -- in their owners.
  constructor
  · intro u hu
    rw [List.mem_reverse] at hu
    refine (line.single u hu).imp_of_mem
      fun {entry other} hentry hother unfit same => ?_
    obtain ⟨-, rfl⟩ := eq_of_method_eq sound hu hu
      (List.mem_of_mem_filter hentry) (List.mem_of_mem_filter hother) same
    rw [entry.fits_self] at unfit
    cases unfit
  · have distinct : (t :: line.bases).reverse.Nodup :=
      List.nodup_reverse.mpr line.hasBases.nodup
    refine distinct.imp_of_mem
      fun {u v} hu hv different entry hentry other hother same => ?_
    rw [List.mem_reverse] at hu hv
    exact different (eq_of_method_eq sound hu hv (List.mem_of_mem_filter hentry)
      (List.mem_of_mem_filter hother) same).1

section
variable (sound : registry.IsSound) {d : MethodEntry}
include sound

/-- What ends a call of a virtual method of the lineage is virtual, and is met
by a search for it. -/
theorem endsCall_eq (hd : d ∈ line.virtuals) {u : Ty} (hu : u ∈ t :: line.bases)
    {entry : MethodEntry} (hentry : entry ∈ line.entries u) :
    (decide (entry.name = d.name) && d.endsCall entry)
      = (entry.method.flags.isVirtual && d.meets entry) := by
  obtain ⟨v, hv, listed, isVirtual⟩ := mem_virtuals.mp hd
  by_cases same : entry.method = d.method
  · obtain ⟨-, rfl⟩ := eq_of_method_eq sound hu hv hentry listed same
    rw [isVirtual, entry.meets_self, MethodEntry.endsCall]
    simp
  -- Another method ends the call if it is virtual, opens no slot and has the
  -- name and signature.
  · rw [MethodEntry.endsCall, MethodEntry.meets, MethodEntry.reuses,
      MethodEntry.fits]
    simp [same]
    cases entry.method.flags.isVirtual <;> cases entry.opens <;> simp

/-- In a type of the lineage, what a search for a virtual method of the lineage
meets is found from either end. -/
theorem find?_entries (hd : d ∈ line.virtuals) {u : Ty}
    (hu : u ∈ t :: line.bases) :
    ((line.entries u).find? fun entry => decide (entry.name = d.name) &&
      d.endsCall entry)
      = (line.virtualsOf u).reverse.find? d.meets := by
  obtain ⟨v, hv, listed, -⟩ := mem_virtuals.mp hd
  have single : (line.virtualsOf u).Pairwise
      fun entry other => d.meets entry = true → d.meets other = false := by
    refine (line.single u hu).imp_of_mem
      fun {entry other} hentry hother unfit met => ?_
    have told {entry : MethodEntry} (hentry : entry ∈ line.virtualsOf u)
        (same : entry.method = d.method) : entry = d :=
      (eq_of_method_eq sound hu hv (List.mem_of_mem_filter hentry)
        listed same).2
    -- Two methods that are met both fit the declaration, and so each other.
    have fits := MethodEntry.fits_of_meets (told hentry) met
    by_contra met'
    have fits' := MethodEntry.fits_of_meets (told hother)
      (Bool.not_eq_false _ ▸ met')
    rw [MethodEntry.fits_congr fits, MethodEntry.fits_comm, fits'] at unfit
    cases unfit
  rw [find?_reverse_of_single single, virtualsOf, List.find?_filter]
  refine List.find?_congr fun entry hentry => ?_
  rw [endsCall_eq sound hd hu hentry, Bool.decide_and, Bool.decide_eq_true,
    Bool.decide_eq_true]

variable {above below : List MethodEntry}
  (split : line.virtuals = above ++ d :: below)
include split

/-- From the type up, a search meets who takes over last, or the declaration. -/
theorem find?_reverse_virtuals :
    line.virtuals.reverse.find? d.meets = some (d.lastReuse below) := by
  have distinct := line.nodup_virtuals sound
  rw [split] at distinct
  obtain ⟨-, later⟩ := MethodEntry.ne_of_nodup distinct
  have same : below.reverse.find? d.meets = below.reverse.find? d.reuses := by
    refine List.find?_congr fun entry hentry => ?_
    simp [MethodEntry.meets,
      decide_eq_false (later entry (List.mem_reverse.mp hentry))]
  rw [split, List.reverse_append, List.reverse_cons, List.append_assoc,
    List.find?_append, same,
    List.singleton_append, List.find?_cons, d.meets_self, MethodEntry.lastReuse]
  cases below.reverse.find? d.reuses <;> rfl

/-- Who a call of a virtual method is dispatched to. -/
theorem yields_dispatch (owns : registry.OwnsMembers)
    (ht : t.IsNode registry.modules fun _ => True) :
    (t.dispatch d.method).Yields registry
      (some (d.lastReuse below).method) := by
  have hd : d ∈ line.virtuals := by
    rw [split]
    exact List.mem_append_right above List.mem_cons_self
  obtain ⟨v, hv, listed, -⟩ := mem_virtuals.mp hd
  have search := line.hasBases.yields_dispatch sound owns ht line.fits
    line.lists hv listed
  -- To ask one type after the other is to search all virtual methods from the
  -- type up.
  have target : (((t :: line.bases).flatMap line.entries).find? fun entry =>
      entry.name = d.name && d.endsCall entry) = some (d.lastReuse below) := by
    calc
      _ = (t :: line.bases).findSome? fun u => (line.virtualsOf u).reverse.find?
          d.meets := by
        rw [List.find?_flatMap, ← List.head?_filterMap, ← List.head?_filterMap]
        rw [List.filterMap_congr fun u hu => find?_entries sound hd hu]
      _ = line.virtuals.reverse.find? d.meets := by
        rw [virtuals, List.flatMap_reverse, List.reverse_reverse,
          List.find?_flatMap]
        rfl
      _ = some (d.lastReuse below) := find?_reverse_virtuals sound split
  rw [target] at search
  exact search

/-- A call of a virtual method is dispatched to who fills its slot if and only
if no slot that is opened below it, for its name and signature, is taken
over. -/
theorem yields_occupant_iff (owns : registry.OwnsMembers)
    (ht : t.IsNode registry.modules fun _ => True) :
    (∃ occupant, Slot.occupant? (Slot.layOut line.virtuals) d.method
      = some occupant ∧
      (t.dispatch d.method).Yields registry (some occupant.method)) ↔
      Slot.OpensLast d below := by
  have dispatched := yields_dispatch sound split owns ht
  have distinct := line.nodup_virtuals sound
  rw [split] at distinct ⊢
  rw [← Slot.occupant?_layOut_eq_iff distinct]
  obtain ⟨earlier, later⟩ := MethodEntry.ne_of_nodup distinct
  constructor
  -- The method that fills the slot is told apart from all others, so that the
  -- entries are the same.
  · rintro ⟨occupant, fills, reached⟩
    have same : occupant.method = (d.lastReuse below).method :=
      Option.some.inj (reached.eq dispatched)
    rw [Slot.occupant?_layOut earlier later] at fills ⊢
    obtain rfl := Option.some.inj fills
    have distinct' : ((d :: below).map MethodEntry.method).Nodup := by
      rw [List.map_append] at distinct
      exact distinct.of_append_right
    rw [List.inj_on_of_nodup_map distinct' Slot.filler_mem
      (d.lastReuse_mem below) same]
  · intro fills
    exact ⟨_, fills, dispatched⟩

end

end Ty.Lineage

end CliMetadata
