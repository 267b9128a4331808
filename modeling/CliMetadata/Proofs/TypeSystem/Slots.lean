import Mathlib.Data.List.Induction
import Mathlib.Data.List.Nodup
import CliMetadata.Proofs.TypeSystem.Listing

/-!
# Slots

Virtual methods have slots, which are laid out from the root of a type down: a
method that opens a slot gets a new one, and any other takes over the slot that
was opened last for its name and signature, or opens one if there is none
(`Slot.layOut`).  A call of a method is meant for whoever fills its slot in the
end (`Slot.occupant?`).

A call is dispatched without slots, by a search from the type up to its root:
the first method of the name and signature that does not open a slot ends the
search, and so does the declaration itself (`MethodEntry.lastReuse`).  The two
agree exactly where no slot that is opened below the declaration, for its name
and signature, is taken over further below (`Slot.occupant?_layOut_eq_iff`):
such a method fills the newer slot, but it is what the search meets first.
-/

namespace CliMetadata

/-! ### Laying out slots -/

namespace MethodEntry

/-- Whether the method opens a slot. -/
def opens (entry : MethodEntry) : Bool := entry.method.flags.isNewSlot

/-- Whether two methods have one name and signature. -/
def fits (entry other : MethodEntry) : Bool :=
  entry.name = other.name ∧ entry.signature = other.signature

theorem fits_iff {entry other : MethodEntry} :
    entry.fits other = true ↔ entry.name = other.name ∧
    entry.signature = other.signature :=
  decide_eq_true_iff

@[simp]
theorem fits_self (entry : MethodEntry) :
    entry.fits entry = true := fits_iff.mpr ⟨rfl, rfl⟩

theorem fits_comm {entry other : MethodEntry} :
    entry.fits other = other.fits entry := by
  rw [Bool.eq_iff_iff, fits_iff, fits_iff]
  exact and_congr eq_comm eq_comm

/-- What fits one of two methods that fit fits the other. -/
theorem fits_congr {entry other : MethodEntry} (h : entry.fits other = true)
    (x : MethodEntry) :
    entry.fits x = other.fits x := by
  obtain ⟨name, signature⟩ := fits_iff.mp h
  rw [fits, fits, name, signature]

end MethodEntry

/-- A slot: the method that fills it, and those that have filled it before, the
latest first. -/
structure Slot where
  occupant : MethodEntry
  earlier : List MethodEntry := []

namespace Slot

/-- Whether a method has filled the slot. -/
def holds (slot : Slot) (method : Method) : Bool :=
  (slot.occupant :: slot.earlier).any fun entry => entry.method = method

/-- The slot when a method has taken it over. -/
def takenBy (entry : MethodEntry) (slot : Slot) : Slot where
  occupant := entry
  earlier := slot.occupant :: slot.earlier

/-- Whether there is a slot for the name and signature of a method. -/
def isOpen (slots : List Slot) (entry : MethodEntry) :
    Bool := slots.any (·.occupant.fits entry)

/-- The slots, the one that was opened last in front, when a method has taken
over the first for its name and signature. -/
def takeOver (entry : MethodEntry) : List Slot → List Slot
  | [] => []
  | slot :: rest =>
      if slot.occupant.fits entry then slot.takenBy entry :: rest
      else slot :: takeOver entry rest

/-- The slots when one more method has its place. -/
def place (slots : List Slot) (entry : MethodEntry) : List Slot :=
  if entry.opens ∨ ¬ isOpen slots entry then { occupant := entry } :: slots
  else takeOver entry slots

/-- The slots of virtual methods that are given from the root down. -/
def layOut (methods : List MethodEntry) : List Slot := methods.foldl place []

/-- Who fills the slot of a method. -/
def occupant? (slots : List Slot) (method : Method) : Option MethodEntry :=
  (slots.find? (·.holds method)).map Slot.occupant

end Slot

namespace MethodEntry

/-- Whether a method has the name and signature of a declaration and does not
open a slot. -/
def reuses (declaration entry : MethodEntry) :
    Bool := entry.fits declaration && !entry.opens

/-- Who a search from the type up to the declaration meets first, of the methods
below the declaration, which are given from the declaration down. -/
def lastReuse (declaration : MethodEntry) (below : List MethodEntry) :
    MethodEntry :=
  (below.reverse.find? declaration.reuses).getD declaration

theorem lastReuse_mem (d : MethodEntry) (below : List MethodEntry) :
    d.lastReuse below ∈ d :: below := by
  rw [lastReuse]
  cases met : below.reverse.find? d.reuses with
  | none => exact List.mem_cons_self
  | some entry =>
    exact List.mem_cons_of_mem d (List.mem_reverse.mp
      (List.mem_of_find?_eq_some met))

/-- Where methods are told apart by themselves, those above and below a
declaration are others. -/
theorem ne_of_nodup {above below : List MethodEntry} {d : MethodEntry}
    (distinct : ((above ++ d :: below).map method).Nodup) :
    (∀ entry ∈ above, entry.method ≠ d.method) ∧
      ∀ entry ∈ below, entry.method ≠ d.method := by
  rw [List.map_append, List.nodup_append] at distinct
  obtain ⟨-, distinct, apart⟩ := distinct
  constructor
  · intro entry hentry
    exact apart _ (List.mem_map_of_mem hentry) _ List.mem_cons_self
  · intro entry hentry same
    exact (List.nodup_cons.mp distinct).1 (same ▸ List.mem_map_of_mem hentry)

end MethodEntry

/-! ### Taking over -/

namespace Slot

variable {slots newer older : List Slot} {slot : Slot} {entry d : MethodEntry}
  {method : Method}

@[simp]
theorem isOpen_cons :
    isOpen (slot :: slots) d = (slot.occupant.fits d || isOpen slots d) :=
  List.any_cons

@[simp]
theorem takeOver_append : takeOver entry (newer ++ older)
    = if isOpen newer entry then takeOver entry newer ++ older
      else newer ++ takeOver entry older := by
  induction newer with
  | nil => rfl
  | cons slot rest ih =>
    rw [List.cons_append, takeOver, takeOver, ih, isOpen_cons]
    -- The slot in front is either the one that is taken over or no slot for the
    -- name and signature.
    by_cases same : slot.occupant.fits entry = true
    · simp [same]
    · rw [if_neg same, if_neg same, Bool.eq_false_iff.mpr same, Bool.false_or]
      split <;> rfl

/-- A slot that is taken over stays one for the same name and signature. -/
@[simp]
theorem isOpen_takeOver : isOpen (takeOver entry slots) d = isOpen slots d := by
  induction slots with
  | nil => rfl
  | cons slot rest ih =>
    rw [takeOver]
    by_cases same : slot.occupant.fits entry = true
    · rw [if_pos same, isOpen_cons, isOpen_cons, MethodEntry.fits_congr same]
      rfl
    · simp [same, ih]

@[simp]
theorem holds_takenBy (different : entry.method ≠ method) :
    (slot.takenBy entry).holds method = slot.holds method := by
  rw [holds, takenBy, List.any_cons, decide_eq_false different, Bool.false_or]
  rfl

/-- Who takes over a slot takes no method out of it. -/
@[simp]
theorem any_holds_takeOver (different : entry.method ≠ method) :
    (takeOver entry slots).any (·.holds method)
      = slots.any (·.holds method) := by
  induction slots with
  | nil => rfl
  | cons slot rest ih =>
    rw [takeOver]
    by_cases same : slot.occupant.fits entry = true
    · simp [same, holds_takenBy different]
    · simp [same, ih]

/-- Only methods that were given a place hold slots. -/
theorem any_holds_place (different : entry.method ≠ method) :
    (place slots entry).any (·.holds method) = slots.any (·.holds method) := by
  rw [place]
  split
  · rw [List.any_cons]
    have empty : holds { occupant := entry } method = false := by
      simp [holds, different]
    simp [empty]
  · exact any_holds_takeOver different

@[simp]
theorem any_holds_layOut {methods : List MethodEntry}
    (different : ∀ entry ∈ methods, entry.method ≠ method) :
    (layOut methods).any (·.holds method) = false := by
  induction methods using List.reverseRecOn with
  | nil => rfl
  | append_singleton methods entry ih =>
    obtain ⟨others, last⟩ := List.forall_mem_append.mp different
    rw [layOut, List.foldl_append]
    exact (any_holds_place (last entry (List.mem_singleton_self entry))).trans
      (ih others)

/-! ### Following one slot -/

/-- The slot of a method, who fills it, and whether it is the latest for its
name and signature. -/
structure Tracks (slots : List Slot) (d occupant : MethodEntry)
    (isLatest : Bool) : Prop where
  split : ∃ newer slot older, slots = newer ++ slot :: older ∧
    slot.holds d.method = true ∧
    slot.occupant = occupant ∧ newer.any (·.holds d.method) = false ∧
      isLatest = !isOpen newer d
  fits : occupant.fits d = true

variable {occupant : MethodEntry} {isLatest : Bool}

theorem Tracks.occupant?_eq (h : Tracks slots d occupant isLatest) :
    occupant? slots d.method = some occupant := by
  obtain ⟨newer, slot, older, rfl, held, rfl, others, -⟩ := h.split
  have none : newer.find? (·.holds d.method) = none := by
    refine List.find?_eq_none.mpr fun other hother => ?_
    exact List.any_eq_false.mp others other hother
  rw [occupant?, List.find?_append, none, List.find?_cons, held]
  rfl

section
variable (h : Tracks slots d occupant isLatest)
  (different : entry.method ≠ d.method)
include h different

/-- A method of another name or signature has its place elsewhere. -/
theorem Tracks.place_of_not_fits (unfit : entry.fits d = false) :
    Tracks (place slots entry) d occupant isLatest := by
  obtain ⟨newer, slot, older, rfl, held, filled, others, latest⟩ := h.split
  refine ⟨?_, h.fits⟩
  rw [place]
  split
  -- A new slot is opened in front.
  · refine ⟨{ occupant := entry } :: newer, slot, older, rfl, held,
      filled, ?_, ?_⟩
    · rw [List.any_cons, others]
      simp [holds, different]
    · simp [unfit, latest]
  · have kept : slot.occupant.fits entry = false := by
      rw [filled, MethodEntry.fits_congr h.fits, MethodEntry.fits_comm, unfit]
    -- A slot is taken over, which is a newer or an older one.
    rw [takeOver_append]
    split
    · refine ⟨takeOver entry newer, slot, older, rfl, held, filled, ?_, ?_⟩
      · rw [any_holds_takeOver different, others]
      · simp [latest]
    · refine ⟨newer, slot, takeOver entry older, ?_, held, filled,
        others, latest⟩
      rw [takeOver, kept]
      rfl

/-- A slot that is opened for the same name and signature is a newer one. -/
theorem Tracks.place_of_opens (fit : entry.fits d = true)
    (opens : entry.opens = true) :
    Tracks (place slots entry) d occupant false := by
  obtain ⟨newer, slot, older, rfl, held, filled, others, -⟩ := h.split
  refine ⟨⟨{ occupant := entry } :: newer, slot, older, ?_, held, filled, ?_,
    ?_⟩, h.fits⟩
  · rw [place, if_pos (.inl opens)]
    rfl
  · rw [List.any_cons, others]
    simp [holds, different]
  · rw [isOpen_cons, fit]
    rfl

/-- A method of the same name and signature takes over the latest slot. -/
theorem Tracks.place_of_fits (fit : entry.fits d = true)
    (reuses : entry.opens = false) :
    Tracks (place slots entry) d (if isLatest then entry else occupant)
      isLatest := by
  obtain ⟨newer, slot, older, rfl, held, filled, others, latest⟩ := h.split
  have same (slots : List Slot) : isOpen slots entry = isOpen slots d := by
    refine congrArg slots.any (funext fun other => ?_)
    rw [MethodEntry.fits_comm, MethodEntry.fits_congr fit,
      MethodEntry.fits_comm]
  have fills : slot.occupant.fits entry = true := by
    rw [filled, MethodEntry.fits_congr h.fits, MethodEntry.fits_comm, fit]
  have there : isOpen (newer ++ slot :: older) entry = true := by
    simp [isOpen, fills]
  -- There is a slot for the name and signature, so that none is opened.
  have placed : place (newer ++ slot :: older) entry
      = takeOver entry (newer ++ slot :: older) := by
    rw [place, if_neg]
    simp [reuses, there]
  rw [placed, takeOver_append, same]
  cases isLatest with
  | true =>
    -- No newer slot is for the name and signature, and this one is taken over.
    have none : isOpen newer d = false := by simpa using latest
    rw [none, if_neg Bool.false_ne_true, takeOver, fills,
      if_pos rfl, if_pos rfl]
    refine ⟨⟨newer, slot.takenBy entry, older, rfl, ?_, rfl, others, ?_⟩, fit⟩
    · rw [holds_takenBy different, held]
    · rw [none]
      rfl
  | false =>
    -- A newer slot is taken over, and this one stays as it is.
    have some : isOpen newer d = true := by simpa using latest
    rw [some, if_pos rfl, if_neg Bool.false_ne_true]
    refine ⟨⟨takeOver entry newer, slot, older, rfl, held, filled, ?_, ?_⟩,
      h.fits⟩
    · rw [any_holds_takeOver different, others]
    · rw [isOpen_takeOver, some]
      rfl

end

/-- When a method gets its place, it fills the latest slot for its name and
signature. -/
theorem tracks_place (others : slots.any (·.holds d.method) = false) :
    Tracks (place slots d) d d true := by
  refine ⟨?_, d.fits_self⟩
  rw [place]
  split
  · refine ⟨[], { occupant := d }, slots, rfl, ?_, rfl, rfl, rfl⟩
    simp [holds]
  · next taken =>
    -- The first slot for the name and signature is taken over, and the slots
    -- before it are others.
    have there : isOpen slots d = true := by
      by_contra missing
      exact taken (.inr missing)
    obtain ⟨slot, hslot⟩ := Option.isSome_iff_exists.mp
      ((List.find?_isSome (p := fun slot : Slot => slot.occupant.fits d)).mpr
        (List.any_eq_true.mp there))
    obtain ⟨fits, newer, older, rfl, unfit⟩ :=
      List.find?_eq_some_iff_append.mp hslot
    have none : isOpen newer d = false := by simpa [isOpen] using unfit
    have free : newer.any (·.holds d.method) = false := by
      rw [List.any_append, Bool.or_eq_false_iff] at others
      exact others.1
    rw [takeOver_append, none, if_neg Bool.false_ne_true, takeOver, if_pos fits]
    refine ⟨newer, slot.takenBy d, older, rfl, ?_, rfl, free, by rw [none]; rfl⟩
    simp [holds, takenBy]

/-! ### The slots of a type -/

/-- Who fills a slot after further methods have got their places, if the slot
was the latest for its name and signature. -/
def filler (d : MethodEntry) (occupant : MethodEntry) :
    List MethodEntry → MethodEntry
  | [] => occupant
  | entry :: rest =>
      if entry.fits d then
        if entry.opens then occupant else filler d entry rest
      else filler d occupant rest

variable {above below : List MethodEntry}

theorem filler_mem : filler d occupant below ∈ occupant :: below := by
  induction below generalizing occupant with
  | nil => exact List.mem_singleton_self occupant
  | cons entry rest ih =>
    rw [filler]
    split
    · split
      · exact List.mem_cons_self
      · exact List.mem_cons_of_mem occupant ih
    · have among : filler d occupant rest ∈ occupant :: rest := ih
      rcases List.mem_cons.mp among with same | later
      · rw [same]
        exact List.mem_cons_self
      · exact List.mem_cons_of_mem occupant (List.mem_cons_of_mem entry later)

/-- A slot that is not the latest for its name and signature is not taken
over. -/
theorem Tracks.foldl_place (h : Tracks slots d occupant false)
    (different : ∀ entry ∈ below, entry.method ≠ d.method) :
    Tracks (below.foldl place slots) d occupant false := by
  induction below generalizing slots with
  | nil => exact h
  | cons entry rest ih =>
    obtain ⟨first, others⟩ := List.forall_mem_cons.mp different
    refine ih ?_ others
    cases fit : entry.fits d with
    | false => exact h.place_of_not_fits first fit
    | true =>
      cases opens : entry.opens with
      | true => exact h.place_of_opens first fit opens
      | false => exact h.place_of_fits first fit opens

/-- The latest slot is filled by those who take it over, until a newer one is
opened. -/
theorem Tracks.occupant?_foldl_place (h : Tracks slots d occupant true)
    (different : ∀ entry ∈ below, entry.method ≠ d.method) :
    occupant? (below.foldl place slots) d.method
      = some (filler d occupant below) := by
  induction below generalizing slots occupant with
  | nil => exact h.occupant?_eq
  | cons entry rest ih =>
    obtain ⟨first, others⟩ := List.forall_mem_cons.mp different
    rw [List.foldl_cons, filler]
    cases fit : entry.fits d with
    | false => exact ih (h.place_of_not_fits first fit) others
    | true =>
      cases opens : entry.opens with
      -- Once a newer slot is opened, the occupant stays.
      | true =>
        exact ((h.place_of_opens first fit opens).foldl_place
          others).occupant?_eq
      | false => exact ih (h.place_of_fits first fit opens) others

/-- Who fills the slot of a method in the end. -/
theorem occupant?_layOut (earlier : ∀ entry ∈ above, entry.method ≠ d.method)
    (later : ∀ entry ∈ below, entry.method ≠ d.method) :
    occupant? (layOut (above ++ d :: below)) d.method
      = some (filler d d below) := by
  have free := any_holds_layOut earlier
  rw [layOut, List.foldl_append, List.foldl_cons]
  exact (tracks_place free).occupant?_foldl_place later

/-! ### Searching without slots -/

/-- No slot that is opened for the name and signature of a method is taken over
further below. -/
def OpensLast (d : MethodEntry) (below : List MethodEntry) : Prop :=
  below.Pairwise fun entry other =>
    entry.fits d = true → other.fits d = true → entry.opens = true →
    other.opens = true

theorem getD_find?_reverse_cons {p : MethodEntry → Bool} :
    ((entry :: below).reverse.find? p).getD occupant
      = (below.reverse.find? p).getD (if p entry then entry else occupant) := by
  rw [List.reverse_cons, List.find?_append, Option.getD_or,
    List.find?_singleton]
  split <;> rfl

/-- A method that the search passes by opens a slot, if it has the name and
signature. -/
theorem opens_of_find?_reverse_eq_none
    (missed : below.reverse.find? d.reuses = none) :
    ∀ entry ∈ below, entry.fits d = true → entry.opens = true := by
  intro entry hentry fit
  have passed := List.find?_eq_none.mp missed entry
    (List.mem_reverse.mpr hentry)
  simpa [MethodEntry.reuses, fit] using passed

/-- Where slots stay as they are opened, the search meets whoever fills the
slot. -/
theorem filler_eq (h : OpensLast d below) :
    filler d occupant below = (below.reverse.find? d.reuses).getD occupant := by
  induction below generalizing occupant with
  | nil => rfl
  | cons entry rest ih =>
    obtain ⟨first, others⟩ := List.pairwise_cons.mp h
    rw [getD_find?_reverse_cons, filler]
    cases fit : entry.fits d with
    | false =>
      have passed : d.reuses entry = false := by
        rw [MethodEntry.reuses, fit]; rfl
      rw [passed]
      exact ih others
    | true =>
      cases opens : entry.opens with
      | true =>
        have passed : d.reuses entry = false := by
          rw [MethodEntry.reuses, opens, fit]; rfl
        -- What comes after a slot that is opened opens slots, and the search
        -- passes it by.
        have missed : rest.reverse.find? d.reuses = none := by
          refine List.find?_eq_none.mpr fun other hother => ?_
          have below := first other (List.mem_reverse.mp hother) fit
          simpa [MethodEntry.reuses] using fun fit' => below fit' opens
        rw [passed, missed]
        rfl
      | false =>
        have met : d.reuses entry = true := by
          rw [MethodEntry.reuses, opens, fit]; rfl
        rw [met]
        exact ih others

/-- Where the search meets whoever fills the slot, slots stay as they are
opened. -/
theorem opensLast_of_filler_eq (distinct : (occupant :: below).Nodup)
    (same :
      filler d occupant below = (below.reverse.find? d.reuses).getD occupant) :
    OpensLast d below := by
  induction below generalizing occupant with
  | nil => exact .nil
  | cons entry rest ih =>
    obtain ⟨fresh, distinct'⟩ := List.nodup_cons.mp distinct
    have distinct'' : (occupant :: rest).Nodup :=
      List.nodup_cons.mpr ⟨fun h => fresh (List.mem_cons_of_mem _ h),
        distinct'.of_cons⟩
    rw [getD_find?_reverse_cons, filler] at same
    -- Each method either has another name or signature, opens a slot, or takes
    -- over the latest.
    cases fit : entry.fits d with
    | false =>
      have passed : d.reuses entry = false := by
        rw [MethodEntry.reuses, fit]; rfl
      rw [fit, passed] at same
      exact .cons (fun _ _ h => absurd h (by simp [fit])) (ih distinct'' same)
    | true =>
      cases opens : entry.opens with
      | true =>
        have passed : d.reuses entry = false := by
          rw [MethodEntry.reuses, opens, fit]; rfl
        rw [fit, passed, opens] at same
        -- What the search meets below is not who fills the slot.
        have missed : rest.reverse.find? d.reuses = none := by
          cases met : rest.reverse.find? d.reuses with
          | none => rfl
          | some other =>
            rw [met] at same
            have among := List.mem_reverse.mp (List.mem_of_find?_eq_some met)
            have equal : occupant = other := same
            rw [← equal] at among
            exact absurd (List.mem_cons_of_mem _ among) fresh
        have others := opens_of_find?_reverse_eq_none missed
        refine .cons (fun other hother _ fit' _ => others other hother fit') ?_
        exact List.pairwise_of_forall_mem_list fun _ _ other hother _ fit' _ =>
          others other hother fit'
      | false =>
        have met : d.reuses entry = true := by
          rw [MethodEntry.reuses, opens, fit]; rfl
        rw [fit, opens, met] at same
        exact .cons (fun _ _ _ _ h => absurd h (by simp [opens]))
          (ih distinct' same)

/-- The search meets whoever fills the slot of the declaration in the end if and
only if no slot that is opened below the declaration, for its name and
signature, is taken over. -/
theorem occupant?_layOut_eq_iff
    (distinct : ((above ++ d :: below).map MethodEntry.method).Nodup) :
    occupant? (layOut (above ++ d :: below)) d.method = some (d.lastReuse below)
      ↔ OpensLast d below := by
  obtain ⟨earlier, later⟩ := MethodEntry.ne_of_nodup distinct
  rw [occupant?_layOut earlier later, Option.some.injEq]
  have below' : (d :: below).Nodup :=
    (List.nodup_append.mp (List.Nodup.of_map _ distinct)).2.1
  exact ⟨opensLast_of_filler_eq below', filler_eq⟩

end Slot

end CliMetadata
