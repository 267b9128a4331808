import CliMetadata.Proofs.Heap.Storage
import Mathlib.Data.List.TakeWhile

/-!
# Which indices heaps give

A heap gives an item the index that it has already, or the next one behind all
bytes.  An index is therefore never given twice to different items
(`Layout.IsDistinct`), stays with its item whatever is added later, and nothing
has an index that was not added (`Layout.indexOf?_addEach_of_mem`,
`Layout.indexOf?_addEach_of_notMem`).  One item needs no adding: the empty one
has the index zero.

As in the theory of storage, both heaps are taken as layouts.  For each of them
this is put together with what is read at an index.  A string may hold the
character that closes it; what is read is then the part before it
(`StringHeap.beforeZero`).  A blob is read as it is, whatever the width of the
length in front of it, if its length can be written at all.  The results are
`StringHeap.Builder.keeps_addEach` and `BlobHeap.Builder.keepsBlobs_addEach`.
-/

namespace CliMetadata

/-! ### Adding in turn -/

/-- Adds items one after the other.  What comes out are the items with the
indices that they were given, and the heap in the end. -/
def addEach {α σ : Type} (add : σ → α → UInt32 × σ) (heap : σ) :
    List α → List (α × UInt32) × σ
  | [] => ([], heap)
  | a :: rest =>
      let added := add heap a
      let others := addEach add added.2 rest
      ((a, added.1) :: others.1, others.2)

section
variable {α σ τ : Type} {add : σ → α → UInt32 × σ} {add' : τ → α → UInt32 × τ}

@[simp]
theorem map_fst_addEach (heap : σ) (items : List α) :
    (addEach add heap items).1.map Prod.fst = items := by
  induction items generalizing heap with
  | nil => rfl
  | cons a rest ih => simp [addEach, ih]

/-- Heaps of which one shows the other give the same indices and go on to show
it. -/
theorem addEach_view {view : σ → τ}
    (alike : ∀ heap a, add' (view heap) a
      = ((add heap a).1, view (add heap a).2))
    (heap : σ) (items : List α) :
    addEach add' (view heap) items =
      ((addEach add heap items).1, view (addEach add heap items).2) := by
  induction items generalizing heap with
  | nil => rfl
  | cons a rest ih =>
    rw [addEach, alike, ih]
    rfl

end

/-- Items are told by indices that they were given: the empty item by zero, no
two of the others by one index, each is found at its index, and nothing else is
found. -/
structure AreTold {α : Type} (empty : α) (indexOf? : α → Option UInt32)
    (items : List α) (given : List (α × UInt32)) : Prop where
  items_eq : given.map Prod.fst = items
  index_eq_zero : ∀ entry ∈ given, entry.1 = empty → entry.2 = 0
  index_eq_iff : ∀ entry ∈ given, ∀ other ∈ given,
    entry.1 ≠ empty → other.1 ≠ empty →
    (entry.2 = other.2 ↔ entry.1 = other.1)
  indexOf?_given : ∀ entry ∈ given, indexOf? entry.1 = some entry.2
  indexOf?_empty : indexOf? empty = some 0
  indexOf?_missing : ∀ a, a ≠ empty → a ∉ items → indexOf? a = none

namespace Layout

variable {α : Type} [BEq α] {written : α → List UInt8} {empty : α}
  {layout later : Layout α} {a b : α} {index : UInt32}

/-- The index of an item, if it is in the heap.  The empty item always is. -/
def indexOf? (empty : α) (layout : Layout α) (a : α) : Option UInt32 :=
  if a == empty then some 0 else layout.entries.lookup a

/-- Adds an item unless it is there already, and gives its index. -/
def add (written : α → List UInt8) (empty : α) (layout : Layout α) (a : α) :
    UInt32 × Layout α :=
  match layout.indexOf? empty a with
  | some index => (index, layout)
  | none => (UInt32.ofNat layout.bytes.size, layout.append written a)

/-! ### What is added -/

theorem add_of_some (known : layout.indexOf? empty a = some index) :
    layout.add written empty a = (index, layout) := by
  rw [add, known]

theorem add_of_none (new : layout.indexOf? empty a = none) :
    layout.add written empty a = (UInt32.ofNat layout.bytes.size,
      layout.append written a) := by
  rw [add, new]

theorem precedes_add (layout : Layout α) (a : α) :
    layout.Precedes written (layout.add written empty a).2 := by
  cases known : layout.indexOf? empty a with
  | some index =>
    rw [add_of_some known]
    exact .refl
  | none =>
    rw [add_of_none known]
    exact .single ⟨a, rfl⟩

theorem precedes_addEach (layout : Layout α) (items : List α) :
    layout.Precedes written (addEach (add written empty) layout items).2 := by
  induction items generalizing layout with
  | nil => exact .refl
  | cons a rest ih => exact (precedes_add layout a).trans (ih _)

/-! ### Which indices are found -/

variable [LawfulBEq α]

@[simp]
theorem indexOf?_empty (layout : Layout α) :
    layout.indexOf? empty empty = some 0 := by
  rw [indexOf?, if_pos (BEq.refl empty)]

/-- Adding an item tells its index and changes no other one. -/
@[simp]
theorem indexOf?_add (layout : Layout α) (a b : α) :
    (layout.add written empty a).2.indexOf? empty b =
      if b == a then some (layout.add written empty a).1
        else layout.indexOf? empty b := by
  cases known : layout.indexOf? empty a with
  | some index =>
    rw [add_of_some known]
    split
    · next same => rw [eq_of_beq same, known]
    · rfl
  | none =>
    rw [add_of_none known]
    -- An item that is not in the heap is not the empty one.
    have nonempty : ¬ (a == empty) = true := by
      intro same
      rw [eq_of_beq same, indexOf?_empty] at known
      cases known
    split
    · next same => rw [eq_of_beq same, indexOf?, if_neg nonempty, append,
        List.lookup_cons_self]
    · next other =>
      rw [indexOf?, append, List.lookup_cons, Bool.eq_false_iff.mpr other]
      rfl

/-- An index stays with its item. -/
theorem indexOf?_addEach_of_some (known : layout.indexOf? empty a = some index)
    (items : List α) :
    (addEach (add written empty) layout items).2.indexOf? empty a
      = some index := by
  induction items generalizing layout with
  | nil => exact known
  | cons b rest ih =>
    refine ih ?_
    rw [indexOf?_add]
    split
    · next same => rw [eq_of_beq same] at known; rw [add_of_some known]
    · exact known

/-- What was given is the index of the item from then on. -/
theorem indexOf?_addEach_of_mem {items : List α} {entry : α × UInt32}
    (given : entry ∈ (addEach (add written empty) layout items).1) :
    (addEach (add written empty) layout items).2.indexOf? empty entry.1
      = some entry.2 := by
  induction items generalizing layout with
  | nil => cases given
  | cons b rest ih =>
    obtain rfl | given := List.mem_cons.mp given
    · refine indexOf?_addEach_of_some ?_ rest
      rw [indexOf?_add, if_pos (BEq.refl b)]
    · exact ih given

/-- What was not added is in the heap only if it was there before. -/
theorem indexOf?_addEach_of_notMem {items : List α} (missing : a ∉ items) :
    (addEach (add written empty) layout items).2.indexOf? empty a
      = layout.indexOf? empty a := by
  induction items generalizing layout with
  | nil => rfl
  | cons b rest ih =>
    rw [List.mem_cons, not_or] at missing
    obtain ⟨other, missing⟩ := missing
    refine (ih missing).trans ?_
    rw [indexOf?_add, if_neg fun same => other (eq_of_beq same)]

/-! ### Different items -/

section
omit [BEq α] [LawfulBEq α]

/-- Entries start inside the heap, and no two of them at one place. -/
structure IsDistinct (layout : Layout α) : Prop where
  inside : ∀ entry ∈ layout.entries, entry.2.toNat < layout.bytes.size
  eq_of_index_eq : ∀ entry ∈ layout.entries, ∀ other ∈ layout.entries,
    entry.2 = other.2 →
    entry = other

theorem IsDistinct.new : IsDistinct (α := α) ⟨#[0], []⟩ := ⟨nofun, nofun⟩

/-- A new entry starts behind all others. -/
theorem IsDistinct.append (h : layout.IsDistinct)
    (small : layout.bytes.size < 2 ^ 32) (some : written a ≠ []) :
    (layout.append written a).IsDistinct := by
  have index : (UInt32.ofNat layout.bytes.size).toNat = layout.bytes.size := by
    rw [UInt32.toNat_ofNat', Nat.mod_eq_of_lt small]
  have size : layout.bytes.size < (layout.append written a).bytes.size := by
    have longer := List.length_pos_iff.mpr some
    show layout.bytes.size < (layout.bytes ++ (written a).toArray).size
    rw [Array.size_append, List.size_toArray]
    exact Nat.lt_add_of_pos_right longer
  -- Everything that was stored begins before what is stored now.
  have behind : ∀ entry ∈ layout.entries,
      entry.2 ≠ UInt32.ofNat layout.bytes.size := by
    intro entry member same
    have := h.inside entry member
    rw [same, index] at this
    exact Nat.lt_irrefl _ this
  constructor
  · intro entry member
    obtain rfl | member := List.mem_cons.mp member
    · show (UInt32.ofNat layout.bytes.size).toNat < _
      rwa [index]
    · exact Nat.lt_trans (h.inside entry member) size
  · intro entry member other member' same
    obtain rfl | member := List.mem_cons.mp member
    · obtain rfl | member' := List.mem_cons.mp member'
      · rfl
      · exact absurd same.symm (behind other member')
    · obtain rfl | member' := List.mem_cons.mp member'
      · exact absurd same (behind entry member)
      · exact h.eq_of_index_eq entry member other member' same

/-- Entries stay at different places as long as the heap has room. -/
theorem IsDistinct.of_precedes (h : layout.IsDistinct)
    (grown : layout.Precedes written later) (small : later.bytes.size < 2 ^ 32)
    (some : ∀ a, written a ≠ []) : later.IsDistinct := by
  induction grown with
  | refl => exact h
  | @tail middle last before added ih =>
    obtain ⟨a, rfl⟩ := added
    have fits : middle.bytes.size < 2 ^ 32 :=
      Nat.lt_of_le_of_lt (bytes_append written middle a).length_le small
    exact (ih fits).append fits (some a)

end

theorem mem_entries_of_lookup (known : layout.entries.lookup a = some index) :
    (a, index) ∈ layout.entries := by
  obtain ⟨front, back, split, -⟩ := List.lookup_eq_some_iff.mp known
  rw [split]
  exact List.mem_append_right front List.mem_cons_self

/-- Items that are not empty have one index only if they are one item. -/
theorem IsDistinct.eq_of_indexOf? (h : layout.IsDistinct) (nonempty : a ≠ empty)
    (nonempty' : b ≠ empty) (known : layout.indexOf? empty a = some index)
    (known' : layout.indexOf? empty b = some index) : a = b := by
  rw [indexOf?, if_neg fun same => nonempty (eq_of_beq same)] at known
  rw [indexOf?, if_neg fun same => nonempty' (eq_of_beq same)] at known'
  have same := h.eq_of_index_eq _ (mem_entries_of_lookup known) _
    (mem_entries_of_lookup known') rfl
  exact congrArg Prod.fst same

/-- What is added to a heap that has room for it is told by the indices that it
is given. -/
theorem areTold_addEach (some : ∀ a, written a ≠ []) (items : List α)
    (small : (addEach (add written empty) ⟨#[0], []⟩ items).2.bytes.size
      < 2 ^ 32) :
    AreTold empty ((addEach (add written empty) ⟨#[0], []⟩ items).2.indexOf?
      empty) items (addEach (add written empty) ⟨#[0], []⟩ items).1 where
  items_eq := map_fst_addEach _ items
  index_eq_zero entry given same := by
    have known := indexOf?_addEach_of_mem given
    rw [same, Layout.indexOf?_empty] at known
    exact (Option.some.inj known).symm
  index_eq_iff entry given other given' nonempty nonempty' := by
    have known := indexOf?_addEach_of_mem given
    have known' := indexOf?_addEach_of_mem given'
    constructor
    · -- Two items at one index are one item.
      intro same
      rw [← same] at known'
      have distinct := IsDistinct.new.of_precedes
        (precedes_addEach _ items) small some
      exact distinct.eq_of_indexOf? nonempty nonempty' known known'
    · -- An item has one index.
      intro same
      rw [same, known'] at known
      exact (Option.some.inj known).symm
  indexOf?_given entry given := indexOf?_addEach_of_mem given
  indexOf?_empty := Layout.indexOf?_empty _
  indexOf?_missing a nonempty missing := by
    rw [indexOf?_addEach_of_notMem missing, indexOf?,
      if_neg fun same => nonempty (eq_of_beq same)]
    rfl

end Layout

/-! ### Strings -/

namespace StringHeap

/-- The text up to its first zero character, which is all that is read of it. -/
def beforeZero (text : String) :
    String := String.ofList (text.toList.takeWhile (· ≠ '\x00'))

theorem beforeZero_of_notMem {text : String} (plain : '\x00' ∉ text.toList) :
    beforeZero text = text := by
  rw [beforeZero, List.takeWhile_eq_self_iff.mpr, String.ofList_toList]
  intro c member
  exact decide_eq_true fun zero => plain (zero ▸ member)

theorem zero_notMem_beforeZero (text : String) :
    '\x00' ∉ (beforeZero text).toList := by
  intro member
  rw [beforeZero, String.toList_ofList] at member
  simpa using List.mem_takeWhile_imp member

theorem flatMap_takeWhile_isPrefix (chars : List Char) :
    (chars.takeWhile (· ≠ '\x00')).flatMap String.utf8EncodeChar ++ [0] <+:
      chars.flatMap String.utf8EncodeChar ++ [0] := by
  induction chars with
  | nil => exact List.prefix_refl _
  | cons c rest ih =>
    by_cases zero : c = '\x00'
    · -- The character zero is written as the byte that closes a text.
      rw [List.takeWhile_cons_of_neg (by simpa using zero), zero]
      exact List.prefix_append [0] _
    · rw [List.takeWhile_cons_of_pos (by simpa using zero), List.flatMap_cons,
        List.flatMap_cons,
        List.append_assoc, List.append_assoc, List.prefix_append_right_inj]
      exact ih

/-- A text is written with the part before its first zero character in front,
closed like a text. -/
theorem written_beforeZero_isPrefix (text : String) :
    written (beforeZero text) <+: written text := by
  rw [written, written, Utf8.encode, Utf8.encode, beforeZero,
    String.toList_ofList]
  exact flatMap_takeWhile_isPrefix text.toList

/-- What is read where a text is stored is the part before its first zero
character. -/
theorem get_of_storedAt_written {bytes : Array UInt8} {index : UInt32}
    {text : String} (h : StoredAt bytes index.toNat (written text)) :
    (StringHeap.mk bytes).get index = .ok (beforeZero text) :=
  get_of_storedAt (zero_notMem_beforeZero text)
    ((written_beforeZero_isPrefix text).trans h)

namespace Builder

@[simp]
theorem layout_indexOf? (heap : Builder) (text : String) :
    heap.layout.indexOf? "" text = heap.indexOf? text := by
  have empty : (text == "") = text.isEmpty := by
    rw [Bool.eq_iff_iff, beq_iff_eq, String.isEmpty_iff]
  rw [Layout.indexOf?, indexOf?, empty]
  rfl

@[simp]
theorem layout_add (heap : Builder) (text : String) :
    heap.layout.add written "" text
      = ((heap.add text).1, (heap.add text).2.layout) := by
  cases known : heap.indexOf? text with
  | some index =>
    rw [Layout.add_of_some ((layout_indexOf? heap text).trans known), add,
      known]
  | none =>
    rw [Layout.add_of_none ((layout_indexOf? heap text).trans known), add,
      known]
    simp [layout, Layout.append, written]

/-- What a heap keeps of the strings that were added to it.  It is a heap, they
are told by the indices that they were given, and each is read at its index up
to its first zero character, which is all of it if it has none. -/
structure Keeps (heap : Builder) (texts : List String)
    (given : List (String × UInt32)) : Prop where
  isHeap : ofBytes heap.bytes = .ok ⟨heap.bytes⟩
  get_given : ∀ entry ∈ given, (StringHeap.mk heap.bytes).get entry.2
    = .ok (beforeZero entry.1)
  get_plain : ∀ entry ∈ given, '\x00' ∉ entry.1.toList →
    (StringHeap.mk heap.bytes).get entry.2 = .ok entry.1
  areTold : AreTold "" heap.indexOf? texts given

/-- **The string heap keeps every entry.**  Whatever strings are added one after
the other: as long as the heap has room for them, it keeps all of them under the
indices that they were given. -/
theorem keeps_addEach (texts : List String)
    (small : (addEach add {} texts).2.bytes.size < 2 ^ 32) :
    (addEach add {} texts).2.Keeps texts (addEach add {} texts).1 := by
  -- The builder adds as its layout does.
  have view : addEach (Layout.add written "") ⟨#[0], []⟩ texts =
      ((addEach add {} texts).1, (addEach add {} texts).2.layout) :=
      addEach_view layout_add {} texts
  have room : (addEach (Layout.add written "") ⟨#[0], []⟩ texts).2.bytes.size
      < 2 ^ 32 := by
    rw [view]
    exact small
  -- Nothing before the bytes are too many overwrites anything.
  have sound : (addEach add {} texts).2.layout.IsSound written := by
    have :=
      Layout.IsSound.new.of_precedes (Layout.precedes_addEach _ texts) room
    rwa [view] at this
  -- Each text is told by the index that it was given.
  have told : AreTold "" (addEach add {} texts).2.indexOf? texts
      (addEach add {} texts).1 := by
    have := Layout.areTold_addEach (fun _ => by simp [written]) texts room
    rwa [view, funext (layout_indexOf? (addEach add {} texts).2)] at this
  have get_given : ∀ entry ∈ (addEach add {} texts).1,
      (StringHeap.mk (addEach add {} texts).2.bytes).get entry.2
        = .ok (beforeZero entry.1) :=
    fun entry given =>
      get_of_storedAt_written (storedAt_of_indexOf? sound
        (told.indexOf?_given entry given))
  refine ⟨if_pos sound.start.head_eq, get_given,
    fun entry given plain => ?_, told⟩
  rw [get_given entry given, beforeZero_of_notMem plain]

/-- A string of two bytes for one character, no string, one that holds the
character zero, one that is there already, and the one that was read of the
third. -/
theorem mixedSample_kept :
    let texts := ["né", "", "a\x00b", "né", "a"]
    let heap := (addEach add {} texts).2
    heap.bytes.size < 2 ^ 32 ∧
      heap.Keeps texts [("né", 1), ("", 0), ("a\x00b", 5), ("né", 1),
        ("a", 9)] := by
  intro texts heap
  have small : heap.bytes.size < 2 ^ 32 := by decide +kernel
  have given : (addEach add {} texts).1 =
      [("né", 1), ("", 0), ("a\x00b", 5), ("né", 1),
        ("a", 9)] := by decide +kernel
  refine ⟨small, ?_⟩
  rw [← given]
  exact keeps_addEach texts small

end Builder

end StringHeap

/-! ### Blobs -/

namespace BlobHeap

/-- No blob is written as nothing: its length comes first. -/
theorem written_ne_nil (blob : List UInt8) : written blob ≠ [] :=
  List.append_ne_nil_of_left_ne_nil (CompressedInteger.encode_ne_nil _) blob

namespace Builder

@[simp]
theorem layout_indexOf? (heap : Builder) (blob : List UInt8) :
    heap.layout.indexOf? [] blob = heap.indexOf? blob := by
  have empty : (blob == []) = blob.isEmpty := by
    rw [Bool.eq_iff_iff, beq_iff_eq, List.isEmpty_iff]
  rw [Layout.indexOf?, indexOf?, empty]
  rfl

@[simp]
theorem layout_add (heap : Builder) (blob : List UInt8) :
    heap.layout.add written [] blob
      = ((heap.add blob).1, (heap.add blob).2.layout) := by
  cases known : heap.indexOf? blob with
  | some index =>
    rw [Layout.add_of_some ((layout_indexOf? heap blob).trans known), add,
      known]
  | none =>
    rw [Layout.add_of_none ((layout_indexOf? heap blob).trans known), add,
      known]
    rfl

/-- What a heap keeps of the blobs that were added to it.  It is a heap, they
are told by the indices that they were given, and each is read at its index. -/
structure Keeps (heap : Builder) (blobs : List (List UInt8))
    (given : List (List UInt8 × UInt32)) :
    Prop where
  isHeap : ofBytes heap.bytes = .ok ⟨heap.bytes⟩
  get_given : ∀ entry ∈ given, (BlobHeap.mk heap.bytes).get entry.2
    = .ok entry.1
  areTold : AreTold [] heap.indexOf? blobs given

/-- **The blob heap keeps every entry.**  Whatever blobs are added one after the
other: as long as the heap has room for them and their lengths can be written,
it keeps all of them under the indices that they were given. -/
theorem keepsBlobs_addEach (blobs : List (List UInt8))
    (short : ∀ blob ∈ blobs, blob.length < 2 ^ 29)
    (small : (addEach add {} blobs).2.bytes.size < 2 ^ 32) :
    (addEach add {} blobs).2.Keeps blobs (addEach add {} blobs).1 := by
  -- The builder adds as its layout does.
  have view : addEach (Layout.add written []) ⟨#[0], []⟩ blobs =
      ((addEach add {} blobs).1, (addEach add {} blobs).2.layout) :=
      addEach_view layout_add {} blobs
  have room : (addEach (Layout.add written []) ⟨#[0], []⟩ blobs).2.bytes.size
      < 2 ^ 32 := by
    rw [view]
    exact small
  have sound : (addEach add {} blobs).2.layout.IsSound written := by
    have :=
      Layout.IsSound.new.of_precedes (Layout.precedes_addEach _ blobs) room
    rwa [view] at this
  -- Each blob is told by the index that it was given.
  have told : AreTold [] (addEach add {} blobs).2.indexOf? blobs
      (addEach add {} blobs).1 := by
    have := Layout.areTold_addEach written_ne_nil blobs room
    rwa [view, funext (layout_indexOf? (addEach add {} blobs).2)] at this
  refine ⟨if_pos sound.start.head_eq, fun entry given => ?_, told⟩
  have added : entry.1 ∈ blobs := by
    rw [← told.items_eq]
    exact List.mem_map_of_mem given
  -- What is stored at an index is read back with its length.
  have stored := storedAt_of_indexOf? sound (told.indexOf?_given entry given)
  exact get_of_storedAt (Nat.le_of_lt_succ (short entry.1 added)) stored

/-- The longest blob whose length takes one byte and the shortest whose length
takes two, between them no blob, and in the end the first one again. -/
theorem edgeSample_kept :
    let long := List.replicate 127 7
    let longer := List.replicate 128 7
    let blobs := [long, [], longer, long]
    let heap := (addEach add {} blobs).2
    (∀ blob ∈ blobs, blob.length < 2 ^ 29) ∧ heap.bytes.size < 2 ^ 32 ∧
      heap.Keeps blobs [(long, 1), ([], 0), (longer, 129), (long, 1)] := by
  intro long longer blobs heap
  have short : ∀ blob ∈ blobs, blob.length < 2 ^ 29 := by decide +kernel
  have small : heap.bytes.size < 2 ^ 32 := by decide +kernel
  have given : (addEach add {} blobs).1 =
      [(long, 1), ([], 0), (longer, 129), (long, 1)] := by decide +kernel
  refine ⟨short, small, ?_⟩
  rw [← given]
  exact keepsBlobs_addEach blobs short small

end Builder

end BlobHeap

end CliMetadata
