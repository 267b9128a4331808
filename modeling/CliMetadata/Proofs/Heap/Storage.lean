import CliMetadata.Heap.Blobs
import CliMetadata.Heap.Strings
import CliMetadata.Proofs.Signature.RoundTrip
import CliMetadata.Proofs.Text.Utf8
import Mathlib.Data.List.Infix
import Mathlib.Logic.Relation

/-!
# What heaps store

A heap under construction only grows at its end, and what it remembers of an
entry is an index.  The bytes of an entry stand where they were put, whatever is
added later (`StoredAt.mono`), and so all that is remembered is stored
(`Layout.IsSound`).

Strings and blobs differ in how an entry is written (`StringHeap.written`,
`BlobHeap.written`) and in nothing else, so that both heaps are taken as layouts
of entries of some type.  An index has 32 bits: a layout is sound as long as it
has no more bytes than these can count.
-/

namespace CliMetadata

/-! ### Places -/

/-- The bytes of an item stand at an index. -/
def StoredAt (bytes : Array UInt8) (index : Nat) (item : List UInt8) : Prop :=
  item <+: bytes.toList.drop index

namespace StoredAt

variable {bytes later : Array UInt8} {index : Nat} {item : List UInt8}

/-- What is put at the end does not move what is stored. -/
theorem mono (h : StoredAt bytes index item)
    (grown : bytes.toList <+: later.toList) :
    StoredAt later index item :=
  List.IsPrefix.trans h (grown.drop index)

/-- What is put at the end is stored at the old size. -/
theorem append (bytes : Array UInt8) (item : List UInt8) :
    StoredAt (bytes ++ item.toArray) bytes.size item := by
  rw [StoredAt, Array.toList_append, ← Array.length_toList, List.drop_left]

/-- An item that has bytes starts within the heap. -/
theorem lt_size (h : StoredAt bytes index item) (some : item ≠ []) :
    index < bytes.size := by
  apply Nat.lt_of_not_le
  intro outside
  rw [StoredAt, List.drop_eq_nil_of_le (by rwa [Array.length_toList]),
    List.prefix_nil] at h
  exact some h

/-- What is stored at the start is what the heap starts with. -/
theorem head_eq {b : UInt8} (h : StoredAt bytes 0 (b :: item)) :
    bytes[0]? = some b := by
  obtain ⟨rest, split⟩ := h
  rw [List.drop_zero] at split
  rw [← Array.getElem?_toList, ← split]
  rfl

/-- An item is stored byte by byte. -/
theorem cons_iff {b : UInt8} (inside : index < bytes.size) :
    StoredAt bytes index (b :: item) ↔ b = bytes[index] ∧
    StoredAt bytes (index + 1) item := by
  have next : bytes.toList.drop index
      = bytes[index] :: bytes.toList.drop (index + 1) := by
    rw [List.drop_eq_getElem_cons (by rwa [Array.length_toList]),
      Array.getElem_toList]
  rw [StoredAt, next, List.cons_prefix_cons, StoredAt]

end StoredAt

/-! ### Layouts -/

/-- The bytes of a heap under construction, and its entries with their
indices. -/
structure Layout (α : Type) where
  bytes : Array UInt8
  entries : List (α × UInt32)

namespace Layout

variable {α : Type} {written : α → List UInt8} {layout later : Layout α}

/-- The layout with an entry put at the end. -/
def append (written : α → List UInt8) (layout : Layout α) (a : α) :
    Layout α where
  bytes := layout.bytes ++ (written a).toArray
  entries := (a, UInt32.ofNat layout.bytes.size) :: layout.entries

/-- Entries were put at the end of the first layout, and the second came out. -/
def Precedes (written : α → List UInt8) : Layout α → Layout α → Prop :=
  Relation.ReflTransGen fun layout later => ∃ a, later = layout.append written a

/-- The heap starts with a zero byte, and what it remembers is stored. -/
structure IsSound (written : α → List UInt8) (layout : Layout α) : Prop where
  start : StoredAt layout.bytes 0 [0]
  stored : ∀ entry ∈ layout.entries,
    StoredAt layout.bytes entry.2.toNat (written entry.1)

/-- A new heap is sound. -/
theorem IsSound.new : IsSound written ⟨#[0], []⟩ := by
  constructor
  · exact List.prefix_refl [0]
  · intro entry h
    cases h

theorem bytes_append (written : α → List UInt8) (layout : Layout α) (a : α) :
    layout.bytes.toList <+: (layout.append written a).bytes.toList := by
  rw [append, Array.toList_append]
  exact List.prefix_append _ _

/-- A layout only grows at its end. -/
theorem Precedes.bytes (h : layout.Precedes written later) :
    layout.bytes.toList <+: later.bytes.toList := by
  induction h with
  | refl => exact List.prefix_refl _
  | tail _ added ih =>
    obtain ⟨a, rfl⟩ := added
    exact ih.trans (bytes_append written _ a)

theorem Precedes.size_le (h : layout.Precedes written later) :
    layout.bytes.size ≤ later.bytes.size :=
  h.bytes.length_le

/-- An entry whose index has room in a word can be put at the end. -/
theorem IsSound.append (h : layout.IsSound written)
    (small : layout.bytes.size < 2 ^ 32) (a : α) :
    (layout.append written a).IsSound written := by
  have grown := bytes_append written layout a
  constructor
  · exact h.start.mono grown
  · intro entry member
    rcases List.mem_cons.mp member with rfl | member
    · show StoredAt _ (UInt32.ofNat layout.bytes.size).toNat (written a)
      rw [UInt32.toNat_ofNat', Nat.mod_eq_of_lt small]
      exact StoredAt.append layout.bytes (written a)
    · exact (h.stored entry member).mono grown

/-- Soundness is kept as long as the heap has room. -/
theorem IsSound.of_precedes (h : layout.IsSound written)
    (grown : layout.Precedes written later)
    (small : later.bytes.size < 2 ^ 32) : later.IsSound written := by
  induction grown with
  | refl => exact h
  | @tail middle last before added ih =>
    obtain ⟨a, rfl⟩ := added
    have fits : middle.bytes.size < 2 ^ 32 :=
      Nat.lt_of_le_of_lt (bytes_append written middle a).length_le small
    exact (ih fits).append fits a

/-- An entry that is looked up is stored. -/
theorem IsSound.storedAt [BEq α] [LawfulBEq α] (h : layout.IsSound written)
    {a : α} {index : UInt32} (known : layout.entries.lookup a = some index) :
    StoredAt layout.bytes index.toNat (written a) := by
  obtain ⟨front, back, split, -⟩ := List.lookup_eq_some_iff.mp known
  have member : (a, index) ∈ layout.entries := by
    rw [split]
    exact List.mem_append_right front List.mem_cons_self
  exact h.stored (a, index) member

end Layout

/-! ### Strings -/

namespace StringHeap

/-- The bytes of a string in the heap. -/
def written (text : String) : List UInt8 := Utf8.encode text ++ [0]

/-- The bytes before a zero byte are found. -/
theorem terminated?_of_storedAt {bytes : Array UInt8} {front : List UInt8}
    (none : 0 ∉ front) {index : Nat} (h : StoredAt bytes index (front ++ [0])) :
    terminated? bytes index = some front := by
  induction front generalizing index with
  | nil =>
    have inside : index < bytes.size := h.lt_size (by simp)
    obtain ⟨zero, -⟩ := (StoredAt.cons_iff inside).mp h
    rw [terminated?, dif_pos inside, if_pos zero.symm]
  | cons b front ih =>
    have inside : index < bytes.size := h.lt_size (by simp)
    obtain ⟨first, others⟩ := (StoredAt.cons_iff inside).mp h
    rw [List.mem_cons, not_or] at none
    rw [terminated?, dif_pos inside,
      if_neg (fun zero => none.1 (first.trans zero).symm),
      ih none.2 others, first, Option.map_some]

/-- A string without a zero character is read where it is stored. -/
theorem get_of_storedAt {bytes : Array UInt8} {index : UInt32} {text : String}
    (plain : '\x00' ∉ text.toList)
    (h : StoredAt bytes index.toNat (written text)) :
    (StringHeap.mk bytes).get index = .ok text := by
  simp [get, (h.lt_size (by simp [written])),
    terminated?_of_storedAt (Utf8.zero_notMem_encode plain) h]

namespace Builder

/-- The layout of a heap of strings. -/
def layout (heap : Builder) : Layout String := ⟨heap.bytes, heap.entries⟩

variable {heap : Builder} {text : String}

/-- A string that the heap has is stored. -/
theorem storedAt_of_indexOf? (h : heap.layout.IsSound written) {index : UInt32}
    (known : heap.indexOf? text = some index) :
    StoredAt heap.bytes index.toNat (written text) := by
  rw [indexOf?] at known
  split at known
  · next empty =>
    cases known
    rw [String.isEmpty_iff.mp empty]
    exact h.start
  · exact h.storedAt known

/-- A string is put at the end unless it is there. -/
theorem precedes_add (heap : Builder) (text : String) :
    heap.layout.Precedes written (heap.add text).2.layout := by
  rw [add]
  split
  · exact .refl
  · refine .single ⟨text, ?_⟩
    simp [layout, Layout.append, written]

/-- A string that was added is in the heap. -/
@[simp]
theorem indexOf?_add (heap : Builder) (text : String) :
    (heap.add text).2.indexOf? text = some (heap.add text).1 := by
  rw [add]
  split
  · assumption
  · next missing =>
    rw [indexOf?] at missing ⊢
    split at missing
    · cases missing
    · next nonempty => simp [nonempty, List.lookup_cons_self]

/-- A string without a zero character is read from later heaps at the index that
it was given. -/
theorem get_add {later : Builder}
    (built : (layout {}).Precedes written heap.layout)
    (grown : (heap.add text).2.layout.Precedes written later.layout)
    (small : later.bytes.size < 2 ^ 32) (plain : '\x00' ∉ text.toList) :
    (do (← ofBytes later.bytes).get (heap.add text).1) = .ok text := by
  have added := Layout.IsSound.new.of_precedes
    (built.trans (precedes_add heap text))
    (Nat.lt_of_le_of_lt grown.size_le small)
  have stored :=
    (storedAt_of_indexOf? added (indexOf?_add heap text)).mono grown.bytes
  have valid : later.bytes[0]? = some 0 :=
    (added.of_precedes grown small).start.head_eq
  rw [ofBytes, if_pos valid]
  exact get_of_storedAt plain stored

end Builder

end StringHeap

/-! ### Blobs -/

namespace BlobHeap

/-- The bytes of a blob in the heap. -/
def written (blob : List UInt8) :
    List UInt8 := CompressedInteger.encodeLength blob ++ blob

/-- A blob whose length can be written is read where it is stored. -/
theorem get_of_storedAt {bytes : Array UInt8} {index : UInt32}
    {blob : List UInt8} (short : IsWritableLength blob.length)
    (h : StoredAt bytes index.toNat (written blob)) :
    (BlobHeap.mk bytes).get index = .ok blob := by
  -- The length is read first, and then as many bytes.
  have taken : Decoder.Takes entry (written blob) blob := by
    refine (takes_encodeLength short).bind ?_
    rw [toNat_ofNat_of_isWritableLength short]
    exact Decoder.Takes.block blob
  have nonempty : written blob ≠ [] := by
    intro empty
    rw [empty] at taken
    cases taken []
  have inside := h.lt_size nonempty
  obtain ⟨rest, split⟩ := h
  -- The bytes from the index on begin with what was written.
  have bytesAt :
      (bytes.extract index.toNat bytes.size).toList = written blob ++ rest := by
    rw [split]
    simp
  rw [get, if_pos inside, bytesAt, taken rest]
  rfl

namespace Builder

/-- The layout of a heap of blobs. -/
def layout (heap : Builder) : Layout (List UInt8) := ⟨heap.bytes, heap.entries⟩

variable {heap : Builder} {blob : List UInt8}

/-- A blob that the heap has is stored. -/
theorem storedAt_of_indexOf? (h : heap.layout.IsSound written) {index : UInt32}
    (known : heap.indexOf? blob = some index) :
    StoredAt heap.bytes index.toNat (written blob) := by
  rw [indexOf?] at known
  split at known
  · next empty =>
    cases known
    rw [List.isEmpty_iff.mp empty]
    exact h.start
  · exact h.storedAt known

/-- A blob is put at the end unless it is there. -/
theorem precedes_add (heap : Builder) (blob : List UInt8) :
    heap.layout.Precedes written (heap.add blob).2.layout := by
  rw [add]
  split
  · exact .refl
  · exact .single ⟨blob, rfl⟩

/-- A blob that was added is in the heap. -/
@[simp]
theorem indexOf?_add (heap : Builder) (blob : List UInt8) :
    (heap.add blob).2.indexOf? blob = some (heap.add blob).1 := by
  rw [add]
  split
  · assumption
  · next missing =>
    rw [indexOf?] at missing ⊢
    split at missing
    · cases missing
    · next nonempty => simp [nonempty, List.lookup_cons_self]

/-- A blob whose length can be written is read from all later heaps at the index
that it was given. -/
theorem get_add {later : Builder}
    (built : (layout {}).Precedes written heap.layout)
    (grown : (heap.add blob).2.layout.Precedes written later.layout)
    (small : later.bytes.size < 2 ^ 32) (short : IsWritableLength blob.length) :
    (do (← ofBytes later.bytes).get (heap.add blob).1) = .ok blob := by
  have added := Layout.IsSound.new.of_precedes
    (built.trans (precedes_add heap blob))
    (Nat.lt_of_le_of_lt grown.size_le small)
  have stored :=
    (storedAt_of_indexOf? added (indexOf?_add heap blob)).mono grown.bytes
  have valid : later.bytes[0]? = some 0 :=
    (added.of_precedes grown small).start.head_eq
  rw [ofBytes, if_pos valid]
  exact get_of_storedAt short stored

end Builder

end BlobHeap

end CliMetadata
