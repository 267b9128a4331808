import CliMetadata.Bytes

/-!
# The string heap

Names live in one run of bytes, each in UTF-8 and closed by a zero byte, and
rows refer to them by the index of their first byte.  The heap starts with a
zero byte, so that index zero is the empty string.  `StringHeap.get` reads a
name; `StringHeap.Builder` lays out a heap and gives equal strings equal
indices.
-/

namespace CliMetadata

/-- A heap of names. -/
structure StringHeap where
  bytes : Array UInt8

namespace StringHeap

/-- The heap in the given bytes, which must start with the empty string. -/
def ofBytes (bytes : Array UInt8) : Except Error StringHeap :=
  if bytes[0]? = some 0 then .ok ⟨bytes⟩ else .error (.malformed .stringHeap)

/-- The bytes from `index` up to the next zero byte, if there is one. -/
def terminated? (bytes : Array UInt8) (index : Nat) : Option (List UInt8) :=
  if h : index < bytes.size then
    if bytes[index] = 0 then some []
    else (terminated? bytes (index + 1)).map (bytes[index] :: ·)
  else none
termination_by bytes.size - index

/-- The name that starts at an index. -/
def get (heap : StringHeap) (index : UInt32) : Except Error String :=
  if index.toNat < heap.bytes.size then
    match (terminated? heap.bytes index.toNat).map Utf8.decode with
    | some (.ok text) => .ok text
    | _ => .error (.malformed (.heapString index))
  else .error .outOfBounds

/-- A heap under construction: its bytes, and the strings added with their
indices, the latest first. -/
structure Builder where
  bytes : Array UInt8 := #[0]
  entries : List (String × UInt32) := []

namespace Builder

/-- The index of a string, if it is in the heap.  The empty string always is. -/
def indexOf? (heap : Builder) (text : String) : Option UInt32 :=
  if text.isEmpty then some 0 else heap.entries.lookup text

/-- Adds a string unless it is there already, and gives its index. -/
def add (heap : Builder) (text : String) : UInt32 × Builder :=
  match heap.indexOf? text with
  | some index => (index, heap)
  | none =>
      let index := UInt32.ofNat heap.bytes.size
      (index,
        { bytes := (heap.bytes ++ (Utf8.encode text).toArray).push 0
          entries := (text, index) :: heap.entries })

end Builder

end StringHeap

end CliMetadata
