import CliMetadata.CompressedInteger

/-!
# The blob heap

Signatures and attribute values live in one run of bytes, each behind its length
as a compressed integer, and rows refer to them by the index of that length.
The heap starts with a zero byte, so that index zero is the empty blob.
`BlobHeap.get` reads a blob; `BlobHeap.Builder` lays out a heap and gives equal
blobs equal indices.
-/

namespace CliMetadata

/-- A heap of blobs. -/
structure BlobHeap where
  bytes : Array UInt8

namespace BlobHeap

/-- The heap in the given bytes, which must start with the empty blob. -/
def ofBytes (bytes : Array UInt8) : Except Error BlobHeap :=
  if bytes[0]? = some 0 then .ok ⟨bytes⟩ else .error (.malformed .blobHeap)

/-- Takes a blob behind its length. -/
def entry : Decoder (List UInt8) := do
  let length ← CompressedInteger.decode
  Decoder.block length.toNat

/-- The blob that starts at an index. -/
def get (heap : BlobHeap) (index : UInt32) : Except Error (List UInt8) :=
  if index.toNat < heap.bytes.size then
    (entry.run (heap.bytes.extract index.toNat heap.bytes.size).toList).map
      Prod.fst
  else .error .outOfBounds

/-- A heap under construction: its bytes, and the blobs added with their
indices, the latest first. -/
structure Builder where
  bytes : Array UInt8 := #[0]
  entries : List (List UInt8 × UInt32) := []

namespace Builder

/-- The index of a blob, if it is in the heap.  The empty blob always is. -/
def indexOf? (heap : Builder) (blob : List UInt8) : Option UInt32 :=
  if blob.isEmpty then some 0 else heap.entries.lookup blob

/-- Adds a blob unless it is there already, and gives its index. -/
def add (heap : Builder) (blob : List UInt8) : UInt32 × Builder :=
  match heap.indexOf? blob with
  | some index => (index, heap)
  | none =>
      let index := UInt32.ofNat heap.bytes.size
      (index,
        { bytes := heap.bytes ++ (CompressedInteger.encodeLength blob ++
          blob).toArray
          entries := (blob, index) :: heap.entries })

end Builder

end BlobHeap

end CliMetadata
