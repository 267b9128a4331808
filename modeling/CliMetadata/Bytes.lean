import CliMetadata.Error

/-!
# Reading and writing bytes

A `Decoder` takes a value from the front of a list of bytes and leaves the rest;
it never looks at anything but the bytes it is given, so what it returns for a
prefix does not depend on what follows.  The primitive decoders are `byte`,
which takes one, `peek`, which looks at one, and `block`, which takes a given
number.  Words are stored with their least significant byte first:
`littleEndian` writes such a word, `word` reads it.
-/

namespace CliMetadata

/-- A step that reads a value from the front of the bytes. -/
abbrev Decoder (α : Type) := StateT (List UInt8) (Except Error) α

namespace Decoder

/-- Reports malformed bytes. -/
def malformed {α : Type} (what : Malformation) :
    Decoder α := throw (.malformed what)

/-- Takes the next byte. -/
def byte : Decoder UInt8
  | [] => .error .outOfBounds
  | b :: rest => .ok (b, rest)

/-- Looks at the next byte and leaves it. -/
def peek : Decoder UInt8
  | [] => .error .outOfBounds
  | b :: rest => .ok (b, b :: rest)

/-- Whether no byte is left. -/
def atEnd : Decoder Bool
  | bytes => .ok (bytes.isEmpty, bytes)

/-- How many bytes are left. -/
def remaining : Decoder Nat
  | bytes => .ok (bytes.length, bytes)

/-- Takes the next `count` bytes. -/
def block (count : Nat) : Decoder (List UInt8)
  | bytes =>
      let front := bytes.take count
      if front.length = count then .ok (front, bytes.drop count)
        else .error .outOfBounds

/-- Repeats a decoder a given number of times. -/
def times {α : Type} (item : Decoder α) : Nat → Decoder (List α)
  | 0 => return []
  | count + 1 => do
      let first ← item
      return first :: (← times item count)

end Decoder

/-- The last `width` bytes of a number, least significant first. -/
def littleEndian : (width : Nat) → (value : Nat) → List UInt8
  | 0, _ => []
  | width + 1, value =>
    UInt8.ofNat (value % 256) :: littleEndian width (value / 256)

/-- The number whose bytes are given, least significant first. -/
def ofLittleEndian : List UInt8 → Nat
  | [] => 0
  | b :: rest => b.toNat + 256 * ofLittleEndian rest

/-- Takes a word of `width` bytes. -/
def Decoder.word (width : Nat) : Decoder Nat := do
  return ofLittleEndian (← Decoder.block width)

@[simp]
theorem length_littleEndian (width value : Nat) :
    (littleEndian width value).length = width := by
  induction width generalizing value with
  | zero => rfl
  | succ width ih => simp [littleEndian, ih]

end CliMetadata
