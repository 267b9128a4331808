import CliMetadata.Bytes

/-!
# Compressed integers

Blobs write unsigned numbers in one, two or four bytes.  The first byte says
which: `0xxxxxxx` is the whole number, `10xxxxxx` starts two bytes and
`110xxxxx` four, most significant first.  Four bytes hold 29 bits, and `encode`
drops the bits of a larger number above these.
-/

namespace CliMetadata.CompressedInteger

/-- The largest number that can be written. -/
def limit : UInt32 := 0x1FFFFFFF

/-- The bytes of a number, in the shortest form that holds it. -/
def encode (value : UInt32) : List UInt8 :=
  if value ≤ 0x7F then [value.toUInt8]
  else if value ≤ 0x3FFF then [(0x80 : UInt8) ||| (value >>> 8).toUInt8,
    value.toUInt8]
  else
    [(0xC0 : UInt8) ||| ((value >>> 24).toUInt8 &&& 0x1F),
      (value >>> 16).toUInt8, (value >>> 8).toUInt8, value.toUInt8]

/-- Takes a number in any of the three forms, whether or not a shorter one would
hold it. -/
def decode : Decoder UInt32 := do
  let lead ← Decoder.byte
  if lead &&& 0x80 = 0 then return lead.toUInt32
  if lead &&& 0xC0 = 0x80 then
    let low ← Decoder.byte
    return ((lead.toUInt32 &&& 0x3F) <<< 8) ||| low.toUInt32
  if lead &&& 0xE0 = 0xC0 then
    let b₁ ← Decoder.byte
    let b₂ ← Decoder.byte
    let b₃ ← Decoder.byte
    return ((lead.toUInt32 &&& 0x1F) <<< 24) ||| (b₁.toUInt32 <<< 16) |||
      (b₂.toUInt32 <<< 8)
      ||| b₃.toUInt32
  Decoder.malformed (.compressedInteger lead)

/-- The bytes of the length of a list, as its number of entries modulo 2^32. -/
def encodeLength {α : Type} (items : List α) :
    List UInt8 := encode (UInt32.ofNat items.length)

end CliMetadata.CompressedInteger
