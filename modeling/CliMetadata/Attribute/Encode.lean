import CliMetadata.Attribute.Basic
import CliMetadata.CompressedInteger

/-!
# Writing attribute values

The value of an attribute is a prolog, the constructor's arguments without any
mark of their types, and the number of named arguments, which is none here.  A
text stands behind its length, an array behind the number of its elements; a
missing text is the single byte `FF`, a missing array four of them.
-/

namespace CliMetadata

/-- The bytes of a text behind its length. -/
def encodeText (text : String) : Except Error (List UInt8) :=
  let bytes := Utf8.encode text
  if bytes.length ≤ CompressedInteger.limit.toNat then
    .ok (CompressedInteger.encodeLength bytes ++ bytes)
  else .error (.malformed .longString)

mutual

/-- The bytes of an argument. -/
def Argument.encode : Argument → Except Error (List UInt8)
  | .bool value => .ok [if value then 1 else 0]
  | .char value =>
      if value.toNat < 0x10000 then .ok (littleEndian 2 value.toNat)
      else .error (.malformed (.wideChar value))
  | .i1 value => .ok (littleEndian 1 value.toUInt8.toNat)
  | .u1 value => .ok (littleEndian 1 value.toNat)
  | .i2 value => .ok (littleEndian 2 value.toUInt16.toNat)
  | .u2 value => .ok (littleEndian 2 value.toNat)
  | .i4 value => .ok (littleEndian 4 value.toUInt32.toNat)
  | .u4 value => .ok (littleEndian 4 value.toNat)
  | .i8 value => .ok (littleEndian 8 value.toUInt64.toNat)
  | .u8 value => .ok (littleEndian 8 value.toNat)
  | .r4 bits => .ok (littleEndian 4 bits.toNat)
  | .r8 bits => .ok (littleEndian 8 bits.toNat)
  | .string none => .ok [0xFF]
  | .string (some text) => encodeText text
  | .nullArray => .ok [0xFF, 0xFF, 0xFF, 0xFF]
  | .array elements =>
      if elements.length < 0x100000000 then do
        return littleEndian 4 elements.length ++
          (← Argument.encodeEach elements)
      else .error (.malformed .longArray)

/-- The bytes of arguments in turn. -/
def Argument.encodeEach : List Argument → Except Error (List UInt8)
  | [] => .ok []
  | argument :: rest => do
      let first ← argument.encode
      return first ++ (← Argument.encodeEach rest)

end

/-- The value of an attribute with the given constructor arguments and nothing
set by name. -/
def encodeAttribute (fixed : List Argument) : Except Error (List UInt8) := do
  return [0x01, 0x00] ++ (← Argument.encodeEach fixed) ++ [0x00, 0x00]

end CliMetadata
