import CliMetadata.Attribute.Basic
import CliMetadata.CompressedInteger

/-!
# Reading attribute values

The arguments of a constructor are read by the types of its parameters; named
arguments carry a tag that says what their value is.  Primitive types, texts and
arrays are read; enumerations, types and boxed values are not.  The count of
named arguments may be missing at the end of the bytes.
-/

namespace CliMetadata

/-- Takes a text behind its length, or the mark of a missing text.  `size` is
the length of the whole value, from which a fault tells where the text
starts. -/
def decodeText (size : Nat) : Decoder (Option String) := do
  if (← Decoder.peek) = 0xFF then
    let _ ← Decoder.byte
    return none
  let length ← CompressedInteger.decode
  let start := size - (← Decoder.remaining)
  match Utf8.decode (← Decoder.block length.toNat) with
  | .ok text => return some text
  | .error fault => Decoder.malformed (.serializedText start fault)

/-- How to take a value of a primitive type, for the types whose values can be
arguments. -/
def Argument.decodePrimitive? (size : Nat) :
    Primitive → Option (Decoder Argument)
  | .boolean => some do return .bool ((← Decoder.byte) ≠ 0)
  | .char => some do
      let code ← Decoder.word 2
      if Nat.isValidChar code then return .char (Char.ofNat code)
      Decoder.malformed (.charArgument (UInt16.ofNat code))
  | .i1 => some do return .i1 (UInt8.ofNat (← Decoder.word 1)).toInt8
  | .u1 => some do return .u1 (UInt8.ofNat (← Decoder.word 1))
  | .i2 => some do return .i2 (UInt16.ofNat (← Decoder.word 2)).toInt16
  | .u2 => some do return .u2 (UInt16.ofNat (← Decoder.word 2))
  | .i4 => some do return .i4 (UInt32.ofNat (← Decoder.word 4)).toInt32
  | .u4 => some do return .u4 (UInt32.ofNat (← Decoder.word 4))
  | .i8 => some do return .i8 (UInt64.ofNat (← Decoder.word 8)).toInt64
  | .u8 => some do return .u8 (UInt64.ofNat (← Decoder.word 8))
  | .r4 => some do return .r4 (UInt32.ofNat (← Decoder.word 4))
  | .r8 => some do return .r8 (UInt64.ofNat (← Decoder.word 8))
  | .string => some do return .string (← decodeText size)
  | .void | .typedByRef | .i | .u | .object => none

/-- The count that stands for a missing array. -/
def missingArray : Nat := 0xFFFFFFFF

/-- Takes an array behind its count, given how to take an element. -/
def Argument.decodeArray (element : Decoder Argument) : Decoder Argument := do
  let count ← Decoder.word 4
  if count = missingArray then return .nullArray
  return .array (← Decoder.times element count)

/-- Takes a constructor argument of the given type. -/
def Argument.decodeFixed (size : Nat) : TypeSig → Decoder Argument
  | .primitive kind =>
      (Argument.decodePrimitive? size kind).getD
        (throw (.notSupported (.argumentType (.primitive kind))))
  | .vector _ element =>
    Argument.decodeArray (Argument.decodeFixed size element)
  | other => throw (.notSupported (.argumentType other))

/-- Takes the constructor arguments of the given parameters. -/
def Argument.decodeFixedEach (size : Nat) :
    List ParamSig → Decoder (List Argument)
  | [] => return []
  | param :: rest => do
      let first ← Argument.decodeFixed size param.type
      return first :: (← Argument.decodeFixedEach size rest)

/-- Takes a value of the type that a tag selects. -/
def Argument.decodeTagged (size : Nat) (tag : UInt8) : Decoder Argument :=
  ((Primitive.ofCode? tag).bind (Argument.decodePrimitive? size)).getD
    (throw (.notSupported (.serializationTag tag)))

/-- Tags of the kinds of named arguments, and of arrays. -/
def NamedArgument.fieldTag : UInt8 := 0x53

/-- Marks a named argument that sets a property. -/
def NamedArgument.propertyTag : UInt8 := 0x54

/-- Marks a named argument whose value is an array; the tag of its elements
follows the name. -/
def NamedArgument.arrayTag : UInt8 := 0x1D

/-- Takes a named argument: its kind, the tag of its value, its name and the
value. -/
def NamedArgument.decode (size : Nat) : Decoder NamedArgument := do
  let kind ← Decoder.byte
  if kind ≠ NamedArgument.fieldTag ∧ kind ≠ NamedArgument.propertyTag then
    Decoder.malformed (.namedArgumentKind kind)
  let tag ← Decoder.byte
  let some name ← decodeText size | Decoder.malformed .unnamedArgument
  let value ←
    if tag = NamedArgument.arrayTag then do
      let elementTag ← Decoder.byte
      Argument.decodeArray (Argument.decodeTagged size elementTag)
    else Argument.decodeTagged size tag
  return ⟨kind = NamedArgument.fieldTag, name, value⟩

/-- Takes the value of an attribute whose constructor has the given
parameters. -/
def AttributeValue.decode (size : Nat) (params : List ParamSig) :
    Decoder AttributeValue := do
  let prolog ← Decoder.word 2
  if prolog ≠ 1 then
    Decoder.malformed (.attributeProlog (UInt16.ofNat prolog))
  let fixed ← Argument.decodeFixedEach size params
  if ← Decoder.atEnd then return ⟨fixed, []⟩
  let count ← Decoder.word 2
  return ⟨fixed, ← Decoder.times (NamedArgument.decode size) count⟩

/-- The attribute value in some bytes; no bytes at all say nothing. -/
def AttributeValue.ofBytes (bytes : List UInt8) (constructor : MethodSig) :
    Except Error AttributeValue :=
  if bytes.isEmpty then .ok {}
  else (AttributeValue.decode bytes.length constructor.params).run' bytes

end CliMetadata
