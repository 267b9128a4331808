import CliMetadata.CodedToken
import CliMetadata.Signature.Basic

/-!
# Writing signatures

`TypeSig.encode`, `MethodSig.encode` and `FieldSig.encode` give the bytes of a
signature.  Only a token whose table has no coded form stands in the way; of
several such tokens the first one written is reported.  Numbers that need more
than 29 bits lose the bits above these.
-/

namespace CliMetadata

namespace ElementType

/-! ### The bytes that introduce the parts of a signature -/

/-- Introduces the target of a pointer. -/
def pointer : UInt8 := 0x0F

/-- Introduces the target of a managed reference. -/
def byRef : UInt8 := 0x10

/-- Introduces the token of a value type. -/
def valueType : UInt8 := 0x11

/-- Introduces the token of a reference type. -/
def referenceType : UInt8 := 0x12

/-- Introduces the number of a generic parameter of a type. -/
def typeVar : UInt8 := 0x13

/-- Introduces the element and the shape of an array. -/
def array : UInt8 := 0x14

/-- Introduces a generic type and its arguments. -/
def generic : UInt8 := 0x15

/-- Introduces the signature of a function. -/
def function : UInt8 := 0x1B

/-- Introduces the element of an array of one dimension that starts at zero. -/
def vector : UInt8 := 0x1D

/-- Introduces the number of a generic parameter of a method. -/
def methodVar : UInt8 := 0x1E

/-- Introduces a required modifier. -/
def requiredModifier : UInt8 := 0x1F

/-- Introduces an optional modifier. -/
def optionalModifier : UInt8 := 0x20

/-- Separates the declared parameters of a variadic call from the added ones. -/
def sentinel : UInt8 := 0x41

/-- Introduces the type of a pinned local. -/
def pinned : UInt8 := 0x45

/-- Starts a field signature. -/
def field : UInt8 := 0x06

end ElementType

/-- The bytes of a modifier. -/
def Modifier.encode (m : Modifier) : Except Error (List UInt8) := do
  let type ← CodedToken.encodeBytes m.type
  return (if m.isRequired then ElementType.requiredModifier
    else ElementType.optionalModifier)
    :: type

/-- The bytes of modifiers in turn. -/
def Modifier.encodeEach : List Modifier → Except Error (List UInt8)
  | [] => return []
  | m :: rest => do
      let first ← m.encode
      return first ++ (← Modifier.encodeEach rest)

/-- The bytes of numbers behind their count. -/
def encodeNumbers (numbers : List UInt32) : List UInt8 :=
  CompressedInteger.encodeLength numbers ++
    numbers.flatMap CompressedInteger.encode

mutual

/-- The bytes of a type. -/
def TypeSig.encode : TypeSig → Except Error (List UInt8)
  | .primitive kind => return [kind.code]
  | .valueType token =>
    return ElementType.valueType :: (← CodedToken.encodeBytes token)
  | .referenceType token =>
    return ElementType.referenceType :: (← CodedToken.encodeBytes token)
  | .typeVar index =>
    return ElementType.typeVar :: CompressedInteger.encode index
  | .methodVar index =>
    return ElementType.methodVar :: CompressedInteger.encode index
  | .pointer modifiers target => do
      let front ← Modifier.encodeEach modifiers
      return ElementType.pointer :: (front ++ (← target.encode))
  | .byRef target => return ElementType.byRef :: (← target.encode)
  | .pinned target => return ElementType.pinned :: (← target.encode)
  | .vector modifiers element => do
      let front ← Modifier.encodeEach modifiers
      return ElementType.vector :: (front ++ (← element.encode))
  | .array element rank sizes lowerBounds => do
      let front ← element.encode
      return ElementType.array :: (front ++ CompressedInteger.encode rank ++
        encodeNumbers sizes
        ++ encodeNumbers lowerBounds)
  | .generic definition arguments => do
      let front ← definition.encode
      let back ← TypeSig.encodeEach arguments
      return ElementType.generic :: (front ++
        CompressedInteger.encodeLength arguments ++ back)
  | .function method => return ElementType.function :: (← method.encode)

/-- The bytes of types in turn. -/
def TypeSig.encodeEach : List TypeSig → Except Error (List UInt8)
  | [] => return []
  | type :: rest => do
      let first ← type.encode
      return first ++ (← TypeSig.encodeEach rest)

/-- The bytes of a parameter or result. -/
def ParamSig.encode : ParamSig → Except Error (List UInt8)
  | ⟨modifiers, byRef, type⟩ => do
      let front ← Modifier.encodeEach modifiers
      return front ++ ((if byRef then [ElementType.byRef] else []) ++
        (← type.encode))

/-- The bytes of parameters in turn. -/
def ParamSig.encodeEach : List ParamSig → Except Error (List UInt8)
  | [] => return []
  | param :: rest => do
      let first ← param.encode
      return first ++ (← ParamSig.encodeEach rest)

/-- The bytes of a method signature.  The count of generic parameters is written
only when there are any, and added parameters stand behind a sentinel. -/
def MethodSig.encode : MethodSig → Except Error (List UInt8)
  | ⟨hasThis, explicitThis, conventions, genericCount, result, params,
    varargs⟩ => do
      let resultBytes ← result.encode
      let paramBytes ← ParamSig.encodeEach params
      let varargBytes ← ParamSig.encodeEach varargs
      let signature := ⟨hasThis, explicitThis, conventions, genericCount,
        result, params, varargs⟩
      return MethodSig.head signature
        :: ((if 0 < genericCount then CompressedInteger.encode genericCount
          else [])
          ++ CompressedInteger.encodeLength (params ++ varargs)
          ++ resultBytes ++ paramBytes
          ++ (if varargs.isEmpty then []
            else ElementType.sentinel :: varargBytes))

end

/-- The bytes of a field signature. -/
def FieldSig.encode (field : FieldSig) : Except Error (List UInt8) := do
  let front ← Modifier.encodeEach field.modifiers
  return ElementType.field :: (front ++ (← field.type.encode))

/-- A buffer with the bytes of a signature behind what it holds already.

That encoders only append holds by definition here.  An encoder pushes bytes and
never looks back at what the buffer holds, so that it is given by the bytes that
it pushes. -/
def Signature.appendTo (buffer : List UInt8)
    (encoded : Except Error (List UInt8)) :
    Except Error (List UInt8) := do
  return buffer ++ (← encoded)

end CliMetadata
