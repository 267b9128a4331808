import CliMetadata.Signature.Encode

/-!
# Reading signatures

A signature carries no delimiters: the first byte of each part says what it is,
and a modifier, a by-reference mark or a sentinel shows by the next byte whether
it is there.  Types may nest only up to a limit, which a caller gives.
`TypeSig.decode` and its companions read a signature from the front of some
bytes and leave the rest; `MethodSig.ofBytes` and its companions ignore the
rest.

How a type token is taken is a parameter of the decoders that end in `Using` and
`With`; signatures take theirs with `CodedToken.decode`.
-/

namespace CliMetadata

/-- How deeply types may nest where nothing else is asked for. -/
def Signature.defaultDepth : Nat := 50

section
variable (token : Decoder Token)

/-- Takes a modifier if one comes next. -/
def Modifier.decodeWith? : Decoder (Option Modifier)
  | [] => .ok (none, [])
  | b :: rest =>
      if b = ElementType.requiredModifier ∨
        b = ElementType.optionalModifier then
        (token.run rest).map fun (type, rest) =>
          (some ⟨b = ElementType.requiredModifier, type⟩, rest)
      else .ok (none, b :: rest)

/-- Takes at most `bound` modifiers. -/
def Modifier.decodeUpTo : (bound : Nat) → Decoder (List Modifier)
  | 0 => return []
  | bound + 1 => do
      match ← Modifier.decodeWith? token with
      | some m => return m :: (← Modifier.decodeUpTo bound)
      | none => return []

/-- Takes all modifiers that come next.  Each takes more than one byte, so there
are fewer of them than bytes. -/
def Modifier.decodeEachWith : Decoder (List Modifier) := do
  Modifier.decodeUpTo token (← Decoder.remaining)

/-- Takes numbers behind their count. -/
def decodeNumbers : Decoder (List UInt32) := do
  let count ← CompressedInteger.decode
  Decoder.times CompressedInteger.decode count.toNat

variable (type : Decoder TypeSig)

/-- Takes what follows the modifiers of a parameter or result, given how to take
its type. -/
def ParamSig.decodeAfter (modifiers : List Modifier) : Decoder ParamSig := do
  if (← Decoder.peek) = ElementType.byRef then
    let _ ← Decoder.byte
    return ⟨modifiers, true, ← type⟩
  return ⟨modifiers, false, ← type⟩

/-- Takes a parameter or result, given how to take its type. -/
def ParamSig.decodeWith : Decoder ParamSig := do
  ParamSig.decodeAfter type (← Modifier.decodeEachWith token)

/-- Takes a sentinel if one comes next, and tells whether parameters are added
ones from here on. -/
def ParamSig.decodeSentinel (added : Bool) : Decoder Bool := do
  if (← Decoder.peek) = ElementType.sentinel then
    let _ ← Decoder.byte
    return true
  return added

/-- Takes the parameters of a method: those before the first sentinel, and those
after it.  A sentinel may stand before any parameter, and again. -/
def ParamSig.decodeList :
    (count : Nat) → (added : Bool) → Decoder (List ParamSig × List ParamSig)
  | 0, _ => return ([], [])
  | count + 1, added => do
      let added ← ParamSig.decodeSentinel added
      let param ← ParamSig.decodeWith token type
      let others ← ParamSig.decodeList count added
      return if added then (others.1, param :: others.2)
        else (param :: others.1, others.2)

/-- Takes the number of generic parameters, which is written only where the
first byte says so. -/
def MethodSig.decodeGenericCount (head : UInt8) : Decoder UInt32 :=
  if head &&& 0x10 ≠ 0 then CompressedInteger.decode else return 0

/-- Takes what follows the first byte of a method signature, given how to take a
type. -/
def MethodSig.decodeAfter (head : UInt8) : Decoder MethodSig := do
  let genericCount ← MethodSig.decodeGenericCount head
  let count ← CompressedInteger.decode
  let result ← ParamSig.decodeWith token type
  let params ← ParamSig.decodeList token type count.toNat false
  return {
    hasThis := head &&& 0x20 ≠ 0
    explicitThis := head &&& 0x40 ≠ 0
    conventions := .ofCode (head &&& 0x0F)
    genericCount, result
    params := params.1
    varargs := params.2 }

/-- Takes a method signature, given how to take a type. -/
def MethodSig.decodeWith : Decoder MethodSig := do
  let head ← Decoder.byte
  if 0x05 < head &&& 0x0F then
    Decoder.malformed (.methodConvention head)
  MethodSig.decodeAfter token type head

/-- Takes what follows the first byte of a type, given how to take the types
inside it. -/
def TypeSig.decodeAfter (lead : UInt8) : Decoder TypeSig := do
  if let some kind := Primitive.ofCode? lead then return .primitive kind
  if lead = ElementType.pointer then
    let modifiers ← Modifier.decodeEachWith token
    return .pointer modifiers (← type)
  if lead = ElementType.byRef then return .byRef (← type)
  if lead = ElementType.valueType then return .valueType (← token)
  if lead = ElementType.referenceType then return .referenceType (← token)
  if lead = ElementType.typeVar then
    return .typeVar (← CompressedInteger.decode)
  if lead = ElementType.methodVar then
    return .methodVar (← CompressedInteger.decode)
  if lead = ElementType.array then
    let element ← type
    let rank ← CompressedInteger.decode
    if rank = 0 then
      Decoder.malformed .arrayOfRankZero
    let sizes ← decodeNumbers
    return .array element rank sizes (← decodeNumbers)
  if lead = ElementType.generic then
    let next ← Decoder.peek
    if next ≠ ElementType.referenceType ∧ next ≠ ElementType.valueType then
      Decoder.malformed (.genericHead next)
    let definition ← type
    let count ← CompressedInteger.decode
    if count = 0 then
      Decoder.malformed .noTypeArguments
    return .generic definition (← Decoder.times type count.toNat)
  if lead = ElementType.function then
    return .function (← MethodSig.decodeWith token type)
  if lead = ElementType.vector then
    let modifiers ← Modifier.decodeEachWith token
    return .vector modifiers (← type)
  if lead = ElementType.pinned then return .pinned (← type)
  Decoder.malformed (.elementType lead)

/-- Takes a type, with room for `room` more levels of nesting below a limit.

A reader that counts the levels, up where a type begins and down where it ends,
does the same.  Its count is the limit without the room: each way through a type
that goes on lowers it again, so that types beside each other find the same
count, and where it is not lowered the whole signature has failed. -/
def TypeSig.decodeWithin (limit : Nat) : (room : Nat) → Decoder TypeSig
  | 0 => throw (.tooDeep limit)
  | room + 1 => do
      TypeSig.decodeAfter token (TypeSig.decodeWithin limit room)
        (← Decoder.byte)

/-- Takes a type whose nesting stays within a limit. -/
def TypeSig.decodeUsing (limit : Nat) :
    Decoder TypeSig := TypeSig.decodeWithin token limit limit

/-- Takes a method signature whose types nest within a limit. -/
def MethodSig.decodeUsing (limit : Nat) : Decoder MethodSig :=
  MethodSig.decodeWith token (TypeSig.decodeUsing token limit)

/-- Takes a field signature whose type nests within a limit. -/
def FieldSig.decodeUsing (limit : Nat) : Decoder FieldSig := do
  let head ← Decoder.byte
  if head ≠ ElementType.field then
    Decoder.malformed (.fieldHead head)
  let modifiers ← Modifier.decodeEachWith token
  return ⟨modifiers, ← TypeSig.decodeUsing token limit⟩

end

/-- Takes a type whose nesting stays within a limit. -/
def TypeSig.decode (limit : Nat) :
    Decoder TypeSig := TypeSig.decodeUsing CodedToken.decode limit

/-- Takes a method signature whose types nest within a limit. -/
def MethodSig.decode (limit : Nat) : Decoder MethodSig :=
  MethodSig.decodeUsing CodedToken.decode limit

/-- Takes a field signature whose type nests within a limit. -/
def FieldSig.decode (limit : Nat) :
    Decoder FieldSig := FieldSig.decodeUsing CodedToken.decode limit

/-- The type at the front of some bytes. -/
def TypeSig.ofBytes (limit : Nat) (bytes : List UInt8) : Except Error TypeSig :=
  (TypeSig.decode limit).run' bytes

/-- The method signature at the front of some bytes. -/
def MethodSig.ofBytes (limit : Nat) (bytes : List UInt8) :
    Except Error MethodSig :=
  (MethodSig.decode limit).run' bytes

/-- The field signature at the front of some bytes. -/
def FieldSig.ofBytes (limit : Nat) (bytes : List UInt8) :
    Except Error FieldSig :=
  (FieldSig.decode limit).run' bytes

/-- Whether bytes start like a field signature. -/
def FieldSig.startsAt (bytes : List UInt8) :
    Bool := bytes.head? = some ElementType.field

end CliMetadata
