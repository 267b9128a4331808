import CliMetadata.Signature.Basic

/-!
# One-line descriptions of signatures

Diagnostics show a signature with every field named.  `TypeSig.describe` writes
a type on one line; the spelling of constructors and fields is part of the
messages that embed it.
-/

namespace CliMetadata

namespace Primitive

/-- The name of a primitive in a description. -/
def describe : Primitive → String
  | void => "Void"
  | boolean => "Boolean"
  | char => "Char"
  | i1 => "I1"
  | u1 => "U1"
  | i2 => "I2"
  | u2 => "U2"
  | i4 => "I4"
  | u4 => "U4"
  | i8 => "I8"
  | u8 => "U8"
  | r4 => "R4"
  | r8 => "R8"
  | string => "String"
  | typedByRef => "TypedByRef"
  | i => "I"
  | u => "U"
  | object => "Object"

end Primitive

/-- A list in brackets. -/
def describeList (items : List String) :
    String := "[" ++ ", ".intercalate items ++ "]"

/-- A record: its name, and its fields between braces. -/
def describeRecord (name : String) (fields : List (String × String)) : String :=
  name ++ " \x7b " ++ ", ".intercalate (fields.map fun f => f.1 ++ ": " ++ f.2)
    ++ " \x7d"

/-- The description of a modifier. -/
def Modifier.describe (m : Modifier) : String :=
  describeRecord "CustomModifier"
    [("is_required", toString m.isRequired), ("modifier_type", m.type.describe)]

/-- The description of a list of modifiers. -/
def describeModifiers (modifiers : List Modifier) : String :=
  describeList (modifiers.map Modifier.describe)

mutual

/-- The description of a type. -/
def TypeSig.describe : TypeSig → String
  | .primitive kind => kind.describe
  | .valueType token => "ValueType(" ++ token.describe ++ ")"
  | .referenceType token => "Class(" ++ token.describe ++ ")"
  | .typeVar index => "GenericParamType(" ++ toString index.toNat ++ ")"
  | .methodVar index => "GenericParamMethod(" ++ toString index.toNat ++ ")"
  | .pointer modifiers target =>
      "Ptr(" ++ describeRecord "SignaturePointer"
        [("modifiers", describeModifiers modifiers), ("base", target.describe)]
          ++ ")"
  | .byRef target => "ByRef(" ++ target.describe ++ ")"
  | .pinned target => "Pinned(" ++ target.describe ++ ")"
  | .vector modifiers element =>
      "SzArray(" ++ describeRecord "SignatureSzArray"
        [("modifiers", describeModifiers modifiers), ("base", element.describe)]
          ++ ")"
  | .array element rank sizes lowerBounds =>
      "Array(" ++ describeRecord "SignatureArray"
        [("base", element.describe), ("rank", toString rank.toNat),
          ("sizes", describeList (sizes.map fun n => toString n.toNat)),
          ("lower_bounds",
            describeList (lowerBounds.map fun n => toString n.toNat))] ++ ")"
  | .generic definition arguments =>
      "GenericInst(" ++ definition.describe ++ ", "
        ++ describeList (TypeSig.describeEach arguments) ++ ")"
  | .function method => "FnPtr(" ++ method.describe ++ ")"

/-- The descriptions of several types. -/
def TypeSig.describeEach : List TypeSig → List String
  | [] => []
  | type :: rest => type.describe :: TypeSig.describeEach rest

/-- The description of a parameter. -/
def ParamSig.describe : ParamSig → String
  | ⟨modifiers, byRef, type⟩ =>
      describeRecord "SignatureParameter"
        [("modifiers", describeModifiers modifiers), ("by_ref", toString byRef),
          ("base", type.describe)]

/-- The descriptions of several parameters. -/
def ParamSig.describeEach : List ParamSig → List String
  | [] => []
  | param :: rest => param.describe :: ParamSig.describeEach rest

/-- The description of a method signature. -/
def MethodSig.describe : MethodSig → String
  | ⟨hasThis, explicitThis, c, genericCount, result, params, varargs⟩ =>
      describeRecord "SignatureMethod"
        [("has_this", toString hasThis),
          ("explicit_this", toString explicitThis),
          ("default", toString c.managed), ("vararg", toString c.vararg),
          ("cdecl", toString c.cdecl), ("stdcall", toString c.stdcall),
          ("thiscall", toString c.thiscall), ("fastcall", toString c.fastcall),
          ("param_count_generic", toString genericCount.toNat),
          ("return_type", result.describe),
          ("params", describeList (ParamSig.describeEach params)),
          ("varargs", describeList (ParamSig.describeEach varargs))]

end

end CliMetadata
