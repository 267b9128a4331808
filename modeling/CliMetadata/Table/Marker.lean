/-!
# Marker attributes

Some attributes mark a type for the runtime and for compilers.  They are known
by their names in one namespace, and some of them mark value types only.
-/

namespace CliMetadata

/-- The namespace of the attributes that compilers and the runtime share. -/
def compilerServices : String := "System.Runtime.CompilerServices"

/-- The name of the attribute that marks inline arrays. -/
def inlineArrayAttribute : String := "InlineArrayAttribute"

/-- What marker attributes say of a type. -/
structure AttributeFlags where
  /-- Instances live on the stack only. -/
  isByRefLike : Bool := false
  /-- The compiler knows the type. -/
  isIntrinsic : Bool := false
  /-- Instances repeat their only field. -/
  isInlineArray : Bool := false
deriving DecidableEq, Repr

namespace AttributeFlags

/-- The flags as a set of bits. -/
def bits (flags : AttributeFlags) : UInt8 :=
  (if flags.isByRefLike then 1 else 0) ||| (if flags.isIntrinsic then 2 else 0)
    ||| (if flags.isInlineArray then 4 else 0)

/-- The flags with what an attribute of the given name adds. -/
def mark (flags : AttributeFlags) (isValueType : Bool)
    (name : String × String) : AttributeFlags :=
  if name.1 ≠ compilerServices then flags
  else if name.2 = "IntrinsicAttribute" then { flags with isIntrinsic := true }
  else if ¬ isValueType then flags
  else if name.2 = "IsByRefLikeAttribute" then
    { flags with isByRefLike := true }
  else if name.2 = inlineArrayAttribute
    then { flags with isInlineArray := true }
  else flags

end AttributeFlags

end CliMetadata
