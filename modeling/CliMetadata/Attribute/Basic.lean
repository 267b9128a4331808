import CliMetadata.Signature.Basic

/-!
# Attribute values

A custom attribute applies a constructor to constant arguments and sets fields
or properties by name.  Numbers keep their width, and floating-point numbers are
kept as their bits, so that every payload of a not-a-number survives.
-/

namespace CliMetadata

/-- A constant argument of an attribute. -/
inductive Argument where
  | bool (value : Bool)
  | char (value : Char)
  | i1 (value : Int8)
  | u1 (value : UInt8)
  | i2 (value : Int16)
  | u2 (value : UInt16)
  | i4 (value : Int32)
  | u4 (value : UInt32)
  | i8 (value : Int64)
  | u8 (value : UInt64)
  /-- A number of single precision, by its bits. -/
  | r4 (bits : UInt32)
  /-- A number of double precision, by its bits. -/
  | r8 (bits : UInt64)
  /-- A text, or none. -/
  | string (value : Option String)
  | array (elements : List Argument)
  | nullArray

instance : Inhabited Argument := ⟨.nullArray⟩

/-- The value of an argument that is a signed number of four bytes. -/
def Argument.int32? : Argument → Option Int32
  | .i4 value => some value
  | _ => none

/-- A field or property set by name. -/
structure NamedArgument where
  isField : Bool
  name : String
  value : Argument

/-- What an attribute says: the constructor's arguments, and what is set by
name. -/
structure AttributeValue where
  fixed : List Argument := []
  named : List NamedArgument := []

/-- The constructor's first argument, if it is a signed number of four bytes. -/
def AttributeValue.firstInt32? (value : AttributeValue) : Option Int32 :=
  value.fixed.head?.bind Argument.int32?

end CliMetadata
