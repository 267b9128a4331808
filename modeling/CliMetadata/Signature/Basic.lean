import CliMetadata.Token

/-!
# Signatures

The shapes of types, fields and methods as metadata blobs spell them: type
tokens are not resolved yet, and generic parameters are numbers.  `TypeSig` is a
type, `ParamSig` a parameter or result with its custom modifiers, `MethodSig`
and `FieldSig` what a method or field row points to.
-/

namespace CliMetadata

/-- The types that a single byte spells. -/
inductive Primitive where
  | void | boolean | char
  | i1 | u1 | i2 | u2 | i4 | u4 | i8 | u8 | r4 | r8
  | string | typedByRef | i | u | object
deriving DecidableEq, Repr

namespace Primitive

/-- Every primitive, in the order of their codes. -/
def all : List Primitive :=
  [void, boolean, char, i1, u1, i2, u2, i4, u4, i8, u8, r4, r8, string,
    typedByRef, i, u, object]

/-- The byte that spells a primitive. -/
def code : Primitive → UInt8
  | void => 0x01
  | boolean => 0x02
  | char => 0x03
  | i1 => 0x04
  | u1 => 0x05
  | i2 => 0x06
  | u2 => 0x07
  | i4 => 0x08
  | u4 => 0x09
  | i8 => 0x0A
  | u8 => 0x0B
  | r4 => 0x0C
  | r8 => 0x0D
  | string => 0x0E
  | typedByRef => 0x16
  | i => 0x18
  | u => 0x19
  | object => 0x1C

/-- The primitive that a byte spells, if any. -/
def ofCode? (code : UInt8) :
    Option Primitive := all.find? fun p => p.code == code

@[simp]
theorem ofCode?_code (p : Primitive) :
    ofCode? p.code = some p := by cases p <;> decide

theorem code_of_ofCode? {code : UInt8} {p : Primitive}
    (h : ofCode? code = some p) :
    p.code = code := by
  have := List.find?_some h
  simpa using this

end Primitive

/-- A custom modifier attaches a type to a position; a required one must be
understood. -/
structure Modifier where
  isRequired : Bool
  type : Token
deriving DecidableEq, Repr

/-- The calling conventions that a method signature claims.  A signature read
from a blob claims exactly one; values built by hand may claim any set, and the
first claimed one in the order vararg, cdecl, stdcall, thiscall, fastcall
decides, with the managed convention as the last resort. -/
structure Conventions where
  managed : Bool := false
  vararg : Bool := false
  cdecl : Bool := false
  stdcall : Bool := false
  thiscall : Bool := false
  fastcall : Bool := false
deriving DecidableEq, Repr

mutual

/-- A type as a signature spells it. -/
inductive TypeSig where
  | primitive (kind : Primitive)
  /-- A value type, by its token. -/
  | valueType (token : Token)
  /-- A reference type, by its token. -/
  | referenceType (token : Token)
  /-- The generic parameter of a type with the given number. -/
  | typeVar (index : UInt32)
  /-- The generic parameter of a method with the given number. -/
  | methodVar (index : UInt32)
  | pointer (modifiers : List Modifier) (target : TypeSig)
  | byRef (target : TypeSig)
  | pinned (target : TypeSig)
  /-- An array of one dimension that starts at zero. -/
  | vector (modifiers : List Modifier) (element : TypeSig)
  /-- An array of any shape; sizes and lower bounds are given for its leading
  dimensions. -/
  | array (element : TypeSig) (rank : UInt32) (sizes lowerBounds : List UInt32)
  /-- A generic type applied to arguments. -/
  | generic (definition : TypeSig) (arguments : List TypeSig)
  | function (method : MethodSig)

/-- A parameter or a result. -/
structure ParamSig where
  modifiers : List Modifier
  byRef : Bool
  type : TypeSig

/-- A method's signature.  `params` are the declared parameters and `varargs`
those that a call site of a variadic method adds. -/
structure MethodSig where
  hasThis : Bool
  explicitThis : Bool
  conventions : Conventions
  genericCount : UInt32
  result : ParamSig
  params : List ParamSig
  varargs : List ParamSig

end

/-- A field's signature. -/
structure FieldSig where
  modifiers : List Modifier
  type : TypeSig

instance : Inhabited TypeSig := ⟨.primitive .void⟩

/-- A parameter passed by value and without modifiers. -/
def ParamSig.plain (type : TypeSig) : ParamSig := ⟨[], false, type⟩

/-- An array of one dimension without modifiers. -/
def TypeSig.plainVector (element : TypeSig) : TypeSig := .vector [] element

/-- A pointer without modifiers. -/
def TypeSig.plainPointer (target : TypeSig) : TypeSig := .pointer [] target

namespace MethodSig

/-- The signature of a managed method that needs no instance. -/
def static (result : TypeSig) (params : List TypeSig) : MethodSig :=
  { hasThis := false
    explicitThis := false
    conventions := { managed := true }
    genericCount := 0
    result := .plain result
    params := params.map .plain
    varargs := [] }

/-- The signature of a managed method that is called on an instance. -/
def instance_ (result : TypeSig) (params : List TypeSig) : MethodSig :=
  { static result params with hasThis := true }

end MethodSig

/-- The low four bits of a signature's first byte. -/
def Conventions.code (c : Conventions) : UInt8 :=
  if c.vararg then 0x05
  else if c.cdecl then 0x01
  else if c.stdcall then 0x02
  else if c.thiscall then 0x03
  else if c.fastcall then 0x04
  else 0x00

/-- The one convention that the low four bits of a first byte claim; more than
five claims none. -/
def Conventions.ofCode (code : UInt8) : Conventions :=
  { managed := code == 0x00
    vararg := code == 0x05
    cdecl := code == 0x01
    stdcall := code == 0x02
    thiscall := code == 0x03
    fastcall := code == 0x04 }

/-- The first byte of a method signature: the convention, and bits for generic
methods, for methods with an instance and for those that list it among their
parameters. -/
def MethodSig.head (m : MethodSig) : UInt8 :=
  m.conventions.code
    ||| (if 0 < m.genericCount then 0x10 else 0)
    ||| (if m.hasThis then 0x20 else 0)
    ||| (if m.explicitThis then 0x40 else 0)

end CliMetadata
