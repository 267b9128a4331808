import CliMetadata.Token

/-!
# Rows of metadata tables

The rows that types and members are made from.  Every row knows its number and
its token; names and signatures are indices into the heaps.  Flag columns are
words of their own types, with a predicate for each question that is asked of
them.
-/

namespace CliMetadata

/-! ### Flags -/

/-- The flags of a type. -/
structure TypeFlags where
  bits : UInt32
deriving DecidableEq, Hashable, Repr, Inhabited

/-- How strings are passed to native code by the methods of a type. -/
inductive StringFormat where
  | ansi
  | unicode
  | auto
  | custom
deriving DecidableEq, Repr

/-- The name of a format. -/
def StringFormat.name : StringFormat → String
  | ansi => "AnsiClass"
  | unicode => "UnicodeClass"
  | auto => "AutoClass"
  | custom => "CustomFormatClass"

namespace TypeFlags

/-- Types of any visibility above public are nested in another type. -/
def isNested (flags : TypeFlags) : Bool := 1 < flags.bits &&& 0x7

/-- Whether the type declares an interface. -/
def isInterface (flags : TypeFlags) : Bool := flags.bits &&& 0x20 != 0

/-- Whether the type has no instances of its own. -/
def isAbstract (flags : TypeFlags) : Bool := flags.bits &&& 0x80 != 0

/-- Whether no type derives from the type. -/
def isSealed (flags : TypeFlags) : Bool := flags.bits &&& 0x100 != 0

/-- Whether the fields lie in the order of their declaration. -/
def isSequential (flags : TypeFlags) : Bool := flags.bits &&& 0x8 != 0

/-- Whether the fields state where they lie. -/
def isExplicit (flags : TypeFlags) : Bool := flags.bits &&& 0x10 != 0

/-- Whether the type may be initialised late. -/
def isBeforeFieldInit (flags : TypeFlags) : Bool := flags.bits &&& 0x100000 != 0

/-- How the type's methods pass strings to native code. -/
def stringFormat (flags : TypeFlags) : StringFormat :=
  match ((flags.bits >>> 16) &&& 0x3).toNat with
  | 1 => .unicode
  | 2 => .auto
  | 3 => .custom
  | _ => .ansi

/-- A type that every module sees. -/
def «public» : TypeFlags := ⟨0x1⟩

end TypeFlags

/-- The flags of a method. -/
structure MethodFlags where
  bits : UInt32
deriving DecidableEq, Hashable, Repr, Inhabited

namespace MethodFlags

/-- Whether calls choose the method by the instance's type. -/
def isVirtual (flags : MethodFlags) : Bool := flags.bits &&& 0x40 != 0

/-- Whether the method needs no instance. -/
def isStatic (flags : MethodFlags) : Bool := flags.bits &&& 0x10 != 0

/-- Whether the method is declared without a body. -/
def isAbstract (flags : MethodFlags) : Bool := flags.bits &&& 0x400 != 0

/-- Whether no derived type overrides the method. -/
def isFinal (flags : MethodFlags) : Bool := flags.bits &&& 0x20 != 0

/-- Whether a virtual method opens a slot of its own rather than take over
one. -/
def isNewSlot (flags : MethodFlags) : Bool := flags.bits &&& 0x100 != 0

/-- Whether every module sees the method. -/
def isPublic (flags : MethodFlags) : Bool := flags.bits &&& 0x7 == 0x6

/-- Whether the method's name has a meaning to the runtime, as those of
constructors do. -/
def isRuntimeSpecial (flags : MethodFlags) : Bool := flags.bits &&& 0x1000 != 0

end MethodFlags

/-- The flags of a field. -/
structure FieldFlags where
  bits : UInt32
deriving DecidableEq, Hashable, Repr, Inhabited

namespace FieldFlags

/-- Whether the field belongs to the type and not to its instances. -/
def isStatic (flags : FieldFlags) : Bool := flags.bits &&& 0x10 != 0

/-- Whether the field is a constant. -/
def isLiteral (flags : FieldFlags) : Bool := flags.bits &&& 0x40 != 0

/-- Whether only constructors set the field. -/
def isInitOnly (flags : FieldFlags) : Bool := flags.bits &&& 0x20 != 0

end FieldFlags

/-- How a generic parameter relates instances over related arguments. -/
inductive Variance where
  | none
  | covariant
  | contravariant
deriving DecidableEq, Repr

/-- The name of a variance. -/
def Variance.name : Variance → String
  | none => "None"
  | covariant => "Covariant"
  | contravariant => "Contravariant"

/-- The flags of a generic parameter. -/
structure GenericParamFlags where
  bits : UInt32
deriving DecidableEq, Hashable, Repr, Inhabited

namespace GenericParamFlags

/-- The variance that the low two bits state. -/
def variance (flags : GenericParamFlags) : Variance :=
  match (flags.bits &&& 0x3).toNat with
  | 1 => .covariant
  | 2 => .contravariant
  | _ => .none

/-- The bits that constrain the argument to reference types, to value types that
are not nullable, and to types with a default constructor. -/
def constraints (flags : GenericParamFlags) : UInt32 := flags.bits &&& 0x1C

end GenericParamFlags

/-! ### Rows -/

/-- A reference to another assembly. -/
structure AssemblyRefRow where
  number : UInt32 := 0
  token : Token := .null
  major : UInt16 := 0
  minor : UInt16 := 0
  build : UInt16 := 0
  revision : UInt16 := 0
  flags : UInt32 := 0
  name : UInt32 := 0
  culture : UInt32 := 0
deriving DecidableEq, Repr

/-- A reference to a type by name, in a scope that says where to look. -/
structure TypeRefRow where
  number : UInt32 := 0
  token : Token := .null
  scope : Token := .null
  name : UInt32 := 0
  namespaceName : UInt32 := 0
deriving DecidableEq, Repr

/-- A type of the module. -/
structure TypeDefRow where
  number : UInt32 := 0
  token : Token := .null
  flags : TypeFlags := ⟨0⟩
  name : UInt32 := 0
  namespaceName : UInt32 := 0
  /-- The base type; the null token where there is none. -/
  base : Token := .null
  fields : List Token := []
  methods : List Token := []
deriving DecidableEq, Repr

/-- A type that a signature spells out. -/
structure TypeSpecRow where
  number : UInt32 := 0
  token : Token := .null
  signature : UInt32 := 0
deriving DecidableEq, Repr

/-- A method of the module. -/
structure MethodDefRow where
  number : UInt32 := 0
  token : Token := .null
  /-- The address of the body. -/
  address : UInt32 := 0
  implFlags : UInt32 := 0
  flags : MethodFlags := ⟨0⟩
  name : UInt32 := 0
  signature : UInt32 := 0
deriving DecidableEq, Repr

/-- A field of the module. -/
structure FieldRow where
  number : UInt32 := 0
  token : Token := .null
  flags : FieldFlags := ⟨0⟩
  name : UInt32 := 0
  signature : UInt32 := 0
deriving DecidableEq, Repr

/-- A reference to a member by name and signature. -/
structure MemberRefRow where
  number : UInt32 := 0
  token : Token := .null
  /-- Where to look: a type, or a method that the reference stands for. -/
  parent : Token := .null
  name : UInt32 := 0
  signature : UInt32 := 0
deriving DecidableEq, Repr

/-- A generic parameter of a type or method. -/
structure GenericParamRow where
  number : UInt32 := 0
  token : Token := .null
  /-- The position among the owner's parameters. -/
  position : UInt32 := 0
  flags : GenericParamFlags := ⟨0⟩
  owner : Token := .null
  name : UInt32 := 0
deriving DecidableEq, Repr

/-- An attribute applied to a parent. -/
structure CustomAttributeRow where
  number : UInt32 := 0
  token : Token := .null
  parent : Token := .null
  constructor : Token := .null
  value : UInt32 := 0
deriving DecidableEq, Repr

/-- The layout that a type asks for. -/
structure ClassLayoutRow where
  number : UInt32 := 0
  token : Token := .null
  packing : UInt16 := 0
  size : UInt32 := 0
  parent : Token := .null
deriving DecidableEq, Repr

/-- A type and the type it is nested in. -/
structure NestedClassRow where
  nested : Token
  enclosing : Token
deriving DecidableEq, Repr

end CliMetadata
