/-!
# Categories of types and the types every program knows

A type's *category* says what sort of type it is: one of the primitives, another
value type, a reference type, or a shape built over other types.  The
*well-known* types are those of the core library that a type system has to
recognise.  The primitives and the nullable type get their category from being
well known; for every other type the category follows from its declaration.
-/

namespace CliMetadata

/-- What sort of type a type is. -/
inductive Category where
  | void | boolean | char
  | sByte | byte | int16 | uInt16 | int32 | uInt32 | int64 | uInt64
  | intPtr | uIntPtr | single | double
  | valueType | enum | nullable
  | reference | interface
  | array | szArray | byRef | pointer
  | genericParameter | signatureTypeVariable | signatureMethodVariable
deriving DecidableEq, Repr

namespace Category

/-- The name of a category. -/
def name : Category → String
  | void => "Void"
  | boolean => "Boolean"
  | char => "Char"
  | sByte => "SByte"
  | byte => "Byte"
  | int16 => "Int16"
  | uInt16 => "UInt16"
  | int32 => "Int32"
  | uInt32 => "UInt32"
  | int64 => "Int64"
  | uInt64 => "UInt64"
  | intPtr => "IntPtr"
  | uIntPtr => "UIntPtr"
  | single => "Single"
  | double => "Double"
  | valueType => "ValueType"
  | enum => "Enum"
  | nullable => "Nullable"
  | reference => "Class"
  | interface => "Interface"
  | array => "Array"
  | szArray => "SzArray"
  | byRef => "ByRef"
  | pointer => "Pointer"
  | genericParameter => "GenericParameter"
  | signatureTypeVariable => "SignatureTypeVariable"
  | signatureMethodVariable => "SignatureMethodVariable"

/-- The categories that name a single type of the core library: `void`, the
truth values, characters and numbers. -/
def isPrimitive : Category → Bool
  | void | boolean | char | sByte | byte | int16 | uInt16 | int32 | uInt32
  | int64 | uInt64 | intPtr | uIntPtr | single | double => true
  | _ => false

/-- The categories whose values are copied. -/
def isValueType : Category → Bool
  | valueType | enum | nullable => true
  | category => category.isPrimitive

/-- The two sorts of array. -/
def isArray : Category → Bool
  | array | szArray => true
  | _ => false

end Category

/-- A type of the core library that a type system recognises. -/
inductive WellKnown where
  | void | boolean | char
  | sByte | byte | int16 | uInt16 | int32 | uInt32 | int64 | uInt64
  | intPtr | uIntPtr | single | double
  | valueType | enum | nullable
  | object | string | array | multicastDelegate
  | runtimeTypeHandle | runtimeMethodHandle | runtimeFieldHandle
  | exception | typedReference
deriving DecidableEq, Repr

namespace WellKnown

/-- Every well-known type, in the order in which a type system looks for
them. -/
def all : List WellKnown :=
  [void, boolean, char, sByte, byte, int16, uInt16, int32, uInt32, int64,
    uInt64, intPtr, uIntPtr,
    single, double, valueType, enum, nullable, object, string, array,
    multicastDelegate,
    runtimeTypeHandle, runtimeMethodHandle, runtimeFieldHandle, exception,
    typedReference]

/-- The name of the kind. -/
def name : WellKnown → String
  | void => "Void"
  | boolean => "Boolean"
  | char => "Char"
  | sByte => "SByte"
  | byte => "Byte"
  | int16 => "Int16"
  | uInt16 => "UInt16"
  | int32 => "Int32"
  | uInt32 => "UInt32"
  | int64 => "Int64"
  | uInt64 => "UInt64"
  | intPtr => "IntPtr"
  | uIntPtr => "UIntPtr"
  | single => "Single"
  | double => "Double"
  | valueType => "ValueType"
  | enum => "Enum"
  | nullable => "Nullable"
  | object => "Object"
  | string => "String"
  | array => "Array"
  | multicastDelegate => "MulticastDelegate"
  | runtimeTypeHandle => "RuntimeTypeHandle"
  | runtimeMethodHandle => "RuntimeMethodHandle"
  | runtimeFieldHandle => "RuntimeFieldHandle"
  | exception => "Exception"
  | typedReference => "TypedReference"

/-- The namespace that declares every well-known type. -/
def home : String := "System"

/-- The name under which the core library declares the type: generic types carry
their number of parameters. -/
def typeName : WellKnown → String
  | nullable => "Nullable`1"
  | kind => kind.name

/-- The category a type has by being well known. -/
def fixedCategory? : WellKnown → Option Category
  | void => some .void
  | boolean => some .boolean
  | char => some .char
  | sByte => some .sByte
  | byte => some .byte
  | int16 => some .int16
  | uInt16 => some .uInt16
  | int32 => some .int32
  | uInt32 => some .uInt32
  | int64 => some .int64
  | uInt64 => some .uInt64
  | intPtr => some .intPtr
  | uIntPtr => some .uIntPtr
  | single => some .single
  | double => some .double
  | nullable => some .nullable
  | _ => none

/-- The kind of a given name. -/
def ofName? (name : String) :
    Option WellKnown := all.find? fun kind => kind.name == name

@[simp]
theorem mem_all (kind : WellKnown) : kind ∈ all := by cases kind <;> decide

end WellKnown

end CliMetadata
