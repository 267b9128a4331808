import CliMetadata.Heap.Blobs
import CliMetadata.Heap.Strings
import CliMetadata.Table.Row

/-!
# The metadata of a module

An `Image` is what a module's metadata says: its tables and heaps.  Rows are
found by token.  The relations between rows (the members of a type, the generic
parameters of an owner, the attributes of a parent, and nesting) are read off
the tables, so two views of one relation cannot disagree.

An image may be amended: rows and relations are then answered differently for
chosen tokens.  This is how metadata is described that no builder produces.
-/

namespace CliMetadata

/-- The rows of a module, table by table. -/
structure Tables where
  assemblyRefs : Array AssemblyRefRow := #[]
  typeRefs : Array TypeRefRow := #[]
  typeDefs : Array TypeDefRow := #[]
  typeSpecs : Array TypeSpecRow := #[]
  methodDefs : Array MethodDefRow := #[]
  fields : Array FieldRow := #[]
  memberRefs : Array MemberRefRow := #[]
  genericParams : Array GenericParamRow := #[]
  customAttributes : Array CustomAttributeRow := #[]
  classLayouts : Array ClassLayoutRow := #[]
  nestedClasses : Array NestedClassRow := #[]

/-- The row that a token of the given table names. -/
def rowAt? {ρ : Type} (kind : TableKind) (rows : Array ρ) (token : Token) :
    Option ρ :=
  if token.isIn kind ∧ ¬ token.isNull then rows[token.row.toNat - 1]? else none

namespace Tables

/-- The generic parameters of an owner, in order. -/
def genericParamsOf (tables : Tables) (owner : Token) : List Token :=
  (tables.genericParams.toList.filter (·.owner = owner)).map (·.token)

/-- The attributes of a parent, in order. -/
def attributesOf (tables : Tables) (parent : Token) : List CustomAttributeRow :=
  tables.customAttributes.toList.filter (·.parent = parent)

/-- The types nested in a type, in order. -/
def nestedIn (tables : Tables) (enclosing : Token) : List Token :=
  (tables.nestedClasses.toList.filter (·.enclosing = enclosing)).map (·.nested)

/-- The type that a type is nested in. -/
def enclosing? (tables : Tables) (nested : Token) : Option Token :=
  (tables.nestedClasses.find? (·.nested = nested)).map (·.enclosing)

/-- The layout that a type asks for. -/
def layoutOf? (tables : Tables) (type : Token) : Option ClassLayoutRow :=
  tables.classLayouts.find? (·.parent = type)

/-- The type that declares a method. -/
def methodOwner? (tables : Tables) (method : Token) : Option Token :=
  (tables.typeDefs.find? (·.methods.contains method)).map (·.token)

/-- The type that declares a field. -/
def fieldOwner? (tables : Tables) (field : Token) : Option Token :=
  (tables.typeDefs.find? (·.fields.contains field)).map (·.token)

end Tables

/-- Answers that replace those of the tables, the latest first. -/
structure Amendments where
  typeDefCount : Option UInt32 := none
  assemblyRefs : List (Token × Option AssemblyRefRow) := []
  typeRefs : List (Token × Option TypeRefRow) := []
  typeDefs : List (Token × Option TypeDefRow) := []
  typeSpecs : List (Token × Option TypeSpecRow) := []
  methodDefs : List (Token × Option MethodDefRow) := []
  fields : List (Token × Option FieldRow) := []
  memberRefs : List (Token × Option MemberRefRow) := []
  genericParams : List (Token × Option GenericParamRow) := []
  genericParamsOf : List (Token × List Token) := []
  attributesOf : List (Token × List CustomAttributeRow) := []
  nestedIn : List (Token × List Token) := []
  enclosing : List (Token × Option Token) := []
  methodOwner : List (Token × Option Token) := []
  fieldOwner : List (Token × Option Token) := []

/-- What a module's metadata says. -/
structure Image where
  /-- The assembly's name, by which other modules refer to this one. -/
  assembly : String
  tables : Tables
  strings : Array UInt8
  blobs : Array UInt8
  amendments : Amendments := {}

/-- The amended answer for a token, if there is one. -/
def amended {ρ : Type} (changes : List (Token × ρ)) (token : Token)
    (otherwise : ρ) : ρ :=
  (changes.lookup token).getD otherwise

namespace Image

variable (image : Image)

/-- The string heap, if it is valid. -/
def stringHeap : Except Error StringHeap := StringHeap.ofBytes image.strings

/-- The blob heap, if it is valid. -/
def blobHeap : Except Error BlobHeap := BlobHeap.ofBytes image.blobs

/-- The string at an index. -/
def string (index : UInt32) :
    Except Error String := do (← image.stringHeap).get index

/-- The blob at an index. -/
def blob (index : UInt32) :
    Except Error (List UInt8) := do (← image.blobHeap).get index

/-! ### Rows -/

/-- The number of types, which are numbered from one. -/
def typeDefCount : UInt32 :=
  image.amendments.typeDefCount.getD (UInt32.ofNat image.tables.typeDefs.size)

/-- The row of an assembly reference. -/
def assemblyRef? (token : Token) : Option AssemblyRefRow :=
  amended image.amendments.assemblyRefs token
    (rowAt? .assemblyRef image.tables.assemblyRefs token)

/-- The row of a type reference. -/
def typeRef? (token : Token) : Option TypeRefRow :=
  amended image.amendments.typeRefs token
    (rowAt? .typeRef image.tables.typeRefs token)

/-- The row of a type. -/
def typeDef? (token : Token) : Option TypeDefRow :=
  amended image.amendments.typeDefs token
    (rowAt? .typeDef image.tables.typeDefs token)

/-- The row of a type specification. -/
def typeSpec? (token : Token) : Option TypeSpecRow :=
  amended image.amendments.typeSpecs token
    (rowAt? .typeSpec image.tables.typeSpecs token)

/-- The row of a method. -/
def methodDef? (token : Token) : Option MethodDefRow :=
  amended image.amendments.methodDefs token
    (rowAt? .methodDef image.tables.methodDefs token)

/-- The row of a field. -/
def field? (token : Token) : Option FieldRow :=
  amended image.amendments.fields token
    (rowAt? .field image.tables.fields token)

/-- The row of a member reference. -/
def memberRef? (token : Token) : Option MemberRefRow :=
  amended image.amendments.memberRefs token
    (rowAt? .memberRef image.tables.memberRefs token)

/-- The row of a generic parameter. -/
def genericParam? (token : Token) : Option GenericParamRow :=
  amended image.amendments.genericParams token
    (rowAt? .genericParam image.tables.genericParams token)

/-! ### Relations -/

/-- The generic parameters of an owner, in order. -/
def genericParamsOf (owner : Token) : List Token :=
  amended image.amendments.genericParamsOf owner
    (image.tables.genericParamsOf owner)

/-- The attributes of a parent, in order. -/
def attributesOf (parent : Token) : List CustomAttributeRow :=
  amended image.amendments.attributesOf parent
    (image.tables.attributesOf parent)

/-- The types nested in a type, in order. -/
def nestedIn (enclosing : Token) : List Token :=
  amended image.amendments.nestedIn enclosing (image.tables.nestedIn enclosing)

/-- The type that a type is nested in. -/
def enclosing? (nested : Token) : Option Token :=
  amended image.amendments.enclosing nested (image.tables.enclosing? nested)

/-- The type that declares a method. -/
def methodOwner? (method : Token) : Option Token :=
  amended image.amendments.methodOwner method (image.tables.methodOwner? method)

/-- The type that declares a field. -/
def fieldOwner? (field : Token) : Option Token :=
  amended image.amendments.fieldOwner field (image.tables.fieldOwner? field)

/-- The layout that a type asks for. -/
def layoutOf? (type : Token) :
    Option ClassLayoutRow := image.tables.layoutOf? type

end Image

end CliMetadata
