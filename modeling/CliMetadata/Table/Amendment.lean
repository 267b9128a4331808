import CliMetadata.Table.Image

/-!
# Amending metadata

An `Amendment` changes one answer of an `Image`: it replaces columns of a row,
removes a row, restates a relation or replaces a heap.  A column that refers to
a heap can be given the bytes it shall refer to; they are put at the end of the
heap as they are, so that also what no builder writes can be referred to.
Columns of one row that are given bytes put them there in the order of the
columns: names before namespaces, and names before signatures.
-/

namespace CliMetadata

/-- A column that refers to a heap. -/
inductive HeapColumn where
  /-- The place in the heap. -/
  | at (index : UInt32)
  /-- Bytes that are put at the end of the heap. -/
  | bytes (content : List UInt8)
deriving Repr

/-- The place that a column refers to, and the heap after its bytes are put
there. -/
def HeapColumn.place (column : HeapColumn) (heap : Array UInt8) :
    UInt32 × Array UInt8 :=
  match column with
  | .at index => (index, heap)
  | .bytes content => (UInt32.ofNat heap.size, heap ++ content.toArray)

/-- New columns of an assembly reference. -/
structure AssemblyRefColumns where
  name : Option HeapColumn := none

/-- New columns of a type reference. -/
structure TypeRefColumns where
  scope : Option Token := none
  name : Option HeapColumn := none
  namespaceName : Option HeapColumn := none

/-- New columns of a type. -/
structure TypeDefColumns where
  flags : Option TypeFlags := none
  base : Option Token := none
  name : Option HeapColumn := none
  namespaceName : Option HeapColumn := none
  fields : Option (List Token) := none
  methods : Option (List Token) := none

/-- New columns of a type specification. -/
structure TypeSpecColumns where
  signature : Option HeapColumn := none

/-- New columns of a method. -/
structure MethodDefColumns where
  flags : Option MethodFlags := none
  implFlags : Option UInt32 := none
  address : Option UInt32 := none
  name : Option HeapColumn := none
  signature : Option HeapColumn := none

/-- New columns of a field. -/
structure FieldColumns where
  flags : Option FieldFlags := none
  name : Option HeapColumn := none
  signature : Option HeapColumn := none

/-- New columns of a member reference. -/
structure MemberRefColumns where
  parent : Option Token := none
  name : Option HeapColumn := none
  signature : Option HeapColumn := none

/-- New columns of a generic parameter. -/
structure GenericParamColumns where
  flags : Option GenericParamFlags := none
  position : Option UInt32 := none
  owner : Option Token := none
  name : Option HeapColumn := none

/-- New columns of an attribute. -/
structure CustomAttributeColumns where
  constructor : Option Token := none
  value : Option HeapColumn := none

/-- A change of one answer. -/
inductive Amendment where
  | typeDefCount (count : UInt32)
  | strings (heap : Array UInt8)
  | blobs (heap : Array UInt8)
  | genericParamsOf (owner : Token) (params : List Token)
  | nestedIn (enclosing : Token) (nested : List Token)
  | enclosing (nested : Token) (outer : Option Token)
  | methodOwner (method : Token) (owner : Option Token)
  | fieldOwner (field : Token) (owner : Option Token)
  | removeRow (table : TableKind) (token : Token)
  | assemblyRef (token : Token) (columns : AssemblyRefColumns)
  | typeRef (token : Token) (columns : TypeRefColumns)
  | typeDef (token : Token) (columns : TypeDefColumns)
  | typeSpec (token : Token) (columns : TypeSpecColumns)
  | methodDef (token : Token) (columns : MethodDefColumns)
  | field (token : Token) (columns : FieldColumns)
  | memberRef (token : Token) (columns : MemberRefColumns)
  | genericParam (token : Token) (columns : GenericParamColumns)
  /-- The attribute of a parent that `index` others stand before, or a new one
  behind all others. -/
  | customAttribute (parent : Token) (index : Nat)
      (columns : CustomAttributeColumns)

namespace Image

/-- Changes the amendments. -/
def amending (change : Amendments → Amendments) : StateM Image Unit :=
  modify fun image => { image with amendments := change image.amendments }

/-- The place in the string heap that a column refers to, if it is given, and
the old one if not. -/
def placeString (column : Option HeapColumn) (old : UInt32) :
    StateM Image UInt32 :=
  modifyGet fun image =>
    match column with
    | none => (old, image)
    | some column =>
        let (index, strings) := column.place image.strings
        (index, { image with strings })

/-- The place in the blob heap that a column refers to, if it is given, and the
old one if not. -/
def placeBlob (column : Option HeapColumn) (old : UInt32) :
    StateM Image UInt32 :=
  modifyGet fun image =>
    match column with
    | none => (old, image)
    | some column =>
        let (index, blobs) := column.place image.blobs
        (index, { image with blobs })

/-- Removes a row. -/
def removeRow (table : TableKind) (token : Token) : StateM Image Unit :=
  amending fun a =>
    match table with
    | .assemblyRef => { a with assemblyRefs := (token, none) :: a.assemblyRefs }
    | .typeRef => { a with typeRefs := (token, none) :: a.typeRefs }
    | .typeDef => { a with typeDefs := (token, none) :: a.typeDefs }
    | .typeSpec => { a with typeSpecs := (token, none) :: a.typeSpecs }
    | .methodDef => { a with methodDefs := (token, none) :: a.methodDefs }
    | .field => { a with fields := (token, none) :: a.fields }
    | .memberRef => { a with memberRefs := (token, none) :: a.memberRefs }
    | .genericParam =>
      { a with genericParams := (token, none) :: a.genericParams }
    | _ => a

/-- Replaces columns of an assembly reference. -/
def setAssemblyRef (token : Token) (columns : AssemblyRefColumns) :
    StateM Image Unit := do
  let row := ((← get).assemblyRef? token).getD { number := token.row, token }
  let name ← placeString columns.name row.name
  amending fun a =>
    { a with assemblyRefs := (token, some { row with name }) :: a.assemblyRefs }

/-- Replaces columns of a type reference. -/
def setTypeRef (token : Token) (columns : TypeRefColumns) :
    StateM Image Unit := do
  let row := ((← get).typeRef? token).getD { number := token.row, token }
  let name ← placeString columns.name row.name
  let namespaceName ← placeString columns.namespaceName row.namespaceName
  let row :=
    { row with name, namespaceName, scope := columns.scope.getD row.scope }
  amending fun a => { a with typeRefs := (token, some row) :: a.typeRefs }

/-- Replaces columns of a type. -/
def setTypeDef (token : Token) (columns : TypeDefColumns) :
    StateM Image Unit := do
  let row := ((← get).typeDef? token).getD { number := token.row, token }
  let name ← placeString columns.name row.name
  let namespaceName ← placeString columns.namespaceName row.namespaceName
  let row :=
    { row with
      name, namespaceName
      flags := columns.flags.getD row.flags
      base := columns.base.getD row.base
      fields := columns.fields.getD row.fields
      methods := columns.methods.getD row.methods }
  amending fun a => { a with typeDefs := (token, some row) :: a.typeDefs }

/-- Replaces columns of a type specification. -/
def setTypeSpec (token : Token) (columns : TypeSpecColumns) :
    StateM Image Unit := do
  let row := ((← get).typeSpec? token).getD { number := token.row, token }
  let signature ← placeBlob columns.signature row.signature
  amending fun a =>
    { a with typeSpecs := (token, some { row with signature }) :: a.typeSpecs }

/-- Replaces columns of a method. -/
def setMethodDef (token : Token) (columns : MethodDefColumns) :
    StateM Image Unit := do
  let row := ((← get).methodDef? token).getD { number := token.row, token }
  let name ← placeString columns.name row.name
  let signature ← placeBlob columns.signature row.signature
  let row :=
    { row with
      name, signature
      flags := columns.flags.getD row.flags
      implFlags := columns.implFlags.getD row.implFlags
      address := columns.address.getD row.address }
  amending fun a => { a with methodDefs := (token, some row) :: a.methodDefs }

/-- Replaces columns of a field. -/
def setField (token : Token) (columns : FieldColumns) : StateM Image Unit := do
  let row := ((← get).field? token).getD { number := token.row, token }
  let name ← placeString columns.name row.name
  let signature ← placeBlob columns.signature row.signature
  let row := { row with name, signature, flags := columns.flags.getD row.flags }
  amending fun a => { a with fields := (token, some row) :: a.fields }

/-- Replaces columns of a member reference. -/
def setMemberRef (token : Token) (columns : MemberRefColumns) :
    StateM Image Unit := do
  let row := ((← get).memberRef? token).getD { number := token.row, token }
  let name ← placeString columns.name row.name
  let signature ← placeBlob columns.signature row.signature
  let row :=
    { row with name, signature, parent := columns.parent.getD row.parent }
  amending fun a => { a with memberRefs := (token, some row) :: a.memberRefs }

/-- Replaces columns of a generic parameter. -/
def setGenericParam (token : Token) (columns : GenericParamColumns) :
    StateM Image Unit := do
  let row := ((← get).genericParam? token).getD { number := token.row, token }
  let name ← placeString columns.name row.name
  let row :=
    { row with
      name
      flags := columns.flags.getD row.flags
      position := columns.position.getD row.position
      owner := columns.owner.getD row.owner }
  amending fun a => { a with genericParams :=
    (token, some row) :: a.genericParams }

/-- Replaces columns of an attribute of a parent, or adds an attribute behind
all others. -/
def setCustomAttribute (parent : Token) (index : Nat)
    (columns : CustomAttributeColumns) :
    StateM Image Unit := do
  let rows := (← get).attributesOf parent
  let row := rows[index]?.getD { parent }
  let value ← placeBlob columns.value row.value
  let row :=
    { row with value, constructor := columns.constructor.getD row.constructor }
  let rows := if index < rows.length then rows.set index row else rows ++ [row]
  amending fun a => { a with attributesOf := (parent, rows) :: a.attributesOf }

end Image

/-- What an amendment does. -/
def Amendment.run : Amendment → StateM Image Unit
  | .typeDefCount count =>
    Image.amending fun a => { a with typeDefCount := some count }
  | .strings heap => modify fun image => { image with strings := heap }
  | .blobs heap => modify fun image => { image with blobs := heap }
  | .genericParamsOf owner params =>
      Image.amending fun a => { a with genericParamsOf :=
        (owner, params) :: a.genericParamsOf }
  | .nestedIn outer nested =>
      Image.amending fun a => { a with nestedIn :=
        (outer, nested) :: a.nestedIn }
  | .enclosing nested outer =>
      Image.amending fun a => { a with enclosing :=
        (nested, outer) :: a.enclosing }
  | .methodOwner token owner =>
      Image.amending fun a => { a with methodOwner :=
        (token, owner) :: a.methodOwner }
  | .fieldOwner token owner =>
      Image.amending fun a => { a with fieldOwner :=
        (token, owner) :: a.fieldOwner }
  | .removeRow table token => Image.removeRow table token
  | .assemblyRef token columns => Image.setAssemblyRef token columns
  | .typeRef token columns => Image.setTypeRef token columns
  | .typeDef token columns => Image.setTypeDef token columns
  | .typeSpec token columns => Image.setTypeSpec token columns
  | .methodDef token columns => Image.setMethodDef token columns
  | .field token columns => Image.setField token columns
  | .memberRef token columns => Image.setMemberRef token columns
  | .genericParam token columns => Image.setGenericParam token columns
  | .customAttribute parent index columns =>
    Image.setCustomAttribute parent index columns

/-- The metadata after amendments, each of which sees those before it. -/
def Image.amend (image : Image) (amendments : List Amendment) : Image :=
  ((amendments.forM Amendment.run).run image).2

end CliMetadata
