import CliMetadata.Attribute.Encode
import CliMetadata.Signature.Encode
import CliMetadata.Table.Image

/-!
# Building the metadata of a module

A `ModuleBuilder` appends rows table by table and lays out the heaps.  Each
`Call` adds one row and answers its token; a call that fails leaves the builder
as it was.  Every module starts with a type for its global members,
`ModuleBuilder.new` adds it.  `ModuleBuilder.image` is the finished metadata.

The steps of a call are written for any monad that has a builder as its state,
so that they can be run in two ways: as a `Build`, which gives up what was built
when it fails, and as a `BuildInPlace`, which does not.  A step that cannot fail
asks for the state only.
-/

namespace CliMetadata

/-- A module's metadata under construction. -/
structure ModuleBuilder where
  /-- The assembly's name. -/
  assembly : String
  tables : Tables := {}
  strings : StringHeap.Builder := {}
  blobs : BlobHeap.Builder := {}

/-- A step that builds on a module and may fail, in which case nothing is
built. -/
abbrev Build (α : Type) := StateT ModuleBuilder (Except Error) α

/-- A step that builds on a module and may fail, in which case what was built so
far is left. -/
abbrev BuildInPlace (α : Type) := ExceptT Error (StateM ModuleBuilder) α

namespace ModuleBuilder

section
variable {m : Type → Type} [Monad m] [MonadStateOf ModuleBuilder m]

/-- Puts a name into the string heap. -/
def addString (text : String) : m UInt32 :=
  modifyGet fun b =>
    let (index, strings) := b.strings.add text
    (index, { b with strings })

/-- Puts a blob into the blob heap. -/
def addBlob (blob : List UInt8) : m UInt32 :=
  modifyGet fun b =>
    let (index, blobs) := b.blobs.add blob
    (index, { b with blobs })

/-- Changes the tables. -/
def modifyTables (change : Tables → Tables) : m Unit :=
  modify fun b => { b with tables := change b.tables }

/-- The number of the row that comes after the given ones. -/
def nextNumber {ρ : Type} (rows : Array ρ) :
    UInt32 := UInt32.ofNat (rows.size + 1)

/-- Adds a reference to an assembly. -/
def assemblyRef (name : String) : m Token := do
  let number := nextNumber (← get).tables.assemblyRefs
  let token := Token.ofParts .assemblyRef number
  let name ← addString name
  modifyTables fun t =>
    { t with assemblyRefs := t.assemblyRefs.push { number, token, name } }
  return token

/-- Adds a reference to a type. -/
def typeRef (scope : Token) (namespaceName name : String) : m Token := do
  let number := nextNumber (← get).tables.typeRefs
  let token := Token.ofParts .typeRef number
  let name ← addString name
  let namespaceName ← addString namespaceName
  modifyTables fun t =>
    { t with
      typeRefs := t.typeRefs.push { number, token, scope, name, namespaceName } }
  return token

/-- Adds a type. -/
def typeDef (namespaceName name : String) (flags : TypeFlags) (base : Token) :
    m Token := do
  let number := nextNumber (← get).tables.typeDefs
  let token := Token.ofParts .typeDef number
  let name ← addString name
  let namespaceName ← addString namespaceName
  modifyTables fun t =>
    { t with typeDefs :=
      t.typeDefs.push { number, token, flags, name, namespaceName, base } }
  return token

/-- Adds a type nested in another. -/
def nestedTypeDef (enclosing : Token) (namespaceName name : String)
    (flags : TypeFlags) (base : Token) : m Token := do
  let nested ← typeDef namespaceName name flags base
  modifyTables fun t =>
    { t with nestedClasses := t.nestedClasses.push { nested, enclosing } }
  return nested

/-- Adds a type that a signature spells out. -/
def typeSpec [MonadLiftT (Except Error) m] (signature : TypeSig) : m Token := do
  let blob ← signature.encode
  let number := nextNumber (← get).tables.typeSpecs
  let token := Token.ofParts .typeSpec number
  let signature ← addBlob blob
  modifyTables fun t =>
    { t with typeSpecs := t.typeSpecs.push { number, token, signature } }
  return token

/-- The place of a type of this module among the rows. -/
def typeIndex [MonadExceptOf Error m] (owner : Token) : m Nat := do
  if owner.isIn .typeDef ∧ ¬ owner.isNull ∧
      owner.row.toNat ≤ (← get).tables.typeDefs.size then
    return owner.row.toNat - 1
  throw (.malformed (.foreignOwner owner))

/-- Adds a method to a type. -/
def methodDef [MonadExceptOf Error m] [MonadLiftT (Except Error) m]
    (owner : Token) (name : String) (flags : MethodFlags)
    (signature : MethodSig) : m Token := do
  let blob ← signature.encode
  let index ← typeIndex owner
  let number := nextNumber (← get).tables.methodDefs
  let token := Token.ofParts .methodDef number
  let name ← addString name
  let signature ← addBlob blob
  modifyTables fun t =>
    { t with
      methodDefs := t.methodDefs.push { number, token, flags, name, signature }
      typeDefs :=
        t.typeDefs.modify index fun row =>
          { row with methods := row.methods ++ [token] } }
  return token

/-- Adds a field to a type. -/
def field [MonadExceptOf Error m] [MonadLiftT (Except Error) m] (owner : Token)
    (name : String) (flags : FieldFlags) (signature : FieldSig) : m Token := do
  let blob ← signature.encode
  let index ← typeIndex owner
  let number := nextNumber (← get).tables.fields
  let token := Token.ofParts .field number
  let name ← addString name
  let signature ← addBlob blob
  modifyTables fun t =>
    { t with
      fields := t.fields.push { number, token, flags, name, signature }
      typeDefs := t.typeDefs.modify index fun row =>
        { row with fields := row.fields ++ [token] } }
  return token

/-- Adds a reference to a member with the given signature bytes. -/
def memberRefWith (parent : Token) (name : String) (blob : List UInt8) :
    m Token := do
  let number := nextNumber (← get).tables.memberRefs
  let token := Token.ofParts .memberRef number
  let name ← addString name
  let signature ← addBlob blob
  modifyTables fun t =>
    { t with memberRefs :=
      t.memberRefs.push { number, token, parent, name, signature } }
  return token

/-- Adds a reference to a method. -/
def methodRef [MonadLiftT (Except Error) m] (parent : Token) (name : String)
    (signature : MethodSig) : m Token := do
  memberRefWith parent name (← signature.encode)

/-- Adds a reference to a field. -/
def fieldRef [MonadLiftT (Except Error) m] (parent : Token) (name : String)
    (signature : FieldSig) : m Token := do
  memberRefWith parent name (← signature.encode)

/-- Adds a generic parameter behind those that its owner has. -/
def genericParam (owner : Token) (name : String) (flags : GenericParamFlags) :
    m Token := do
  let number := nextNumber (← get).tables.genericParams
  let token := Token.ofParts .genericParam number
  let name ← addString name
  modifyTables fun t =>
    let position := UInt32.ofNat (t.genericParamsOf owner).length
    { t with genericParams :=
      t.genericParams.push { number, token, position, flags, owner, name } }
  return token

/-- Applies an attribute with constant arguments to a parent. -/
def customAttribute [MonadLiftT (Except Error) m] (parent constructor : Token)
    (arguments : List Argument) : m Token := do
  let blob ← encodeAttribute arguments
  let number := nextNumber (← get).tables.customAttributes
  let token := Token.ofParts .customAttribute number
  let value ← addBlob blob
  modifyTables fun t =>
    { t with
      customAttributes := t.customAttributes.push
        { number, token, parent, constructor, value } }
  return token

/-- States the layout of a type, in place of what was stated before.  The row
takes the number after that of all rows so far, the replaced one included. -/
def classLayout (parent : Token) (packing : UInt16) (size : UInt32) :
    m Token := do
  let number := nextNumber (← get).tables.classLayouts
  let token := Token.ofParts .classLayout number
  modifyTables fun t =>
    { t with
      classLayouts := (t.classLayouts.filter (·.parent ≠ parent)).push
        { number, token, packing, size, parent } }
  return token

end

/-- A module with the type of its global members, and nothing else. -/
def new (assembly : String) : ModuleBuilder :=
  match (typeDef "" "<Module>" ⟨0⟩ .null : Build Token).run { assembly } with
  | .ok (_, b) => b
  | .error _ => { assembly }

/-! ### Looking back at what was built -/

/-- The first type with the given name. -/
def findTypeDef? (b : ModuleBuilder) (namespaceName name : String) :
    Option Token := do
  let name ← b.strings.indexOf? name
  let namespaceName ← b.strings.indexOf? namespaceName
  let row ← b.tables.typeDefs.find? fun row =>
    row.name = name ∧ row.namespaceName = namespaceName
  return row.token

/-- The first method of a type with the given name. -/
def findMethodDef? (b : ModuleBuilder) (owner : Token) (name : String) :
    Option Token := do
  let name ← b.strings.indexOf? name
  let type ← rowAt? .typeDef b.tables.typeDefs owner
  type.methods.find? fun method =>
    (rowAt? .methodDef b.tables.methodDefs method).any (·.name = name)

/-- The finished metadata. -/
def image (b : ModuleBuilder) : Image :=
  { assembly := b.assembly
    tables := b.tables
    strings := b.strings.bytes
    blobs := b.blobs.bytes }

/-! ### Calls as data -/

/-- A call that adds one row. -/
inductive Call where
  | assemblyRef (name : String)
  | typeRef (scope : Token) (namespaceName name : String)
  | typeDef (namespaceName name : String) (flags : TypeFlags) (base : Token)
  | nestedTypeDef (enclosing : Token) (namespaceName name : String)
      (flags : TypeFlags)
      (base : Token)
  | typeSpec (signature : TypeSig)
  | methodDef (owner : Token) (name : String) (flags : MethodFlags)
      (signature : MethodSig)
  | field (owner : Token) (name : String) (flags : FieldFlags)
      (signature : FieldSig)
  | methodRef (parent : Token) (name : String) (signature : MethodSig)
  | fieldRef (parent : Token) (name : String) (signature : FieldSig)
  | genericParam (owner : Token) (name : String) (flags : GenericParamFlags)
  | customAttribute (parent constructor : Token) (arguments : List Argument)
  | classLayout (parent : Token) (packing : UInt16) (size : UInt32)

/-- The steps of a call. -/
def Call.perform {m : Type → Type} [Monad m] [MonadStateOf ModuleBuilder m]
    [MonadExceptOf Error m] [MonadLiftT (Except Error) m] : Call → m Token
  | .assemblyRef name => ModuleBuilder.assemblyRef name
  | .typeRef scope namespaceName name =>
    ModuleBuilder.typeRef scope namespaceName name
  | .typeDef namespaceName name flags base =>
    ModuleBuilder.typeDef namespaceName name flags base
  | .nestedTypeDef enclosing namespaceName name flags base =>
      ModuleBuilder.nestedTypeDef enclosing namespaceName name flags base
  | .typeSpec signature => ModuleBuilder.typeSpec signature
  | .methodDef owner name flags signature =>
    ModuleBuilder.methodDef owner name flags signature
  | .field owner name flags signature =>
    ModuleBuilder.field owner name flags signature
  | .methodRef parent name signature =>
    ModuleBuilder.methodRef parent name signature
  | .fieldRef parent name signature =>
    ModuleBuilder.fieldRef parent name signature
  | .genericParam owner name flags =>
    ModuleBuilder.genericParam owner name flags
  | .customAttribute parent constructor arguments =>
      ModuleBuilder.customAttribute parent constructor arguments
  | .classLayout parent packing size =>
    ModuleBuilder.classLayout parent packing size

/-- What a call does, which is nothing if it fails. -/
def Call.run : Call → Build Token := Call.perform

/-- The answer to a call, and the builder after it: unchanged after a
failure. -/
def apply (b : ModuleBuilder) (call : Call) :
    Except Error Token × ModuleBuilder :=
  match call.run.run b with
  | .ok (token, b) => (.ok token, b)
  | .error error => (.error error, b)

/-- The builder after a sequence of calls. -/
def applyAll (b : ModuleBuilder) (calls : List Call) : ModuleBuilder :=
  calls.foldl (fun b call => (b.apply call).2) b

end ModuleBuilder

end CliMetadata
