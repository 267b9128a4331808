import CliMetadata.Table.Image
import CliMetadata.TypeSystem.Member

/-!
# Modules

A `Module` is the metadata of one assembly together with an index of its types
by name.  The index is a function of the metadata, kept so that it is computed
once, and it cannot differ from what the metadata says.  The rows of a module
become definitions, parameters and members here; which type owns a member is not
a matter of its row and is left to the caller.
-/

namespace CliMetadata

/-! ### Types by name -/

/-- The namespace and name of a type. -/
abbrev TypeName := String × String

/-- The index entry of a type, unless it is nested in another. -/
def Image.nameEntry? (image : Image) (row : UInt32) :
    Except Error (Option (TypeName × Token)) := do
  let token := Token.ofParts .typeDef row
  let some type := image.typeDef? token | throw (.missingRow token)
  if type.flags.isNested then return none
  let namespaceName ← image.string type.namespaceName
  let name ← image.string type.name
  return some ((namespaceName, name), token)

/-- The index entries of the types numbered from `row` on.  The first type that
cannot be read ends the work, however many are said to follow it. -/
def Image.nameEntries (image : Image) (row : Nat) :
    (count : Nat) → Except Error (List (TypeName × Token))
  | 0 => return []
  | count + 1 => do
      let entry ← image.nameEntry? (UInt32.ofNat row)
      return entry.toList ++ (← image.nameEntries (row + 1) count)

/-- The types that are not nested in another, by namespace and name, in the
order of their rows.  No type can be found by name if one of them cannot be
read. -/
def Image.nameIndex (image : Image) :
    Except Error (List (TypeName × Token)) := do
  let _ ← image.stringHeap
  image.nameEntries 1 image.typeDefCount.toNat

/-! ### Modules -/

/-- The metadata of an assembly. -/
structure Module where
  image : Image
  /-- The types by name. -/
  index : Except Error (List (TypeName × Token)) := image.nameIndex
  index_eq : index = image.nameIndex := by rfl

namespace Module

/-- The module of some metadata. -/
def ofImage (image : Image) : Module := { image }

variable (m : Module)

/-- The assembly name, by which other modules refer to the module. -/
def name : String := m.image.assembly

/-- The type that a row declares. -/
def definitionOfRow (row : TypeDefRow) : TypeDefinition :=
  { module := m.name
    token := row.token
    flags := row.flags
    name := row.name
    namespaceName := row.namespaceName
    base := row.base }

/-- The type that a token declares. -/
def definition (token : Token) : Except Error TypeDefinition :=
  match m.image.typeDef? token with
  | some row => .ok (m.definitionOfRow row)
  | none => .error (.missingRow token)

/-- The generic parameter of a row. -/
def parameterOfRow (row : GenericParamRow) : GenericParameter :=
  { module := m.name
    token := row.token
    owner := row.owner
    position := row.position
    flags := row.flags
    name := row.name }

/-- The generic parameter of a token. -/
def genericParameter (token : Token) : Except Error Ty :=
  match m.image.genericParam? token with
  | some row => .ok (.parameter (m.parameterOfRow row))
  | none => .error (.missingRow token)

/-- The method of a row, as a member of a type. -/
def methodOfRow (row : MethodDefRow) (owner : Ty) : Method :=
  .definition
    { module := m.name
      token := row.token
      owner
      flags := row.flags
      implFlags := row.implFlags
      name := row.name
      signature := row.signature }

/-- The field of a row, as a member of a type. -/
def fieldOfRow (row : FieldRow) (owner : Ty) : Field :=
  .definition
    { module := m.name
      token := row.token
      owner
      flags := row.flags
      name := row.name
      signature := row.signature }

end Module

end CliMetadata
