import CliMetadata.TypeSystem.Dispatch

/-!
# From tokens to types and members

Any token of a module that denotes a type or a member leads to it.  A reference
to a member says where to look and by which name and signature; it is looked for
in the type it names and then in the bases of that type.
-/

namespace CliMetadata

/-- What a token can lead to. -/
inductive Entity where
  | type (type : Ty)
  | method (method : Method)
  | field (field : Field)
deriving DecidableEq, Repr

/-- The field of a name in a type or its bases. -/
def Ty.inheritedField (t : Ty) (name : String) : Query (Option Field) :=
  alongBases (·.fieldNamed name) t

/-- The method of a name and signature in a type or its bases. -/
def Ty.inheritedMethod (t : Ty) (name : String) (signature : MethodSignature) :
    Query (Option Method) :=
  alongBases (·.method name (some signature) []) t

/-- What a signature means when it is seen from a type: the arguments of an
applied definition stand in for its type variables. -/
def MethodSignature.seenFrom (signature : MethodSignature) :
    Ty → Query MethodSignature
  | .applied _ arguments => signature.substituted arguments
  | _ => return signature

/-- The member that a reference spells, in the type that it names or in the
bases of the type. -/
def Module.inheritedMember (m : Module) (row : MemberRefRow) :
    Query (Option Entity) := do
  let some parent ← m.type row.parent | return none
  let name ← m.image.string row.name
  let blob ← m.image.blob row.signature
  requireTypeSystem
  if FieldSig.startsAt blob then
    return (← parent.inheritedField name).map Entity.field
  let spelled ← MethodSig.ofBytes (← read).options.maxSignatureDepth blob
  let wanted ← (← m.resolveMethod spelled).seenFrom parent
  return (← parent.inheritedMethod name wanted).map Entity.method

/-- What a reference to a member means. -/
def Module.referencedMember (m : Module) (token : Token) :
    Query (Option Entity) := do
  let some row := m.image.memberRef? token | throw (.missingRow token)
  if row.parent.isIn .methodDef
    then return some (.method (← m.method row.parent none))
  if row.parent.isIn .moduleRef
    then throw (.notSupported (.memberInModule token))
  m.inheritedMember row

/-- What a token of a module leads to. -/
def Module.entity (m : Module) (token : Token) : Query (Option Entity) := do
  match token.kind? with
  | some .typeDef | some .typeRef | some .typeSpec =>
    return (← m.type token).map Entity.type
  | some .genericParam => return some (.type (← m.parameter token))
  | some .methodDef => return some (.method (← m.method token none))
  | some .field => return some (.field (← m.field token none))
  | some .memberRef => m.referencedMember token
  | _ => throw (.notSupported (.neitherTypeNorMember token))

end CliMetadata
