import CliMetadata.Signature.Decode
import CliMetadata.TypeSystem.Construction

/-!
# From tokens to types

A token of a module leads to a type in three ways: it names a definition, it
refers to a type by name in a scope, or its row spells the type as a signature.
References and signatures lead to further tokens, so `Module.typeWithin` is
given the number of steps that it may take.  A chain of references visits no row
twice unless it is a circle, and so `Module.type`, which may take as many steps
as there are rows, misses nothing but circles.
-/

namespace CliMetadata

/-- The well-known type that a primitive of signatures means. -/
def Primitive.wellKnown : Primitive → WellKnown
  | .void => .void
  | .boolean => .boolean
  | .char => .char
  | .i1 => .sByte
  | .u1 => .byte
  | .i2 => .int16
  | .u2 => .uInt16
  | .i4 => .int32
  | .u4 => .uInt32
  | .i8 => .int64
  | .u8 => .uInt64
  | .r4 => .single
  | .r8 => .double
  | .string => .string
  | .typedByRef => .typedReference
  | .i => .intPtr
  | .u => .uIntPtr
  | .object => .object

section
variable (resolve : Resolver)

/-! ### Types by name -/

/-- The type of a module with a given name, unless it is nested in another. -/
def Module.typeNamedWith (m : Module) (namespaceName name : String) :
    Query (Option Ty) := do
  match (← m.index).lookup (namespaceName, name) with
  | some token => resolve m token
  | none => return none

/-- The first of the given types that has the given name, which tells the
namespace where the type has one. -/
def Module.nestedNamedWith (m : Module) (name : String) :
    List Token → Query (Option Ty)
  | [] => return none
  | token :: rest => do
      let some row := m.image.typeDef? token | throw (.missingRow token)
      let nestedName ← m.image.string row.name
      let nestedNamespace ← m.image.string row.namespaceName
      if qualified nestedNamespace nestedName = name then resolve m token
      else m.nestedNamedWith name rest

/-- The type of a given name that is nested in a type. -/
def Ty.nestedTypeWith (t : Ty) (name : String) : Query (Option Ty) := do
  let some d := t.definition? | return none
  let m ← reachModule d.module
  let _ ← m.image.stringHeap
  m.nestedNamedWith resolve name (m.image.nestedIn d.token)

/-! ### Signatures -/

/-- The type of a token that has to lead to one. -/
def Module.requiredTypeWith (m : Module) (token : Token) : Query Ty := do
  match ← resolve m token with
  | some t => return t
  | none =>
      match m.image.typeRef? token with
      | some row =>
          let namespaceName ← m.image.string row.namespaceName
          let name ← m.image.string row.name
          throw (.typeLoad ⟨m.name, namespaceName, name⟩ .missingReference)
      | none => throw (.typeLoad ⟨m.name, "", token.text⟩ .missingReference)

mutual

/-- The type that a signature of a module spells. -/
def TypeSig.resolveWith (m : Module) (signature : TypeSig) : Query Ty := do
  requireTypeSystem
  match signature with
  | .primitive kind => wellKnown kind.wellKnown
  | .valueType token | .referenceType token => m.requiredTypeWith resolve token
  | .typeVar index => variableOf index false
  | .methodVar index => variableOf index true
  | .pointer _ target => do shapeOf .pointer (← target.resolveWith m)
  | .byRef target => do shapeOf .byRef (← target.resolveWith m)
  | .pinned target => target.resolveWith m
  | .vector _ element => do shapeOf .vector (← element.resolveWith m)
  | .array element rank _ _ =>
    do shapeOf (.array rank) (← element.resolveWith m)
  | .generic definition arguments => do
      let definition ← definition.resolveWith m
      let arguments ← TypeSig.resolveEachWith m arguments
      instantiateWith resolve definition arguments
  | .function _ => throw (.notSupported .functionPointer)

/-- The types that several signatures spell. -/
def TypeSig.resolveEachWith (m : Module) : List TypeSig → Query (List Ty)
  | [] => return []
  | signature :: rest => do
      let first ← signature.resolveWith m
      return first :: (← TypeSig.resolveEachWith m rest)

end

/-! ### Tokens -/

/-- The type that a reference means. -/
def Module.referencedTypeWith (m : Module) (token : Token) :
    Query (Option Ty) := do
  let some row := m.image.typeRef? token | throw (.missingRow token)
  let name ← m.image.string row.name
  let namespaceName ← m.image.string row.namespaceName
  match row.scope.kind? with
  | some .assemblyRef =>
      let some assembly :=
        m.image.assemblyRef? row.scope | throw (.missingRow row.scope)
      let assemblyName ← m.image.string assembly.name
      requireTypeSystem
      match (← read).module? assemblyName with
      | some other => other.typeNamedWith resolve namespaceName name
      | none => return none
  | some .module => m.typeNamedWith resolve namespaceName name
  | some .typeRef =>
      match ← resolve m row.scope with
      | some enclosing =>
        enclosing.nestedTypeWith resolve (qualified namespaceName name)
      | none => return none
  | some .moduleRef => throw (.notSupported (.typeInModule token))
  | _ => throw (.malformed (.resolutionScope row.scope token))

/-- The type that a row spells as a signature. -/
def Module.specifiedTypeWith (m : Module) (token : Token) : Query Ty := do
  let some row := m.image.typeSpec? token | throw (.missingRow token)
  let blob ← m.image.blob row.signature
  let signature ← TypeSig.ofBytes (← read).options.maxSignatureDepth blob
  signature.resolveWith resolve m

/-- The type that a token of a module leads to, whatever it was found to be
before. -/
def Module.typeWith (m : Module) (token : Token) : Query (Option Ty) := do
  match token.kind? with
  | some .typeDef =>
    return some (← Query.share (.definition (← m.definition token)))
  | some .typeRef => m.referencedTypeWith resolve token
  | some .typeSpec => return some (← m.specifiedTypeWith resolve token)
  | _ => throw (.malformed (.notAType token))

end

/-- The type that a token of a module leads to within `room` steps. -/
def Module.typeWithin : (room : Nat) → Resolver
  | 0, m, token =>
    if token.isNull then return none else throw (.circular m.name token)
  | room + 1, m, token => do
      if token.isNull then return none
      Query.rememberIf (.resolved m.name token) Option.isSome
        (m.typeWith (Module.typeWithin room) token)

/-- More than the number of rows that refer to types. -/
def Registry.referenceBound (registry : Registry) : Nat :=
  registry.modules.foldl
    (fun rows m => rows + m.image.tables.typeRefs.size
      + m.image.amendments.typeRefs.length
      + m.image.tables.typeSpecs.size + m.image.amendments.typeSpecs.length)
    (registry.patience + 1)

/-- The type that a token of a module leads to. -/
def Module.type (m : Module) (token : Token) : Query (Option Ty) := do
  Module.typeWithin (← read).referenceBound m token

/-! ### What follows any token -/

/-- The type of a module with a given name, unless it is nested in another. -/
def Module.typeNamed (m : Module) (namespaceName name : String) :
    Query (Option Ty) :=
  m.typeNamedWith Module.type namespaceName name

/-- The type that a token of a module has to lead to. -/
def Module.requiredType (m : Module) (token : Token) : Query Ty :=
  m.requiredTypeWith Module.type token

/-- The type that a signature of a module spells. -/
def Module.resolve (m : Module) (signature : TypeSig) : Query Ty :=
  signature.resolveWith Module.type m

/-- The type of a given name that is nested in a type. -/
def Ty.nestedType (t : Ty) (name : String) :
    Query (Option Ty) := t.nestedTypeWith Module.type name

/-- The type that a definition is nested in. -/
def TypeDefinition.containing (d : TypeDefinition) : Query (Option Ty) :=
  d.containingWith Module.type

/-- The type that a type is nested in. -/
def Ty.containing (t : Ty) : Query (Option Ty) :=
  match t.definition? with
  | some d => d.containing
  | none => return none

/-- The full name of a type. -/
def Ty.fullName (t : Ty) : Query String := t.fullNameWith Module.type

/-- The full name of a type, or a placeholder. -/
def Ty.display (t : Ty) : Query String := t.displayWith Module.type

/-- A generic definition applied to arguments. -/
def instantiate (definition : Ty) (arguments : List Ty) : Query Ty :=
  instantiateWith Module.type definition arguments

/-- A type with variables replaced by type and method arguments. -/
def Ty.substituted (t : Ty) (types methods : List Ty) : Query Ty :=
  t.substituteWith Module.type types methods

end CliMetadata
