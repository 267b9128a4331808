import CliMetadata.TypeSystem.Enumeration

/-!
# What members say

The name, the signature and the generic parameters of a method, and the name and
the type of a field.  A member's declaration is read from its row; a view says
the same with the arguments of its owner in place of type variables.
-/

namespace CliMetadata

/-! ### Signatures of modules -/

/-- The flags that a method signature resolves to. -/
def MethodSig.resolvedFlags (signature : MethodSig) : SignatureFlags :=
  ⟨signature.conventions.code.toUInt16
    ||| (if signature.hasThis then 0 else 0x10)
    ||| (if signature.explicitThis then 0x20 else 0)⟩

/-- The modifiers at a position of a signature. -/
def Module.resolveModifiers (m : Module) (position : Nat) :
    List Modifier → Query (List ResolvedModifier)
  | [] => return []
  | modifier :: rest => do
      let type ← m.requiredType modifier.type
      return ⟨position, modifier.isRequired, type⟩ ::
        (← m.resolveModifiers position rest)

/-- The type at a position of a signature, and its modifiers. -/
def Module.resolveParam (m : Module) (position : Nat) (param : ParamSig) :
    Query (Ty × List ResolvedModifier) := do
  let modifiers ← m.resolveModifiers position param.modifiers
  let type ← m.resolve param.type
  return (← if param.byRef then shapeOf .byRef type else pure type, modifiers)

/-- The types at the positions from a given one on, and their modifiers. -/
def Module.resolveParams (m : Module) (position : Nat) :
    List ParamSig → Query (List (Ty × List ResolvedModifier))
  | [] => return []
  | param :: rest => do
      let first ← m.resolveParam position param
      return first :: (← m.resolveParams (position + 1) rest)

/-- The method signature that a signature of a module spells.  Parameters that
call sites add do not belong to it. -/
def Module.resolveMethod (m : Module) (signature : MethodSig) :
    Query MethodSignature := do
  requireTypeSystem
  let (result, resultModifiers) ← m.resolveParam 0 signature.result
  let parameters ← m.resolveParams 1 signature.params
  return {
    flags := signature.resolvedFlags
    genericCount := signature.genericCount
    result
    parameters := parameters.map Prod.fst
    modifiers := resultModifiers ++ parameters.flatMap Prod.snd }

/-! ### Substitution in signatures -/

/-- A modifier with type variables replaced. -/
def ResolvedModifier.substituted (modifier : ResolvedModifier)
    (types : List Ty) :
    Query ResolvedModifier :=
  return { modifier with type := ← modifier.type.substituted types [] }

/-- A signature with type variables replaced.  No arguments leave it as it
is. -/
def MethodSignature.substituted (signature : MethodSignature)
    (types : List Ty) :
    Query MethodSignature := do
  if types.isEmpty then return signature
  let parameters ← signature.parameters.mapM (·.substituted types [])
  let modifiers ← signature.modifiers.mapM (·.substituted types)
  let result ← signature.result.substituted types []
  return { signature with result, parameters, modifiers }

/-! ### Methods -/

namespace MethodDefinition

/-- The name in the row of a method. -/
def text (d : MethodDefinition) : Query String :=
  Query.remember (.ofMethod (.definition d) .name) do
    (← reachModule d.module).image.string d.name

/-- The signature in the row of a method. -/
def resolved (d : MethodDefinition) : Query MethodSignature :=
  Query.remember (.ofMethod (.definition d) .signature) do
    let m ← reachModule d.module
    let blob ← m.image.blob d.signature
    m.resolveMethod
      (← MethodSig.ofBytes (← read).options.maxSignatureDepth blob)

/-- The generic parameters that a method declares. -/
def parameters (d : MethodDefinition) : Query (List Ty) :=
  Query.remember (.ofMethod (.definition d) .parameters) do
    (← reachModule d.module).parametersOf d.token

end MethodDefinition

namespace Method

/-- The name of a method. -/
def name (method : Method) : Query String := method.declaration.text

/-- The signature of a method. -/
def signature : Method → Query MethodSignature
  | .definition d => d.resolved
  | .view method owner =>
      Query.remember (.ofMethod (.view method owner) .signature) do
        let signature ← method.signature
        signature.substituted (← owner.instantiation)

/-- The generic parameters of a method. -/
def parameters : Method → Query (List Ty)
  | .definition d => d.parameters
  | .view method owner =>
      Query.remember (.ofMethod (.view method owner) .parameters)
        method.parameters

/-- Whether the method makes instances of its owner. -/
def isConstructor (method : Method) : Query Bool := do
  if ¬ method.flags.isRuntimeSpecial then return false
  return (← method.name) = ".ctor"

/-- Whether the method sets its owner up. -/
def isStaticConstructor (method : Method) : Query Bool := do
  if ¬ method.flags.isRuntimeSpecial then return false
  return (← method.name) = ".cctor"

end Method

/-! ### Fields -/

namespace FieldDefinition

/-- The name in the row of a field. -/
def text (d : FieldDefinition) : Query String :=
  Query.remember (.ofField (.definition d) .name) do
    (← reachModule d.module).image.string d.name

/-- The type in the row of a field; its modifiers do not matter. -/
def type (d : FieldDefinition) : Query Ty :=
  Query.remember (.ofField (.definition d) .type) do
    let m ← reachModule d.module
    let blob ← m.image.blob d.signature
    m.resolve (← FieldSig.ofBytes (← read).options.maxSignatureDepth blob).type

end FieldDefinition

namespace Field

/-- The name of a field. -/
def name (field : Field) : Query String := field.declaration.text

/-- The type of a field. -/
def type : Field → Query Ty
  | .definition d => d.type
  | .view field owner =>
      Query.remember (.ofField (.view field owner) .type) do
        let type ← field.type
        type.substituted (← owner.instantiation) []

end Field

end CliMetadata
