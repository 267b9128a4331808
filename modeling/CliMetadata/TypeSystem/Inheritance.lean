import CliMetadata.TypeSystem.Resolution

/-!
# Base types

The base of a definition is what its row says; where the row spells a generic
type, the variables in it are the definition's own parameters.  An applied
definition derives from the base of the definition with its arguments in place
of variables, and an array from the type of all arrays. `alongBases` looks for
something in a type, then in its base, and so on, as deep as the options allow.
-/

namespace CliMetadata

/-- How load errors name a definition; what cannot be read is left out. -/
def TypeDefinition.subject (d : TypeDefinition) (moduleName : String) :
    Query Subject := do
  let namespaceName := (← d.namespaceText.attempt).toOption.getD ""
  let name := (← d.simpleName.attempt).toOption.getD ""
  return { module := moduleName, namespaceName, name }

/-- How load errors name a type; what cannot be read is left out. -/
def Ty.subject (t : Ty) : Query Subject := do
  let m := (← t.module?.attempt).toOption.join
  let namespaceName := (← t.namespaceText.attempt).toOption.getD ""
  let name := (← t.simpleName.attempt).toOption.getD ""
  return { module := (m.map Module.name).getD "", namespaceName, name }

/-- The base of a definition as its row says, variables included.  A failure to
load it is reported against the definition, unless it is reported already or the
type system is not ready. -/
def TypeDefinition.openBase (d : TypeDefinition) : Query (Option Ty) := do
  if d.base.isNull then return none
  let m ← reachModule d.module
  match ← (m.type d.base).attempt with
  | .ok none => throw (.typeLoad (← d.subject m.name) (.missingBase d.base))
  | .error cause =>
      if cause.isLoad ∨ cause.isConfiguration then throw cause
      throw (.baseLoad (← d.subject m.name) d.base cause)
  | .ok (some base) =>
      if base.canBeBase then return some base
      let display ← base.display
      throw (.typeLoad (← d.subject m.name) (.unsuitableBase display))

/-- The type that a definition derives from. -/
def TypeDefinition.baseType (d : TypeDefinition) : Query (Option Ty) :=
  Query.remember (.ofType (.definition d) .base) do
    let some base ← d.openBase | return none
    if d.base.isIn .typeSpec then
      let own ← d.parameters
      return some (← base.substituted own [])
    return some base

/-- The type that a type derives from. -/
def Ty.base (t : Ty) : Query (Option Ty) :=
  match t with
  | .definition d => d.baseType
  | .applied d arguments =>
      Query.remember (.ofType t .base) do
        let some base ← d.openBase | return none
        return some (← base.substituted arguments [])
  | .shaped shape _ => do
      if ¬ shape.isArray then return none
      requireTypeSystem
      return some (← wellKnown .array)
  | .parameter _ | .var .. => return none

/-- Whether a type derives from another. -/
def Ty.hasBase (t : Ty) : Query Bool := return (← t.base).isSome

/-- What is known of a base without asking for it. -/
inductive BaseState where
  | unknown
  | none
  | resolved (base : Ty)
deriving DecidableEq, Repr

/-- What is known of a definition's base without asking for it. -/
def TypeDefinition.baseState (d : TypeDefinition) : Query BaseState := do
  match ← Query.established? (.ofType (.definition d) .base) with
  | none => return .unknown
  | some none => return .none
  | some (some base) => return .resolved base

/-- The first answer of a type or one of its bases, at most `limit` of which are
asked. -/
def alongBasesWithin {α : Type} (ask : Ty → Query (Option α)) (limit : Nat) :
    (room : Nat) → Option Ty → Query (Option α)
  | _, none => return none
  | 0, some _ => throw (.tooDeep limit)
  | room + 1, some t => do
      match ← ask t with
      | some answer => return some answer
      | none => alongBasesWithin ask limit room (← t.base)

/-- The first answer of a type or one of its bases. -/
def alongBases {α : Type} (ask : Ty → Query (Option α)) (t : Ty) :
    Query (Option α) := do
  let limit := (← read).options.maxInheritanceDepth
  alongBasesWithin ask limit (limit + 1) (some t)

end CliMetadata
