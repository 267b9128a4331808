import CliMetadata.TypeSystem.Query

/-!
# Names of types

A type's simple name and namespace are those of its definition; its full name
also tells the types that it is nested in and its arguments.  The type around a
nested type is given by a token, and to follow it takes a way from tokens to
types.  This module is therefore about any such `Resolver`; the one that follows
every kind of token itself needs names, for its errors.
-/

namespace CliMetadata

/-- A way from the tokens of a module to types.  There is no type where the
token is null or a reference leads nowhere. -/
abbrev Resolver := Module → Token → Query (Option Ty)

/-! ### Simple names -/

/-- The name in the row of a type. -/
def TypeDefinition.simpleName (d : TypeDefinition) : Query String :=
  Query.remember (.ofType (.definition d) .name) do
    (← reachModule d.module).image.string d.name

/-- The namespace in the row of a type. -/
def TypeDefinition.namespaceText (d : TypeDefinition) : Query String :=
  Query.remember (.ofType (.definition d) .namespaceName) do
    (← reachModule d.module).image.string d.namespaceName

/-- The name of a generic parameter. -/
def GenericParameter.simpleName (p : GenericParameter) : Query String :=
  Query.remember (.ofType (.parameter p) .name) do
    (← reachModule p.module).image.string p.name

/-- The name of a type without the types around it, its namespace and its
arguments. -/
def Ty.simpleName : Ty → Query String
  | .definition d | .applied d _ => d.simpleName
  | .parameter p => p.simpleName
  | .var index isMethod => return Ty.variableText index isMethod
  | .shaped shape element => do return (← element.simpleName) ++ shape.suffix

/-- The namespace of a type. -/
def Ty.namespaceText : Ty → Query String
  | .definition d | .applied d _ => d.namespaceText
  | .shaped _ element => element.namespaceText
  | .parameter _ | .var .. => return ""

/-- The module that declares a type, or the type that it is built over. -/
def Ty.module? : Ty → Query (Option Module)
  | .definition d | .applied d _ => do return some (← reachModule d.module)
  | .parameter p => do return some (← reachModule p.module)
  | .shaped _ element => element.module?
  | .var .. => return none

/-! ### The types around a nested type -/

/-- Whether the types around a type end within `room` steps and without meeting
the type again. -/
def Image.nestingEnds (image : Image) (type : Token) :
    (room : Nat) → Token → Bool
  | 0, _ => false
  | room + 1, current =>
      current ≠ type &&
        match image.enclosing? current with
        | some next => image.nestingEnds type room next
        | none => true

section
variable (resolve : Resolver)

/-- The type that a type is nested in. -/
def TypeDefinition.containingWith (d : TypeDefinition) : Query (Option Ty) := do
  if ¬ d.flags.isNested then return none
  let m ← reachModule d.module
  let some enclosing := m.image.enclosing? d.token
    | throw (.malformed (.notEnclosed d.token))
  requireTypeSystem
  let limit := (← read).options.maxInheritanceDepth
  unless m.image.nestingEnds d.token limit enclosing do throw (.tooDeep limit)
  resolve m enclosing

/-! ### Full names -/

mutual

/-- The full name of a type, given those of definitions. -/
def Ty.fullNameFrom (nameOf : TypeDefinition → Query String) : Ty → Query String
  | .definition d => nameOf d
  | .applied d arguments => do
      let names ← Ty.fullNamesFrom nameOf arguments
      return (← nameOf d) ++ "<" ++ ",".intercalate names ++ ">"
  | .parameter p => p.simpleName
  | .var index isMethod => return Ty.variableText index isMethod
  | .shaped shape element =>
    do return (← Ty.fullNameFrom nameOf element) ++ shape.suffix

/-- The full names of several types. -/
def Ty.fullNamesFrom (nameOf : TypeDefinition → Query String) :
    List Ty → Query (List String)
  | [] => return []
  | t :: rest => do
      let name ← Ty.fullNameFrom nameOf t
      return name :: (← Ty.fullNamesFrom nameOf rest)

end

/-- A name in its namespace. -/
def qualified (namespaceText name : String) : String :=
  if namespaceText.isEmpty then name else namespaceText ++ "." ++ name

/-- The full name of a definition that at most `room` types are around. -/
def TypeDefinition.fullNameWithin : (room : Nat) → TypeDefinition → Query String
  | 0, d => throw (.circular d.module d.token)
  | room + 1, d => do
      let name ← d.simpleName
      match ← d.containingWith resolve with
      | some outer =>
          return (← outer.fullNameFrom (TypeDefinition.fullNameWithin room)) ++
            "+" ++ name
      | none => return qualified (← d.namespaceText) name

/-- More than the number of types that can be nested in each other without a
circle. -/
def Registry.nestingBound (registry : Registry) : Nat :=
  registry.modules.foldl
    (fun rows m => rows + m.image.tables.typeDefs.size
      + m.image.amendments.typeDefs.length) (registry.patience + 1)

/-- The full name of a type. -/
def Ty.fullNameWith (t : Ty) : Query String := do
  t.fullNameFrom (TypeDefinition.fullNameWithin resolve (← read).nestingBound)

/-- The text that messages show for a type whose name cannot be read. -/
def unreadableType : String := "<unresolved type>"

/-- The full name of a type, or a placeholder. -/
def Ty.displayWith (t : Ty) : Query String := do
  return (← (t.fullNameWith resolve).attempt).toOption.getD unreadableType

end

end CliMetadata
