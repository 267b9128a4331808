import CliMetadata.TypeSystem.Naming

/-!
# Building types from types

A generic definition is applied to arguments, an array has a rank, and variables
are replaced by arguments.  `instantiateWith` and `arrayOf` check what they are
given.  `substituteWith` replaces variables and builds the types around them
anew; a type in which nothing is replaced is itself, for which no type system is
needed.  A variable without an argument stays, and what is put in for a variable
is not looked into.  Whatever is built here is shared.
-/

namespace CliMetadata

/-- The generic parameter of a token of a module. -/
def Module.parameter (m : Module) (token : Token) : Query Ty := do
  Query.share (← m.genericParameter token)

/-- The generic parameters of tokens of a module. -/
def Module.parameters (m : Module) : List Token → Query (List Ty)
  | [] => return []
  | token :: rest => do
      let first ← m.parameter token
      return first :: (← m.parameters rest)

/-- The generic parameters of a type or method of a module. -/
def Module.parametersOf (m : Module) (owner : Token) : Query (List Ty) :=
  m.parameters (m.image.genericParamsOf owner)

/-- The generic parameters that a definition declares. -/
def TypeDefinition.parameters (d : TypeDefinition) : Query (List Ty) :=
  Query.remember (.ofType (.definition d) .parameters) do
    (← reachModule d.module).parametersOf d.token

/-- The generic parameters of a definition, or the arguments that it is applied
to. -/
def Ty.instantiation : Ty → Query (List Ty)
  | .definition d => d.parameters
  | .applied _ arguments => return arguments
  | _ => return []

/-- Whether a type is a definition with generic parameters. -/
def Ty.isGenericDefinition : Ty → Query Bool
  | .definition d => return ¬ (← d.parameters).isEmpty
  | _ => return false

/-- The variable of a number. -/
def variableOf (index : UInt32) (isMethod : Bool) :
    Query Ty := Query.share (.var index isMethod)

/-- The highest rank of an array. -/
def maxRank : UInt32 := 32

/-- An array of a given rank. -/
def arrayOf (element : Ty) (rank : UInt32) : Query Ty := do
  if rank = 0 ∨ maxRank < rank then throw (.misuse (.arrayRank rank))
  Query.share (.shaped (.array rank) element)

/-- A type of a given shape. -/
def shapeOf (shape : Shape) (element : Ty) : Query Ty :=
  match shape with
  | .array rank => arrayOf element rank
  | other => Query.share (.shaped other element)

section
variable (resolve : Resolver)

/-- A generic definition applied to arguments, one for each of its
parameters. -/
def instantiateWith (definition : Ty) (arguments : List Ty) : Query Ty := do
  match definition with
  | .definition d =>
      let expected := (← d.parameters).length
      if expected = 0 ∨ expected ≠ arguments.length then
        let display ← definition.displayWith resolve
        throw (.misuse (.argumentCount display expected arguments.length))
      Query.share (.applied d arguments)
  | other => throw (.misuse (.notGeneric (← other.displayWith resolve)))

mutual

/-- A type with variables replaced by type and method arguments. -/
def Ty.substituteWith (types methods : List Ty) : Ty → Query Ty
  | .var index isMethod =>
      return ((if isMethod then methods else types)[index.toNat]?).getD
        (.var index isMethod)
  | t@(.applied d arguments) => do
      let replaced ← Ty.substituteEachWith types methods arguments
      if replaced = arguments then return t
      requireTypeSystem
      instantiateWith resolve (.definition d) replaced
  | t@(.shaped shape element) => do
      let replaced ← Ty.substituteWith types methods element
      if replaced = element then return t
      requireTypeSystem
      shapeOf shape replaced
  | t => return t

/-- Several types with variables replaced. -/
def Ty.substituteEachWith (types methods : List Ty) : List Ty → Query (List Ty)
  | [] => return []
  | t :: rest => do
      let first ← Ty.substituteWith types methods t
      return first :: (← Ty.substituteEachWith types methods rest)

end

end

end CliMetadata
