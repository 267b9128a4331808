import CliMetadata.TypeSystem.Signatures

/-!
# Descriptions of types and members

A description tells a type or member apart from all others: next to the full
name it shows the module and the token.  What cannot be read any more shows as a
placeholder, so that a description never fails.  The short texts name a type or
member in the way that diagnostics do.
-/

namespace CliMetadata

/-! ### Descriptions -/

/-- The text for a module that is out of reach. -/
def unreachableModule : String := "?"

/-- The text for a member whose name cannot be read. -/
def unreadableMember : String := "<unresolved>"

/-- A name, or a placeholder. -/
def readableMember (name : Query String) : Query String :=
  return (← name.attempt).toOption.getD unreadableMember

/-- The description of a type that a row of a module declares. -/
def Ty.describeRow (t : Ty) (token : Token) : Query String := do
  let m := (← t.module?.attempt).toOption.join
  let moduleName := (m.map Module.name).getD unreachableModule
  return "[" ++ moduleName ++ "]" ++ (← t.display) ++ "@" ++ token.text

/-- What a shape appends to the description of the type it is built over. -/
def Shape.describe : Shape → String
  | .array rank => "[rank " ++ toString rank.toNat ++ "]"
  | other => other.suffix

mutual

/-- The description of a type. -/
def Ty.describe : Ty → Query String
  | .definition d => Ty.describeRow (.definition d) d.token
  | .parameter p => Ty.describeRow (.parameter p) p.token
  | .applied d arguments => do
      let definition ← Ty.describeRow (.definition d) d.token
      return definition ++ "<" ++ ",".intercalate
        (← Ty.describeEach arguments) ++ ">"
  | .var index isMethod => return Ty.variableText index isMethod
  | .shaped shape element => do return (← element.describe) ++ shape.describe

/-- The descriptions of several types. -/
def Ty.describeEach : List Ty → Query (List String)
  | [] => return []
  | t :: rest => do
      let first ← t.describe
      return first :: (← Ty.describeEach rest)

end

/-- The description of a method. -/
def Method.describe (method : Method) : Query String := do
  let owner ← method.owner.describe
  return owner ++ "::" ++ (← readableMember method.name) ++ "@" ++
    method.token.text

/-- The description of a field. -/
def Field.describe (field : Field) : Query String := do
  let owner ← field.owner.describe
  return owner ++ "::" ++ (← readableMember field.name) ++ "@" ++
    field.token.text

/-! ### Short texts -/

/-- How diagnostics name a type; there is no such text if its name cannot be
read. -/
def Ty.shortText? (t : Ty) : Query (Option String) := do
  return (← t.fullName.attempt).toOption.map fun name => "TypeDesc(" ++ name ++
    ")"

/-- How diagnostics name a method. -/
def Method.shortText (method : Method) : Query String := do
  let owner ← method.owner.display
  return "MethodDesc(" ++ owner ++ "::" ++ (← readableMember method.name) ++ ")"

/-- How diagnostics name a field. -/
def Field.shortText (field : Field) : Query String := do
  let owner ← field.owner.display
  return "FieldDesc(" ++ owner ++ "::" ++ (← readableMember field.name) ++ ")"

end CliMetadata
