import CliMetadata.TypeSystem.Inheritance

/-!
# The members of a type

The types of a module are its numbered rows.  The members of a definition are
listed in its row, and those of an applied definition are views of them.
`Members` is the enumeration of what a list of tokens leads to: a row is looked
at to decide whether its member is wanted, and only a wanted member is made.  A
row that cannot be read does not end the enumeration; it stands in it as the
error.
-/

namespace CliMetadata

/-- An enumeration of members. -/
structure Members (μ : Type) where
  /-- The rows that are still to be visited. -/
  tokens : List Token
  /-- Whether the member of a row is wanted. -/
  isWanted : Token → Query Bool
  /-- The member of a row. -/
  member : Token → Query μ

namespace Members

variable {μ : Type}

/-- An enumeration without members. -/
def empty : Members μ :=
  { tokens := []
    isWanted := fun _ => return false
    member := fun token => throw (.missingRow token) }

/-- What the first of the rows with a wanted member, or with none that can be
read, leads to, and the rows behind it.  No row is left when none of them leads
to anything. -/
def nextOf (isWanted : Token → Query Bool) (member : Token → Query μ) :
    List Token → Query (Option (Except Error μ) × List Token)
  | [] => return (none, [])
  | token :: rest => do
      match ← (isWanted token).attempt with
      | .ok true => return (some (← (member token).attempt), rest)
      | .ok false => nextOf isWanted member rest
      | .error error => return (some (.error error), rest)

/-- The next item, if there is one, and the enumeration behind it. -/
def next (members : Members μ) :
    Query (Option (Except Error μ) × Members μ) := do
  let (item, tokens) ← nextOf members.isWanted members.member members.tokens
  return (item, { members with tokens })

/-- All items of the rows. -/
def allOf (isWanted : Token → Query Bool) (member : Token → Query μ) :
    List Token → Query (List (Except Error μ))
  | [] => return []
  | token :: rest => do
      match ← (isWanted token).attempt with
      | .ok true =>
          let item ← (member token).attempt
          return item :: (← allOf isWanted member rest)
      | .ok false => allOf isWanted member rest
      | .error error => return .error error :: (← allOf isWanted member rest)

/-- All items. -/
def all (members : Members μ) : Query (List (Except Error μ)) :=
  allOf members.isWanted members.member members.tokens

/-- The first member of the rows that passes a test; a row that cannot be read
ends the search. -/
def findOf (isWanted : Token → Query Bool) (member : Token → Query μ)
    (test : μ → Query Bool) :
    List Token → Query (Option μ)
  | [] => return none
  | token :: rest => do
      if ← isWanted token then
        let found ← member token
        if ← test found then return some found
      findOf isWanted member test rest

/-- The first member that passes a test; a row that cannot be read ends the
search. -/
def find (members : Members μ) (test : μ → Query Bool) : Query (Option μ) :=
  findOf members.isWanted members.member test members.tokens

/-- The item that `count` items stand before; those are made as well. -/
def item? : (count : Nat) → Members μ → Query (Option (Except Error μ))
  | 0, members => return (← members.next).1
  | count + 1, members => do
      match ← members.next with
      | (some _, rest) => item? count rest
      | (none, _) => return none

/-- The least and the greatest number of items to come, as far as it is known
without looking at a row. -/
def sizeHint (members : Members μ) : Nat × Nat := (0, members.tokens.length)

end Members

/-! ### Types of modules -/

/-- The type of a row of a module. -/
def Module.typeOfRow (m : Module) (row : Nat) : Query Ty := do
  let token := Token.ofParts .typeDef (UInt32.ofNat row)
  let some type ← m.type token | throw (.missingRow token)
  return type

/-- The types of `count` rows from a given one on; where a row cannot be read,
the error stands in its place. -/
def Module.typesFrom (m : Module) (row : Nat) :
    (count : Nat) → Query (List (Except Error Ty))
  | 0 => return []
  | count + 1 => do
      let item ← (m.typeOfRow row).attempt
      return item :: (← m.typesFrom (row + 1) count)

/-- The types of a module. -/
def Module.types (m : Module) : Query (List (Except Error Ty)) :=
  m.typesFrom 1 m.image.typeDefCount.toNat

/-- Makes the types of `count` rows from a given one on, and is not kept from
the next by a row that cannot be read. -/
def Module.visitFrom (m : Module) (row : Nat) : (count : Nat) → Query Unit
  | 0 => return
  | count + 1 => do
      let _ ← (m.typeOfRow row).attempt
      m.visitFrom (row + 1) count

/-- The type that `count` types of a module stand before; those are made as
well. -/
def Module.typeAt? (m : Module) (count : Nat) :
    Query (Option (Except Error Ty)) := do
  let size := m.image.typeDefCount.toNat
  m.visitFrom 1 (min count size)
  if count < size then return some (← (m.typeOfRow (count + 1)).attempt)
    else return none

/-- Makes the types of `count` rows from a given one on; a row that cannot be
read ends the work. -/
def Module.loadFrom (m : Module) (row : Nat) : (count : Nat) → Query Unit
  | 0 => return
  | count + 1 => do
      let _ ← m.typeOfRow row
      m.loadFrom (row + 1) count

/-- The number of types of a module, if all of them can be read. -/
def Module.loadAll (m : Module) : Query Nat := do
  let count := m.image.typeDefCount.toNat
  m.loadFrom 1 count
  return count

/-! ### Members of modules -/

/-- The owner of a member: the one that it was first met with, or else the one
found now, which is then remembered. -/
def ownerOf (known : Memory → Option Ty) (remember : Ty → Memory → Memory)
    (owner : Query Ty) :
    Query Ty := do
  match known (← get) with
  | some owner => return owner
  | none =>
      let owner ← owner
      modify (remember owner)
      return owner

/-- The type that a module declares as the owner of a member. -/
def Module.declaredOwner (m : Module) (owner : Option Token)
    (ownerless : Malformation) : Query Ty := do
  let some token := owner | throw (.malformed ownerless)
  let some type ← m.type token | throw (.missingRow token)
  return type

/-- The method of a token.  Without an owner, the module tells which type
declares the method. -/
def Module.method (m : Module) (token : Token) (owner : Option Ty) :
    Query Method := do
  let some row := m.image.methodDef? token | throw (.missingRow token)
  let key : RowKey := ⟨m.name, token⟩
  let owner ← ownerOf (·.methodOwners[key]?)
    (fun owner memory =>
      { memory with methodOwners := memory.methodOwners.insert key owner })
    (match owner with
      | some owner => return owner
      | none =>
        m.declaredOwner (m.image.methodOwner? token) (.ownerlessMethod token))
  return m.methodOfRow row owner

/-- The field of a token.  Without an owner, the module tells which type
declares the field. -/
def Module.field (m : Module) (token : Token) (owner : Option Ty) :
    Query Field := do
  let some row := m.image.field? token | throw (.missingRow token)
  let key : RowKey := ⟨m.name, token⟩
  let owner ← ownerOf (·.fieldOwners[key]?)
    (fun owner memory =>
      { memory with fieldOwners := memory.fieldOwners.insert key owner })
    (match owner with
      | some owner => return owner
      | none =>
        m.declaredOwner (m.image.fieldOwner? token) (.ownerlessField token))
  return m.fieldOfRow row owner

/-! ### Members of types -/

/-- Which methods of a type are wanted; their rows decide. -/
inductive MethodFilter where
  | all
  | virtual
  | named (name : String)
deriving DecidableEq, Repr

/-- Whether the method of a row is wanted. -/
def MethodFilter.accepts (filter : MethodFilter) (m : Module) (token : Token) :
    Query Bool := do
  match filter with
  | all => return true
  | virtual =>
      let some row := m.image.methodDef? token | throw (.missingRow token)
      return row.flags.isVirtual
  | named name =>
      let some row := m.image.methodDef? token | throw (.missingRow token)
      return (← m.image.string row.name) = name

/-- Whether the field of a row is wanted: any is, unless a name is asked for. -/
def acceptsField (name : Option String) (m : Module) (token : Token) :
    Query Bool := do
  let some name := name | return true
  let some row := m.image.field? token | throw (.missingRow token)
  return (← m.image.string row.name) = name

/-- The method of a row of a definition's module, as a member of the given
owner.

The view on an applied definition is made anew each time.  A table that keeps
the views, by owner and method, would answer the same and is left out: a view is
its key, as it holds nothing but its owner and the method that it is of, and no
answer tells two views of one key apart. -/
def memberMethod (m : Module) (d : TypeDefinition) (owner : Ty)
    (token : Token) : Query Method := do
  let method ← m.method token (some (.definition d))
  if owner = .definition d then return method
  requireTypeSystem
  return .view method owner

/-- The field of a row of a definition's module, as a member of the given owner.
The table of views by owner and field is left out, as it is for methods. -/
def memberField (m : Module) (d : TypeDefinition) (owner : Ty) (token : Token) :
    Query Field := do
  let field ← m.field token (some (.definition d))
  if owner = .definition d then return field
  requireTypeSystem
  return .view field owner

/-- The row of a definition in its module. -/
def TypeDefinition.row (d : TypeDefinition) (m : Module) :
    Query TypeDefRow := do
  let some row := m.image.typeDef? d.token | throw (.missingRow d.token)
  return row

namespace Ty

/-- The wanted methods of a type. -/
def methods (t : Ty) (filter : MethodFilter) : Query (Members Method) := do
  let some d := t.definition? | return .empty
  let m ← reachModule d.module
  return {
    tokens := (← d.row m).methods
    isWanted := filter.accepts m
    member := memberMethod m d t }

/-- The fields of a type, or those of a name. -/
def fields (t : Ty) (name : Option String) : Query (Members Field) := do
  let some d := t.definition? | return .empty
  let m ← reachModule d.module
  return {
    tokens := (← d.row m).fields
    isWanted := acceptsField name m
    member := memberField m d t }

/-- The first field of a name. -/
def fieldNamed (t : Ty) (name : String) : Query (Option Field) := do
  (← t.fields (some name)).find fun _ => return true

end Ty

end CliMetadata
