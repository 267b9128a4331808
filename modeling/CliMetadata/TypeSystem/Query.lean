import Std.Data.DHashMap
import Std.Data.HashMap
import CliMetadata.Table.Marker
import CliMetadata.TypeSystem.Module
import CliMetadata.TypeSystem.Nodes

/-!
# Questions to a type system

A `Registry` is what a type system knows for good: its options, its modules in
the order of their registration and, once it is ready, the well-known types.  A
`Query` reads the registry, may fail, and leaves traces in a `Memory`.

The memory decides two things.  A member belongs to the owner that it was first
met with.  And what was established once is answered in the same way ever after:
`remember` runs a query only if its answer is not established yet.  This shows
in two places.  A registry may be *released*: modules that nobody holds are then
out of reach, and so is the type system itself, but what was established before
still answers.  And what is found depends on the modules that are there, so that
a question asked early can keep an answer that a later one would not get.

The memory also has the nodes of the types that were handed out.  Every type is
handed out through `share`, which answers with the node that the tables have for
it.  What a node tells is what was asked for (`share_eq`), so that queries may
compare types by what they tell; that types which tell the same are one node is
a theorem about whatever can be asked.
-/

namespace CliMetadata

/-- What a type system is asked to be. -/
structure Options where
  /-- The assembly that declares the well-known types. -/
  systemModule : String := "System.Private.CoreLib"
  /-- How many base types or enclosing types are followed from any type. -/
  maxInheritanceDepth : Nat := 256
  /-- How deeply the types of a signature may nest. -/
  maxSignatureDepth : Nat := 50
deriving DecidableEq, Repr

/-- What a type system knows for good. -/
structure Registry where
  options : Options := {}
  /-- The modules, in the order of their registration. -/
  modules : List Module := []
  /-- The well-known types, in the order of `WellKnown.all`, once the type
  system is ready. -/
  wellKnown : Option (List Ty) := none
  /-- The categories that types have by being well known. -/
  fixedCategories : List (Ty × Category) := []
  /-- After the release, the names of the modules that are still held. -/
  held : Option (List String) := none
  /-- How many steps a query may take beyond those that the rows can ask for. -/
  patience : Nat := 0

namespace Registry

/-- Whether the type system has not been released. -/
def isLive (registry : Registry) : Bool := registry.held.isNone

/-- The module of a name, whether or not it can still be reached. -/
def module? (registry : Registry) (name : String) : Option Module :=
  registry.modules.find? (·.name = name)

/-- Whether a module of that name can be reached from the types that it
declares. -/
def reaches (registry : Registry) (name : String) : Bool :=
  match registry.held with
  | none => true
  | some names => names.contains name

end Registry

/-! ### Facts -/

/-- What can be established about a type. -/
inductive TypeAspect where
  | name
  | namespaceName
  | base
  | parameters
  | category
  | variance
  | finalizer
  | attributeFlags
  | hash
deriving DecidableEq, Hashable, Repr

/-- What can be established about a method. -/
inductive MethodAspect where
  | name
  | signature
  | parameters
deriving DecidableEq, Hashable, Repr

/-- What can be established about a field. -/
inductive FieldAspect where
  | name
  | type
deriving DecidableEq, Hashable, Repr

/-- Something that a type system can establish. -/
inductive Fact where
  | ofType (type : Ty) (aspect : TypeAspect)
  | ofMethod (method : Method) (aspect : MethodAspect)
  | ofField (field : Field) (aspect : FieldAspect)
  /-- The type that a token of a module leads to. -/
  | resolved (module : String) (token : Token)
deriving DecidableEq, Hashable, Repr

/-- What is known of a type once an aspect is established. -/
abbrev TypeAspect.Value : TypeAspect → Type
  | .name | .namespaceName => String
  | .base => Option Ty
  | .parameters => List Ty
  | .category => Category
  | .variance | .finalizer => Bool
  | .attributeFlags => AttributeFlags
  | .hash => UInt32

/-- What is known of a method once an aspect is established. -/
abbrev MethodAspect.Value : MethodAspect → Type
  | .name => String
  | .signature => MethodSignature
  | .parameters => List Ty

/-- What is known of a field once an aspect is established. -/
abbrev FieldAspect.Value : FieldAspect → Type
  | .name => String
  | .type => Ty

/-- What is known once a fact is established. -/
abbrev Fact.Value : Fact → Type
  | .ofType _ aspect => aspect.Value
  | .ofMethod _ aspect => aspect.Value
  | .ofField _ aspect => aspect.Value
  | .resolved .. => Option Ty

/-! ### Memory -/

/-- A row of a module. -/
structure RowKey where
  module : String
  token : Token
deriving DecidableEq, Hashable, Repr

/-- The traces that queries leave. -/
structure Memory where
  /-- The owner that a method was first met with. -/
  methodOwners : Std.HashMap RowKey Ty := {}
  /-- The owner that a field was first met with. -/
  fieldOwners : Std.HashMap RowKey Ty := {}
  /-- What is established. -/
  facts : Std.DHashMap Fact Fact.Value := {}
  /-- The types that were handed out. -/
  nodes : Nodes := .empty

/-! ### Queries -/

/-- A question to a type system.  Traces stay also where the question has no
answer. -/
abbrev Query (α : Type) := ReaderT Registry (ExceptT Error (StateM Memory)) α

namespace Query

variable {α : Type}

/-- The outcome of a query as an answer of its own.  A query that runs in a
circle has none. -/
def attempt (query : Query α) : Query (Except Error α) := fun registry memory =>
  match query registry memory with
  | (.error (.circular name token), memory) =>
    (.error (.circular name token), memory)
  | (outcome, memory) => (.ok outcome, memory)

/-- What is known of a fact, if it is established. -/
def established? (fact : Fact) :
    Query (Option fact.Value) := return (← get).facts.get? fact

/-- Establishes a fact. -/
def establish (fact : Fact) (value : fact.Value) : Query Unit :=
  modify fun memory => { memory with facts := memory.facts.insert fact value }

/-- What is known of a fact.  If it is not established, it is found now, and is
established if what is found is worth keeping. -/
def rememberIf (fact : Fact) (isKept : fact.Value → Bool)
    (find : Query fact.Value) :
    Query fact.Value := do
  match ← established? fact with
  | some value => return value
  | none =>
      let value ← find
      if isKept value then establish fact value
      return value

/-- What is known of a fact.  If it is not established, it is found now and
established. -/
def remember (fact : Fact) (find : Query fact.Value) : Query fact.Value :=
  rememberIf fact (fun _ => true) find

/-- A type is handed out as the node that the tables answer with. -/
def share (t : Ty) : Query Ty := fun _ memory =>
  let answer := memory.nodes.intern t
  (.ok (answer.2.types[answer.1]?.getD t), { memory with nodes := answer.2 })

/-- What is handed out tells what was asked for, whichever node it is. -/
@[simp]
theorem share_eq (t : Ty) (registry : Registry) (memory : Memory) :
    share t registry memory
      = (.ok t, { memory with nodes := (memory.nodes.intern t).2 }) := by
  simp [share, Nodes.types_intern]

end Query

/-- Passes only while the type system is live. -/
def requireTypeSystem : Query Unit := do
  unless (← read).isLive do throw (.released .typeSystem)

/-- The module that declares a type or member, from which it may have been
released. -/
def reachModule (name : String) : Query Module := do
  let registry ← read
  match registry.module? name with
  | some m =>
    if registry.reaches name then return m else throw (.released .module)
  | none => throw (.released .module)

/-- The well-known type of a kind. -/
def wellKnown (kind : WellKnown) : Query Ty := do
  let position := WellKnown.all.findIdx (· == kind)
  match (← read).wellKnown.bind (·[position]?) with
  | some t => return t
  | none => throw .notReady

/-- Whether a type is the well-known type of a kind; after the release none
is. -/
def Ty.isWellKnown (t : Ty) (kind : WellKnown) : Query Bool := do
  let registry ← read
  if ¬ registry.isLive then return false
  return (← (wellKnown kind).attempt).toOption == some t

end CliMetadata
