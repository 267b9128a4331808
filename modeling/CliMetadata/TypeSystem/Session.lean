import CliMetadata.Table.CoreLibrary
import CliMetadata.TypeSystem.Lifecycle

/-!
# What callers do

A caller registers modules that were built row by row, starts the type system,
and asks questions of it.  What an answer says is a list of `Item`s; the types
and members in them are what the caller holds, and later questions are about
these.  A `Session` is a type system together with the items of all answers so
far, and `Session.Step` is one action of the caller.
-/

namespace CliMetadata

/-! ### Modules that are built -/

/-- A builder that was started empty, or with a core library, and took any
calls. -/
inductive ModuleBuilder.IsBuilt : ModuleBuilder → Prop where
  | new (assembly : String) : IsBuilt (new assembly)
  | coreLibrary {assembly : String} {b : ModuleBuilder} :
      coreLibrary assembly = .ok b → IsBuilt b
  | call {b : ModuleBuilder} (call : Call) : IsBuilt b →
      IsBuilt (b.apply call).2

/-! ### What answers say -/

/-- A part of an answer. -/
inductive Item where
  | type (type : Ty)
  | method (method : Method)
  | field (field : Field)
  | signature (signature : MethodSignature)
  | failure (error : Error)
  | text (text : String)
  | number (number : Int)
  | truth (truth : Bool)
  | category (category : Category)
  | markers (markers : AttributeFlags)
  | facts (facts : TypeFacts)
  | baseState (state : BaseState)

mutual

/-- A type and the types that it is built from. -/
@[simp]
def Ty.parts : Ty → List Ty
  | .applied d arguments =>
    .applied d arguments :: .definition d :: Ty.partsOfEach arguments
  | .shaped shape element => .shaped shape element :: element.parts
  | .definition d => [.definition d]
  | .parameter p => [.parameter p]
  | .var index isMethod => [.var index isMethod]

/-- Several types and the types that they are built from. -/
@[simp]
def Ty.partsOfEach : List Ty → List Ty
  | [] => []
  | t :: rest => t.parts ++ Ty.partsOfEach rest

end

/-- The types that a method tells: its owner, and those of the methods that it
is a view of. -/
@[simp]
def Method.types : Method → List Ty
  | .definition d => d.owner.parts
  | .view method owner => owner.parts ++ method.types

/-- A method and the methods that it is a view of. -/
def Method.versions : Method → List Method
  | .definition d => [.definition d]
  | .view method owner => .view method owner :: method.versions

/-- The types that a field tells: its owner, and those of the fields that it is
a view of. -/
@[simp]
def Field.types : Field → List Ty
  | .definition d => d.owner.parts
  | .view field owner => owner.parts ++ field.types

/-- A field and the fields that it is a view of. -/
def Field.versions : Field → List Field
  | .definition d => [.definition d]
  | .view field owner => .view field owner :: field.versions

/-- The types in a signature. -/
def MethodSignature.types (signature : MethodSignature) : List Ty :=
  signature.result :: (signature.parameters ++ signature.modifiers.map (·.type))

namespace Item

/-- The types that a part of an answer gives. -/
def types : Item → List Ty
  | type t => t.parts
  | method m => m.types
  | field f => f.types
  | signature s => Ty.partsOfEach s.types
  | baseState (.resolved base) => base.parts
  | _ => []

/-- The methods that a part of an answer gives. -/
def methods : Item → List Method
  | method m => m.versions
  | _ => []

/-- The fields that a part of an answer gives. -/
def fields : Item → List Field
  | field f => f.versions
  | _ => []

/-- A result, or else why there is none. -/
def ofResult {α : Type} (item : α → Item) : Except Error α → Item
  | .ok a => item a
  | .error e => failure e

/-- What a token leads to. -/
def ofEntity : Entity → Item
  | .type t => type t
  | .method m => method m
  | .field f => field f

end Item

/-! ### Questions -/

/-- What can be asked of a module. -/
inductive ModuleQuestion where
  | type (token : Token)
  | typeNamed (namespaceName name : String)
  | types
  | typeAt (position : Nat)
  | loadAll
  | parameter (token : Token)
  /-- A caller may say which type owns the member. -/
  | method (token : Token) (owner : Option Ty)
  | field (token : Token) (owner : Option Ty)
  | entity (token : Token)
  | resolve (signature : TypeSig)
  | resolveMethod (signature : MethodSig)

/-- What can be asked of a type.  The last questions build other types from
it. -/
inductive TypeQuestion where
  | name
  | namespaceName
  | fullName
  | display
  | module
  | containing
  | base
  | openBase
  | hasBase
  | baseState
  | parameters
  | isGenericDefinition
  | isWellKnown (kind : WellKnown)
  | flags (request : FlagRequest)
  | category
  | variance
  | markers
  | hasFinalizer
  | isSealed
  | methods (filter : MethodFilter)
  | methodAt (filter : MethodFilter) (position : Nat)
  | fields
  | fieldAt (position : Nat)
  | method (name : String) (wanted : Option MethodSignature)
      (substitution : List Ty)
  | equivalentMethod (name : String) (wanted : Option MethodSignature)
      (substitution : List Ty)
  | field (name : String)
  | staticConstructor
  | defaultConstructor
  | dispatch (declaration : Method)
  | finalizer
  | nestedTypes
  | nested (name : String)
  | hasAttribute (namespaceName name : String)
  | inlineLength
  | layout
  | underlying
  | hash
  | substituted (types methods : List Ty)
  | applied (arguments : List Ty)
  | shaped (shape : Shape)

/-- What can be asked of a method. -/
inductive MethodQuestion where
  | name
  | module
  | signature
  | parameters
  | isConstructor
  | isStaticConstructor
  | hasAttribute (namespaceName name : String)
  | viewedOn (owner : Ty)

/-- What can be asked of a field. -/
inductive FieldQuestion where
  | name
  | module
  | type
  | hasAttribute (namespaceName name : String)
  | viewedOn (owner : Ty)

/-- A question to a type system. -/
inductive Question where
  | wellKnown (kind : WellKnown)
  | variable (index : UInt32) (isMethod : Bool)
  | substituted (signature : MethodSignature) (types : List Ty)
  | ofModule (name : String) (question : ModuleQuestion)
  | ofType (t : Ty) (question : TypeQuestion)
  | ofMethod (method : Method) (question : MethodQuestion)
  | ofField (field : Field) (question : FieldQuestion)

/-! ### Answers -/

/-- What is said about a module. -/
def ModuleQuestion.answer (m : Module) : ModuleQuestion → Query (List Item)
  | type token => do return (← m.type token).toList.map .type
  | typeNamed home text => do
      return (← m.typeNamed home text).toList.map .type
  | types => do return (← m.types).map (.ofResult .type)
  | typeAt position =>
    do return (← m.typeAt? position).toList.map (.ofResult .type)
  | loadAll => do return [.number (← m.loadAll)]
  | parameter token => do return [.type (← m.parameter token)]
  | method token owner => do return [.method (← m.method token owner)]
  | field token owner => do return [.field (← m.field token owner)]
  | entity token => do return (← m.entity token).toList.map .ofEntity
  | resolve signature => do return [.type (← m.resolve signature)]
  | resolveMethod signature =>
    do return [.signature (← m.resolveMethod signature)]

/-- What is said about a type. -/
def TypeQuestion.answer (t : Ty) : TypeQuestion → Query (List Item)
  | name => do return [.text (← t.simpleName)]
  | namespaceName => do return [.text (← t.namespaceText)]
  | fullName => do return [.text (← t.fullName)]
  | display => do return [.text (← t.display)]
  | module => do return (← t.module?).toList.map (.text ·.name)
  | containing => do return (← t.containing).toList.map .type
  | base => do return (← t.base).toList.map .type
  | openBase =>
      match t with
      | .definition d => do return (← d.openBase).toList.map .type
      | _ => return []
  | hasBase => do return [.truth (← t.hasBase)]
  | baseState =>
      match t with
      | .definition d => do return [.baseState (← d.baseState)]
      | _ => return []
  | parameters => do return (← t.instantiation).map .type
  | isGenericDefinition => do return [.truth (← t.isGenericDefinition)]
  | isWellKnown kind => do return [.truth (← t.isWellKnown kind)]
  | flags request => do return [.facts (← t.findFlags request)]
  | category => do return [.category (← t.category)]
  | variance => do return [.truth (← t.hasVariance)]
  | markers => do return [.markers (← t.attributeFlags)]
  | hasFinalizer => do return [.truth (← t.hasFinalizer)]
  | isSealed => do return [.truth (← t.isSealed)]
  | methods filter =>
    do return (← (← t.methods filter).all).map (.ofResult .method)
  | methodAt filter position => do
      return (← (← t.methods filter).item? position).toList.map
        (.ofResult .method)
  | fields => do return (← (← t.fields none).all).map (.ofResult .field)
  | fieldAt position => do
      return (← (← t.fields none).item? position).toList.map (.ofResult .field)
  | method text wanted substitution => do
      return (← t.method text wanted substitution).toList.map .method
  | equivalentMethod text wanted substitution => do
      return (← t.equivalentMethod text wanted substitution).toList.map .method
  | field text => do return (← t.fieldNamed text).toList.map .field
  | staticConstructor => do return (← t.staticConstructor).toList.map .method
  | defaultConstructor => do return (← t.defaultConstructor).toList.map .method
  | dispatch declaration =>
    do return (← t.dispatch declaration).toList.map .method
  | finalizer => do return (← t.finalizer).toList.map .method
  | nestedTypes => do return (← t.nestedTypes).map .type
  | nested text => do return (← t.nestedType text).toList.map .type
  | hasAttribute home text => do return [.truth (← t.hasAttribute home text)]
  | inlineLength => do return [.number (← t.inlineLength).toInt]
  | layout => do
      let (packing, size) ← t.layout
      return [.number packing.toNat, .number size.toNat]
  | underlying => do return [.type (← t.underlying)]
  | hash => do return [.number (← t.hash).toNat]
  | substituted forTypes forMethods =>
    do return [.type (← t.substituted forTypes forMethods)]
  | applied arguments => do return [.type (← instantiate t arguments)]
  | shaped shape => do return [.type (← shapeOf shape t)]

/-- What is said about a method. -/
def MethodQuestion.answer (m : Method) : MethodQuestion → Query (List Item)
  | name => do return [.text (← m.name)]
  | module => do return [.text (← reachModule m.module).name]
  | signature => do return [.signature (← m.signature)]
  | parameters => do return (← m.parameters).map .type
  | isConstructor => do return [.truth (← m.isConstructor)]
  | isStaticConstructor => do return [.truth (← m.isStaticConstructor)]
  | hasAttribute home text => do return [.truth (← m.hasAttribute home text)]
  | viewedOn owner => return [.method (.view m owner)]

/-- What is said about a field. -/
def FieldQuestion.answer (f : Field) : FieldQuestion → Query (List Item)
  | name => do return [.text (← f.name)]
  | module => do return [.text (← reachModule f.module).name]
  | type => do return [.type (← f.type)]
  | hasAttribute home text => do return [.truth (← f.hasAttribute home text)]
  | viewedOn owner => return [.field (.view f owner)]

namespace Question

/-- What is said in answer to a question. -/
def answer : Question → Query (List Item)
  | wellKnown kind => do return [.type (← CliMetadata.wellKnown kind)]
  | «variable» index isMethod => do return [.type (← variableOf index isMethod)]
  | substituted signature types =>
    do return [.signature (← signature.substituted types)]
  | ofModule name question => do
      match (← read).module? name with
      | some m => question.answer m
      | none => return []
  | ofType t question => question.answer t
  | ofMethod method question => question.answer method
  | ofField field question => question.answer field

/-- The types that a question is about or names. -/
def types : Question → List Ty
  | wellKnown _ | «variable» .. => []
  | substituted signature arguments => signature.types ++ arguments
  | ofModule _ (.method _ owner) | ofModule _ (.field _ owner) => owner.toList
  | ofModule _ _ => []
  | ofType t (.method _ wanted substitution)
  | ofType t (.equivalentMethod _ wanted substitution) =>
      t :: (wanted.toList.flatMap MethodSignature.types ++ substitution)
  | ofType t (.substituted forTypes forMethods) => t :: (forTypes ++ forMethods)
  | ofType t (.applied arguments) => t :: arguments
  | ofType t _ => [t]
  | ofMethod _ (.viewedOn owner) | ofField _ (.viewedOn owner) => [owner]
  | ofMethod .. | ofField .. => []

/-- The methods that a question is about or names. -/
def methods : Question → List Method
  | ofType _ (.dispatch declaration) => [declaration]
  | ofMethod method _ => [method]
  | _ => []

/-- The fields that a question is about. -/
def fields : Question → List Field
  | ofField field _ => [field]
  | _ => []

end Question

/-! ### Sessions -/

/-- A type system, and what its answers have said so far. -/
structure Session where
  system : TypeSystem
  items : List Item := []

namespace Session

/-- A session in which nothing has been done. -/
def new (options : Options) : Session := { system := .new options }

/-- The types that the caller holds. -/
def types (s : Session) : List Ty := s.items.flatMap Item.types

/-- The methods that the caller holds. -/
def methods (s : Session) : List Method := s.items.flatMap Item.methods

/-- The fields that the caller holds. -/
def fields (s : Session) : List Field := s.items.flatMap Item.fields

/-- Whether all that a question names is held. -/
structure Allows (s : Session) (question : Question) : Prop where
  types : ∀ t ∈ question.types, t ∈ s.types
  methods : ∀ m ∈ question.methods, m ∈ s.methods
  fields : ∀ f ∈ question.fields, f ∈ s.fields

/-- What a caller can do. -/
inductive Action where
  | addModule (b : ModuleBuilder)
  | start
  | ask (question : Question)

/-- One action of a caller that comes to an end.  An action that runs in a
circle does not. -/
inductive Step : Session → Action → Session → Prop where
  | addModule {s : Session} {b : ModuleBuilder} {system : TypeSystem}
      (built : b.IsBuilt)
      (added : s.system.addModule (.ofImage b.image) = .ok system) :
      Step s (.addModule b) { s with system }
  | start {s : Session} {outcome : Except Error Unit} {system : TypeSystem}
      (started : s.system.start = (outcome, system)) :
        Step s .start { s with system }
  | failed {s : Session} {question : Question} {error : Error}
      {system : TypeSystem}
      (allowed : s.Allows question) (ends : ∀ name token,
        error ≠ .circular name token)
      (asked : s.system.ask question.answer = (.error error, system)) :
      Step s (.ask question) { s with system }
  | answered {s : Session} {question : Question} {items : List Item}
      {system : TypeSystem}
      (allowed : s.Allows question)
      (asked : s.system.ask question.answer = (.ok items, system)) :
      Step s (.ask question) { system, items := s.items ++ items }

/-- A session that a caller can come to. -/
inductive IsReachable (options : Options) : Session → Prop where
  | new : IsReachable options (new options)
  | step {s s' : Session} {action : Action} : IsReachable options s →
      Step s action s' →
      IsReachable options s'

end Session

end CliMetadata
