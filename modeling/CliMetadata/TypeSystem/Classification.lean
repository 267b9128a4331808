import CliMetadata.Table.Attributes
import CliMetadata.TypeSystem.Dispatch

/-!
# What sort of type a type is

The flags of a type fall into four parts: its category, whether a parameter of
it varies, whether instances have a finalizer, and what marker attributes say.
Each part is asked for on its own, and a request for several is answered only if
each of them is.  Everything else here follows from the flags and the
definition: whether the type is a value type, what an enumeration is stored as,
how long an inline array is.
-/

namespace CliMetadata

/-! ### Category -/

/-- The category that a declaration gives to a definition. -/
def TypeDefinition.declaredCategory (d : TypeDefinition) : Query Category := do
  requireTypeSystem
  let valueType ← wellKnown .valueType
  let enumType ← wellKnown .enum
  let base ← d.baseType
  if base = some valueType then return .valueType
  if base = some enumType then return .enum
  return if d.flags.isInterface then .interface else .reference

/-- The category of a definition, before it is established: a fixed one, or else
the one of its declaration. -/
def TypeDefinition.findCategory (d : TypeDefinition) : Query Category := do
  match (← read).fixedCategories.lookup (.definition d) with
  | some category => return category
  | none => d.declaredCategory

/-- The category of a definition. -/
def TypeDefinition.category (d : TypeDefinition) : Query Category :=
  Query.remember (.ofType (.definition d) .category) d.findCategory

/-- The category of types of a shape. -/
def Shape.category : Shape → Category
  | vector => .szArray
  | array _ => .array
  | byRef => .byRef
  | pointer => .pointer

/-- The category of a type, before it is established. -/
def Ty.findCategory : Ty → Query Category
  | .definition d => d.findCategory
  | .applied d _ => d.category
  | .parameter _ => return .genericParameter
  | .var _ isMethod =>
    return if isMethod then .signatureMethodVariable else .signatureTypeVariable
  | .shaped shape _ => return shape.category

/-! ### Variance -/

/-- Whether a type is a generic parameter that varies. -/
def Ty.isVariant : Ty → Bool
  | .parameter p => p.flags.variance != .none
  | _ => false

/-- Whether a parameter of a definition varies, before it is established. -/
def TypeDefinition.findVariance (d : TypeDefinition) : Query Bool :=
  return (← d.parameters).any Ty.isVariant

/-- Whether a parameter of the type varies, before it is established. -/
def Ty.findVariance : Ty → Query Bool
  | .definition d => d.findVariance
  | .applied d _ =>
    Query.remember (.ofType (.definition d) .variance) d.findVariance
  | _ => return false

/-! ### Marker attributes -/

/-- What attributes say of a type. -/
def Image.markersOf (image : Image) (isValueType : Bool)
    (attributes : List CustomAttributeRow) :
    Except Error AttributeFlags :=
  attributes.foldlM (fun flags row => do
    match ← image.attributeName? row with
    | some name => return flags.mark isValueType name
    | none => return flags) {}

/-- What marker attributes say of a definition, before it is established. -/
def TypeDefinition.findAttributeFlags (d : TypeDefinition) :
    Query AttributeFlags := do
  let category ← d.category
  let m ← reachModule d.module
  m.image.markersOf category.isValueType (m.image.attributesOf d.token)

/-- What marker attributes say of a type, before it is established. -/
def Ty.findAttributeFlags : Ty → Query AttributeFlags
  | .definition d => d.findAttributeFlags
  | .applied d _ =>
    Query.remember (.ofType (.definition d) .attributeFlags)
      d.findAttributeFlags
  | _ => return {}

/-! ### Requests -/

/-- Which parts of the flags are asked for. -/
structure FlagRequest where
  category : Bool := false
  variance : Bool := false
  finalizer : Bool := false
  attributes : Bool := false
deriving DecidableEq, Repr

namespace FlagRequest

/-- The request of a set of bits; others have no meaning. -/
def ofBits (bits : UInt8) : FlagRequest :=
  { category := bits &&& 1 != 0
    variance := bits &&& 2 != 0
    finalizer := bits &&& 4 != 0
    attributes := bits &&& 8 != 0 }

/-- What either request asks for. -/
def union (a b : FlagRequest) : FlagRequest :=
  { category := a.category || b.category
    variance := a.variance || b.variance
    finalizer := a.finalizer || b.finalizer
    attributes := a.attributes || b.attributes }

end FlagRequest

/-- The parts of the flags that were asked for. -/
structure TypeFacts where
  category : Option Category := none
  variance : Option Bool := none
  finalizer : Option Bool := none
  attributes : Option AttributeFlags := none
deriving DecidableEq, Repr

/-- The parts that are there, as a set of bits. -/
def TypeFacts.computed (facts : TypeFacts) : UInt8 :=
  (if facts.category.isSome then 1 else 0) |||
    (if facts.variance.isSome then 2 else 0)
    ||| (if facts.finalizer.isSome then 4 else 0) |||
      (if facts.attributes.isSome then 8 else 0)

namespace Ty

/-- A part of the flags, if it is asked for: what is established, or else what
is found now. -/
def part (t : Ty) (isWanted : Bool) (aspect : TypeAspect)
    (find : Query aspect.Value) :
    Query (Option aspect.Value) := do
  if ¬ isWanted then return none
  match ← Query.established? (.ofType t aspect) with
  | some value => return some value
  | none => return some (← find)

/-- Establishes a part of the flags, if there is one. -/
def establishPart (t : Ty) (aspect : TypeAspect) :
    Option aspect.Value → Query Unit
  | some value => Query.establish (.ofType t aspect) value
  | none => return

/-- The parts of a type's flags that are asked for.  They are established
together or not at all. -/
def findFlags (t : Ty) (request : FlagRequest) : Query TypeFacts := do
  let category ← t.part request.category .category t.findCategory
  let variance ← t.part request.variance .variance t.findVariance
  let finalizer ← t.part request.finalizer .finalizer
      (return (← t.finalizer).isSome)
  let attributes ← t.part request.attributes .attributeFlags
      t.findAttributeFlags
  t.establishPart .category category
  t.establishPart .variance variance
  t.establishPart .finalizer finalizer
  t.establishPart .attributeFlags attributes
  return { category, variance, finalizer, attributes }

/-- The category of a type. -/
def category (t : Ty) :
    Query Category := Query.remember (.ofType t .category) t.findCategory

/-- Whether a parameter of the type varies. -/
def hasVariance (t : Ty) :
    Query Bool := Query.remember (.ofType t .variance) t.findVariance

/-- Whether instances of the type have a finalizer. -/
def hasFinalizer (t : Ty) : Query Bool :=
  Query.remember (.ofType t .finalizer) (return (← t.finalizer).isSome)

/-- What marker attributes say of the type. -/
def attributeFlags (t : Ty) : Query AttributeFlags :=
  Query.remember (.ofType t .attributeFlags) t.findAttributeFlags

/-! ### What follows from the flags -/

/-- Whether no type derives from the type. -/
def isSealed (t : Ty) : Query Bool := do
  match t.definition? with
  | some d => return d.flags.isSealed
  | none =>
      if t.isArray then return true
      return (← t.category).isValueType

/-- The number of times that an inline array repeats its field: the attribute's
argument, and zero if it is not a number of four bytes. -/
def inlineLength (t : Ty) : Query Int32 := do
  unless (← t.attributeFlags).isInlineArray do
    throw (.misuse (.notInlineArray (← t.fullName)))
  let some d := t.definition? | return 0
  let m ← reachModule d.module
  let some row ← m.image.findAttribute? d.token compilerServices
      inlineArrayAttribute | return 0
  let value ← m.image.attributeValue (← read).options.maxSignatureDepth row
  return value.firstInt32?.getD 0

/-- The type that values are stored as: for an enumeration that of its first
field that belongs to instances, and for any other type the type itself. -/
def underlying (t : Ty) : Query Ty := do
  if (← t.category) ≠ .enum then return t
  let stored ← (← t.fields none).find fun field => return ¬ field.flags.isStatic
  match stored with
  | some field => field.type
  | none => throw (.typeLoad (← t.subject) .enumWithoutField)

/-- The packing and size that a type asks for; zero where nothing is asked for
or the module is out of reach. -/
def layout (t : Ty) : Query (UInt16 × UInt32) := do
  let some d := t.definition? | return (0, 0)
  match ← (reachModule d.module).attempt with
  | .error _ => return (0, 0)
  | .ok m =>
      match m.image.layoutOf? d.token with
      | some row => return (row.packing, row.size)
      | none => return (0, 0)

/-- The types that tokens of a module lead to, without those that lead
nowhere. -/
def typesOf (m : Module) : List Token → Query (List Ty)
  | [] => return []
  | token :: rest => do
      let type ← m.type token
      return type.toList ++ (← typesOf m rest)

/-- The types that are nested in the type. -/
def nestedTypes (t : Ty) : Query (List Ty) := do
  let some d := t.definition? | return []
  let m ← reachModule d.module
  typesOf m (m.image.nestedIn d.token)

/-- Whether an attribute whose type has the given name is applied to the
type. -/
def hasAttribute (t : Ty) (namespaceName name : String) : Query Bool := do
  let some d := t.definition? | return false
  (← reachModule d.module).image.hasAttribute d.token namespaceName name

end Ty

/-- Whether an attribute whose type has the given name is applied to a
method. -/
def Method.hasAttribute (method : Method) (namespaceName name : String) :
    Query Bool := do
  (← reachModule method.module).image.hasAttribute method.token
    namespaceName name

/-- Whether an attribute whose type has the given name is applied to a field. -/
def Field.hasAttribute (field : Field) (namespaceName name : String) :
    Query Bool := do
  (← reachModule field.module).image.hasAttribute field.token namespaceName name

end CliMetadata
