import CliMetadata.Attribute.Decode
import CliMetadata.Signature.Decode
import CliMetadata.Table.Image

/-!
# The attributes of a module

An attribute's row names a constructor, and so the type of the attribute: the
type that declares the constructor, or the one in which a reference looks for
it.  An attribute is found by the name of that type, and its value is read by
the constructor's signature.
-/

namespace CliMetadata.Image

variable (image : Image)

/-- The type whose constructor an attribute applies; only constructors and
references to them lead to one. -/
def attributeType? (row : CustomAttributeRow) :
    Except Error (Option Token) := do
  match row.constructor.kind? with
  | some .methodDef =>
      let some owner := image.methodOwner? row.constructor
        | throw (.malformed (.ownerlessConstructor row.constructor))
      return some owner
  | some .memberRef =>
      let some reference :=
        image.memberRef? row.constructor | throw (.missingRow row.constructor)
      return some reference.parent
  | _ => return none

/-- The namespace and name of the type of an attribute.  Types that a signature
spells have none. -/
def attributeName? (row : CustomAttributeRow) :
    Except Error (Option (String × String)) := do
  let some type ← image.attributeType? row | return none
  let _ ← image.stringHeap
  match type.kind? with
  | some .typeDef =>
      let some definition := image.typeDef? type | throw (.missingRow type)
      let namespaceName ← image.string definition.namespaceName
      return some (namespaceName, ← image.string definition.name)
  | some .typeRef =>
      let some reference := image.typeRef? type | throw (.missingRow type)
      let namespaceName ← image.string reference.namespaceName
      return some (namespaceName, ← image.string reference.name)
  | _ => return none

/-- The first of the given attributes whose type has the given name. -/
def attributeNamed? (name : String × String) :
    List CustomAttributeRow → Except Error (Option CustomAttributeRow)
  | [] => return none
  | row :: rest => do
      if (← image.attributeName? row) = some name then return some row
      attributeNamed? name rest

/-- The first attribute of a parent whose type has the given name. -/
def findAttribute? (parent : Token) (namespaceName name : String) :
    Except Error (Option CustomAttributeRow) :=
  image.attributeNamed? (namespaceName, name) (image.attributesOf parent)

/-- Whether an attribute whose type has the given name is applied to a
parent. -/
def hasAttribute (parent : Token) (namespaceName name : String) :
    Except Error Bool := do
  return (← image.findAttribute? parent namespaceName name).isSome

/-- Where the signature of a constructor stands in the blob heap. -/
def constructorSignature (constructor : Token) : Except Error UInt32 :=
  match constructor.kind? with
  | some .methodDef =>
      match image.methodDef? constructor with
      | some row => .ok row.signature
      | none => .error (.missingRow constructor)
  | some .memberRef =>
      match image.memberRef? constructor with
      | some row => .ok row.signature
      | none => .error (.missingRow constructor)
  | _ => .error (.notSupported (.attributeConstructor constructor))

/-- What an attribute says, with types that nest within a limit. -/
def attributeValue (limit : Nat) (row : CustomAttributeRow) :
    Except Error AttributeValue := do
  let signature ← image.constructorSignature row.constructor
  let constructor ← MethodSig.ofBytes limit (← image.blob signature)
  AttributeValue.ofBytes (← image.blob row.value) constructor

end CliMetadata.Image
