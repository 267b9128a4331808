import CliMetadata.Signature.Describe
import CliMetadata.Text.Utf8
import CliMetadata.WellKnown

/-!
# Errors

An `Error` says why a question about metadata has no answer; `Malformation` and
`Unsupported` single out what was wrong with the bytes and rows.  Two families
matter to callers.  A *load* error means that a type could not be put together,
and a *configuration* error that the type system itself is not ready.
`Error.message` words each error.
-/

namespace CliMetadata

/-- What is wrong with malformed metadata. -/
inductive Malformation where
  /-- No compressed integer starts with this byte. -/
  | compressedInteger (lead : UInt8)
  /-- The low two bits of a coded token select no table. -/
  | codedToken (coded : UInt32)
  /-- The token's table has no coded form. -/
  | unencodableToken (token : Token)
  /-- The bytes do not start with the empty string. -/
  | stringHeap
  /-- The bytes do not start with the empty blob. -/
  | blobHeap
  /-- No text that is terminated and valid starts here. -/
  | heapString (index : UInt32)
  | arrayOfRankZero
  /-- A generic type must be a value or reference type. -/
  | genericHead (code : UInt8)
  | noTypeArguments
  | elementType (code : UInt8)
  | methodConvention (code : UInt8)
  | fieldHead (code : UInt8)
  | attributeProlog (value : UInt16)
  /-- The two bytes are half of a surrogate pair. -/
  | charArgument (value : UInt16)
  | namedArgumentKind (code : UInt8)
  | unnamedArgument
  /-- The text that starts at `offset` is not UTF-8. -/
  | serializedText (offset : Nat) (fault : Utf8.Fault)
  /-- A character argument has two bytes. -/
  | wideChar (c : Char)
  | longString
  | longArray
  /-- Members belong to types of the module under construction. -/
  | foreignOwner (token : Token)
  | notAType (token : Token)
  | resolutionScope (scope reference : Token)
  | ownerlessMethod (token : Token)
  | ownerlessField (token : Token)
  | ownerlessConstructor (token : Token)
  /-- A type of nested visibility is enclosed by no type. -/
  | notEnclosed (token : Token)

/-- The wording of a malformation. -/
def Malformation.message : Malformation → String
  | compressedInteger lead => s!"Invalid compressed uint - {lead.toNat}"
  | codedToken coded => s!"Invalid compressed token - {coded.toNat}"
  | unencodableToken token =>
    s!"Token {token.text} cannot be encoded as TypeDefOrRefOrSpec"
  | stringHeap => "Provided #String heap is empty"
  | blobHeap => "Invalid memory for #Blob heap"
  | heapString index => s!"Invalid string at index - {index.toNat}"
  | arrayOfRankZero => "ARRAY - rank must not be 0"
  | genericHead code =>
    s!"GENERICINST - Next byte is not TYPE_CLASS or TYPE_VALUE - {code.toNat}"
  | noTypeArguments => "GENERICINST - no type arguments"
  | elementType code => s!"Unsupported ELEMENT_TYPE - {code.toNat}"
  | methodConvention code =>
    s!"Invalid method calling convention - {code.toNat}"
  | fieldHead code => s!"SignatureField - invalid start - {code.toNat}"
  | attributeProlog value =>
      "Invalid custom attribute prolog - expected 0x0001, got 0x" ++
        Hexadecimal.upper 4 value.toNat
  | charArgument value => s!"Invalid char argument - {value.toNat}"
  | namedArgumentKind code =>
    "Invalid named argument kind - 0x" ++ Hexadecimal.upper 2 code.toNat
  | unnamedArgument => "Named argument without a name"
  | serializedText offset fault =>
    s!"Invalid UTF-8 string at offset {offset}: {fault.message}"
  | wideChar c => s!"Char {c} does not fit 16 bits"
  | longString => "String argument is too long"
  | longArray => "Array argument is too long"
  | foreignOwner token => s!"{token.text} is not a TypeDef of this module"
  | notAType token => s!"Token {token.text} does not denote a type"
  | resolutionScope scope reference =>
      s!"Invalid resolution scope {scope.text} for type reference {reference.text}"
  | ownerlessMethod token => s!"Method {token.text} has no declaring type"
  | ownerlessField token => s!"Field {token.text} has no declaring type"
  | ownerlessConstructor token =>
    s!"Attribute constructor {token.text} has no declaring type"
  | notEnclosed token => s!"Nested type {token.text} has no enclosing type"

/-- What is valid metadata but not represented here. -/
inductive Unsupported where
  | argumentType (type : TypeSig)
  | serializationTag (code : UInt8)
  | functionPointer
  /-- A reference to a type in another file of the same assembly. -/
  | typeInModule (reference : Token)
  /-- A reference to a member in another file of the same assembly. -/
  | memberInModule (reference : Token)
  | attributeConstructor (token : Token)
  | neitherTypeNorMember (token : Token)

/-- The wording of what is not supported. -/
def Unsupported.message : Unsupported → String
  | argumentType type => "custom attribute argument of type " ++ type.describe
  | serializationTag code =>
      "custom attribute serialization type 0x" ++ Hexadecimal.upper 2 code.toNat
  | functionPointer => "function pointer types are not represented"
  | typeInModule reference =>
    s!"type reference {reference.text} scoped to a module reference"
  | memberInModule reference =>
    s!"member reference {reference.text} scoped to a module reference"
  | attributeConstructor token => s!"attribute constructor {token.text}"
  | neitherTypeNorMember token =>
    s!"token {token.text} does not denote a type or member"

/-- What a released type system no longer gives access to. -/
inductive Holder where
  | typeSystem
  | module
deriving DecidableEq, Repr

/-- The wording of a holder. -/
def Holder.name : Holder → String
  | typeSystem => "type system context"
  | module => "module"

/-- Why a type cannot be loaded, apart from its base failing with an error of
its own. -/
inductive LoadFailure where
  /-- The base type's token leads to no type. -/
  | missingBase (base : Token)
  /-- The base is a type that nothing can derive from. -/
  | unsuitableBase (display : String)
  | missingReference
  /-- The chain of base types does not reach the root of all classes. -/
  | unrooted
  | enumWithoutField
deriving DecidableEq, Repr

/-- The wording of a load failure. -/
def LoadFailure.message : LoadFailure → String
  | missingBase base => s!"base type {base.text} cannot be resolved"
  | unsuitableBase display => s!"base type {display} is not a class"
  | missingReference => "the type reference cannot be resolved"
  | unrooted => "the inheritance chain is not rooted at System.Object"
  | enumWithoutField => "enum does not declare an instance field"

/-- A use of a type that its shape does not allow. -/
inductive Misuse where
  | notGeneric (display : String)
  | argumentCount (display : String) (expected given : Nat)
  | arrayRank (rank : UInt32)
  | notInlineArray (fullName : String)
deriving DecidableEq, Repr

/-- The wording of a misuse. -/
def Misuse.message : Misuse → String
  | notGeneric display => s!"{display} is not a generic type definition"
  | argumentCount display expected given =>
      s!"{display} takes {expected} type arguments, {given} given"
  | arrayRank rank => s!"invalid array rank {rank.toNat}"
  | notInlineArray fullName => s!"{fullName} is not an inline array"

/-- A type as a load error names it. -/
structure Subject where
  module : String
  namespaceName : String
  name : String
deriving DecidableEq, Repr

/-- How a load error starts. -/
def Subject.failure (subject : Subject) : String :=
  s!"Failed to load type '{subject.namespaceName}.{subject.name}' from module '{subject.module}'"

/-- Why a question about metadata has no answer. -/
inductive Error where
  | malformed (what : Malformation)
  | outOfBounds
  | notSupported (what : Unsupported)
  /-- No row stands behind a token. -/
  | missingRow (token : Token)
  | typeLoad (subject : Subject) (reason : LoadFailure)
  /-- The base type of `subject` fails to load with an error that is not itself
  a load or configuration error. -/
  | baseLoad (subject : Subject) (base : Token) (cause : Error)
  | missingWellKnown (kind : WellKnown)
  | notReady
  | duplicateModule (name : String)
  | missingModule (name : String)
  | released (holder : Holder)
  | tooDeep (limit : Nat)
  | misuse (what : Misuse)
  /-- The rows behind a type refer to each other in a circle, so that no answer
  exists. -/
  | circular (module : String) (token : Token)

namespace Error

/-- The wording of an error. -/
def message : Error → String
  | malformed what => "Malformed - " ++ what.message
  | outOfBounds => "Out of Bound read would have occurred!"
  | notSupported what => "This encoding is not supported - " ++ what.message
  | missingRow token => "Failed to find row in metadata - " ++ token.text
  | typeLoad subject reason => s!"{subject.failure} - {reason.message}"
  | baseLoad subject base cause =>
      s!"{subject.failure} - base type {base.text} cannot be resolved: {cause.message}"
  | missingWellKnown kind =>
      "The core library does not define the well-known type " ++ kind.name
  | notReady => "The type system context has not been initialized"
  | duplicateModule name => s!"A module named '{name}' is already registered"
  | missingModule name => s!"No module named '{name}' is registered"
  | released holder => s!"The owning {holder.name} has already been dropped"
  | tooDeep limit => s!"Reach the maximum recursion level allowed - {limit}"
  | misuse what => what.message
  | circular module token =>
    s!"The rows behind {token.text} of module '{module}' form a circle"

/-- Errors that mean a type could not be put together. -/
def isLoad : Error → Bool
  | typeLoad .. | baseLoad .. | tooDeep _ => true
  | _ => false

/-- Errors that mean the type system is not ready for the question. -/
def isConfiguration : Error → Bool
  | missingWellKnown _ | notReady | duplicateModule _ | missingModule _ => true
  | _ => false

end Error

end CliMetadata
