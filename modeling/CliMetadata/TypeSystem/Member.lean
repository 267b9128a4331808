import CliMetadata.TypeSystem.Ty

/-!
# Methods, fields and resolved signatures

A member is declared by a row, or is the view of a declared member on another
owner: the view keeps the declaration's row and sees its types through the
arguments of its own owner.  `MethodSignature` is the resolved form of a
method's signature; two signatures are compared exactly by equality, or by
`MethodSignature.isEquivalent`, which overlooks what a runtime may vary.
-/

namespace CliMetadata

/-! ### Methods -/

/-- A method as its row declares it. -/
structure MethodDefinition where
  /-- The assembly name of the declaring module. -/
  module : String
  token : Token
  owner : Ty
  flags : MethodFlags
  implFlags : UInt32
  name : UInt32
  signature : UInt32
deriving DecidableEq, Hashable, Repr

/-- A method of a type. -/
inductive Method where
  | definition (definition : MethodDefinition)
  /-- A method as a member of another owner.  Owner and method are all that
  tells views apart. -/
  | view (method : Method) (owner : Ty)
deriving DecidableEq, Hashable, Repr

namespace Method

/-- The declaration behind a method. -/
def declaration : Method → MethodDefinition
  | .definition d => d
  | .view method _ => method.declaration

/-- The token of the declaration. -/
def token (method : Method) : Token := method.declaration.token

/-- The assembly name of the declaring module. -/
def module (method : Method) : String := method.declaration.module

/-- The type whose member the method is. -/
def owner : Method → Ty
  | .definition d => d.owner
  | .view _ owner => owner

/-- The method that a view is of; a declared method is its own. -/
def typical : Method → Method
  | .definition d => .definition d
  | .view method _ => method

/-- The flags of the declaration. -/
def flags (method : Method) : MethodFlags := method.declaration.flags

/-- The flags that say how the method is implemented. -/
def implFlags (method : Method) : UInt32 := method.declaration.implFlags

@[simp]
theorem declaration_view (method : Method) (owner : Ty) :
    (view method owner).declaration = method.declaration := rfl

@[simp]
theorem owner_view (method : Method) (owner : Ty) :
    (view method owner).owner = owner := rfl

@[simp]
theorem flags_view (method : Method) (owner : Ty) :
    (view method owner).flags = method.flags := rfl

end Method

/-! ### Fields -/

/-- A field as its row declares it. -/
structure FieldDefinition where
  /-- The assembly name of the declaring module. -/
  module : String
  token : Token
  owner : Ty
  flags : FieldFlags
  name : UInt32
  signature : UInt32
deriving DecidableEq, Hashable, Repr

/-- A field of a type. -/
inductive Field where
  | definition (definition : FieldDefinition)
  /-- A field as a member of another owner.  Owner and field are all that tells
  views apart. -/
  | view (field : Field) (owner : Ty)
deriving DecidableEq, Hashable, Repr

namespace Field

/-- The declaration behind a field. -/
def declaration : Field → FieldDefinition
  | .definition d => d
  | .view field _ => field.declaration

/-- The token of the declaration. -/
def token (field : Field) : Token := field.declaration.token

/-- The assembly name of the declaring module. -/
def module (field : Field) : String := field.declaration.module

/-- The type whose member the field is. -/
def owner : Field → Ty
  | .definition d => d.owner
  | .view _ owner => owner

/-- The flags of the declaration. -/
def flags (field : Field) : FieldFlags := field.declaration.flags

end Field

/-! ### Resolved signatures -/

/-- The flags of a resolved method signature: a calling convention in the low
four bits, and bits for methods without an instance and for those that list it
among their parameters. -/
structure SignatureFlags where
  bits : UInt16
deriving DecidableEq, Hashable, Repr, Inhabited

namespace SignatureFlags

/-- The flags with the bits that have a meaning. -/
def ofBits (bits : UInt16) : SignatureFlags := ⟨bits &&& 0x3F⟩

/-- The calling convention: zero is the managed one, one to four are those of
native code, and five is variadic. -/
def convention (flags : SignatureFlags) : UInt16 := flags.bits &&& 0xF

/-- Whether the method needs no instance. -/
def isStatic (flags : SignatureFlags) : Bool := flags.bits &&& 0x10 != 0

/-- Whether call sites add parameters. -/
def isVararg (flags : SignatureFlags) : Bool := flags.convention == 5

/-- The flags with the conventions of native code taken for the managed one. -/
def withoutNativeConvention (flags : SignatureFlags) : SignatureFlags :=
  if 1 ≤ flags.convention ∧ flags.convention ≤ 4 then ⟨flags.bits &&& 0xFFF0⟩
  else flags

end SignatureFlags

/-- A custom modifier of the result, at position zero, or of a parameter,
counted from one. -/
structure ResolvedModifier where
  position : Nat
  isRequired : Bool
  type : Ty
deriving DecidableEq, Hashable, Repr

/-- A method's signature with its types resolved. -/
structure MethodSignature where
  flags : SignatureFlags
  genericCount : UInt32
  result : Ty
  parameters : List Ty
  modifiers : List ResolvedModifier
deriving DecidableEq, Hashable, Repr

namespace MethodSignature

/-- The modifiers that must be understood. -/
def requiredModifiers (signature : MethodSignature) : List ResolvedModifier :=
  signature.modifiers.filter (·.isRequired)

/-- Whether two signatures agree up to conventions of native code and optional
modifiers. -/
def isEquivalent (a b : MethodSignature) : Bool :=
  a.flags.withoutNativeConvention == b.flags.withoutNativeConvention
    && a.genericCount == b.genericCount
    && a.result == b.result
    && a.parameters == b.parameters
    && a.requiredModifiers == b.requiredModifiers

end MethodSignature

end CliMetadata
