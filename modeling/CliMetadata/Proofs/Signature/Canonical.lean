import CliMetadata.Proofs.CodedToken
import CliMetadata.Signature.Decode

/-!
# Canonical signatures

A signature is *canonical* if its bytes can say all of it: its tokens name
types, its numbers and the lengths of its lists are compressed integers, it
claims exactly one calling convention, and a managed reference as a parameter is
told by the mark and not by the type.  `depth` is how deeply its types nest, and
`lead` the first byte of a type.
-/

namespace CliMetadata

/-- Exactly one convention is claimed. -/
def Conventions.IsSingle (c : Conventions) : Prop :=
  [c.managed, c.vararg, c.cdecl, c.stdcall, c.thiscall, c.fastcall].count true
    = 1

/-- A length that can be written. -/
def IsWritableLength (length : Nat) :
    Prop := length ≤ CompressedInteger.limit.toNat

/-- Numbers that can be written behind their count. -/
def AreWritable (numbers : List UInt32) : Prop :=
  IsWritableLength numbers.length ∧ ∀ n ∈ numbers, n ≤ CompressedInteger.limit

namespace TypeSig

/-- A type that is given by a token alone, as the head of a generic type has to
be. -/
def IsNamed : TypeSig → Prop
  | .valueType _ | .referenceType _ => True
  | _ => False

/-- A managed reference. -/
def IsByRef : TypeSig → Prop
  | .byRef _ => True
  | _ => False

end TypeSig

mutual

/-- A type whose bytes say all of it. -/
def TypeSig.IsCanonical : TypeSig → Prop
  | .primitive _ => True
  | .valueType token | .referenceType token => token.NamesType
  | .typeVar index | .methodVar index => index ≤ CompressedInteger.limit
  | .pointer modifiers target =>
    (∀ m ∈ modifiers, m.type.NamesType) ∧ target.IsCanonical
  | .byRef target | .pinned target => target.IsCanonical
  | .vector modifiers element =>
    (∀ m ∈ modifiers, m.type.NamesType) ∧ element.IsCanonical
  | .array element rank sizes lowerBounds =>
      element.IsCanonical ∧ 1 ≤ rank ∧ rank ≤ CompressedInteger.limit ∧
      AreWritable sizes
        ∧ AreWritable lowerBounds
  | .generic definition arguments =>
      definition.IsNamed ∧ definition.IsCanonical ∧ 1 ≤ arguments.length
        ∧ IsWritableLength arguments.length ∧ TypeSig.AreCanonical arguments
  | .function method => method.IsCanonical

/-- Types whose bytes say all of them. -/
def TypeSig.AreCanonical : List TypeSig → Prop
  | [] => True
  | type :: rest => type.IsCanonical ∧ TypeSig.AreCanonical rest

/-- A parameter or result whose bytes say all of it. -/
def ParamSig.IsCanonical : ParamSig → Prop
  | ⟨modifiers, byRef, type⟩ =>
      (∀ m ∈ modifiers, m.type.NamesType) ∧ (byRef = false → ¬ type.IsByRef) ∧
      type.IsCanonical

/-- Parameters whose bytes say all of them. -/
def ParamSig.AreCanonical : List ParamSig → Prop
  | [] => True
  | param :: rest => param.IsCanonical ∧ ParamSig.AreCanonical rest

/-- A method signature whose bytes say all of it. -/
def MethodSig.IsCanonical : MethodSig → Prop
  | ⟨_, _, conventions, genericCount, result, params, varargs⟩ =>
      conventions.IsSingle ∧ genericCount ≤ CompressedInteger.limit
        ∧ IsWritableLength (params.length + varargs.length) ∧ result.IsCanonical
        ∧ ParamSig.AreCanonical params ∧ ParamSig.AreCanonical varargs

end

theorem MethodSig.isCanonical_iff (m : MethodSig) : m.IsCanonical ↔
    m.conventions.IsSingle ∧ m.genericCount ≤ CompressedInteger.limit
      ∧ IsWritableLength (m.params.length + m.varargs.length) ∧
      m.result.IsCanonical
      ∧ ParamSig.AreCanonical m.params ∧ ParamSig.AreCanonical m.varargs := by
  cases m
  rw [IsCanonical]

/-- A field signature whose bytes say all of it. -/
def FieldSig.IsCanonical (field : FieldSig) : Prop :=
  (∀ m ∈ field.modifiers, m.type.NamesType) ∧ field.type.IsCanonical

/-! ### Nesting -/

mutual

/-- How many types nest in a type, itself included. -/
@[simp]
def TypeSig.depth : TypeSig → Nat
  | .primitive _ | .valueType _ | .referenceType _ | .typeVar
    _ | .methodVar _ => 1
  | .pointer _ target | .byRef target | .pinned target => target.depth + 1
  | .vector _ element | .array element _ _ _ => element.depth + 1
  | .generic definition arguments =>
    max definition.depth (TypeSig.depthEach arguments) + 1
  | .function method => method.depth + 1

/-- The greatest depth of several types. -/
def TypeSig.depthEach : List TypeSig → Nat
  | [] => 0
  | type :: rest => max type.depth (TypeSig.depthEach rest)

/-- The depth of a parameter's type. -/
@[simp]
def ParamSig.depth : ParamSig → Nat
  | ⟨_, _, type⟩ => type.depth

/-- The greatest depth of several parameters. -/
def ParamSig.depthEach : List ParamSig → Nat
  | [] => 0
  | param :: rest => max param.depth (ParamSig.depthEach rest)

/-- The greatest depth of a result and of parameters. -/
@[simp]
def MethodSig.depth : MethodSig → Nat
  | ⟨_, _, _, _, result, params, varargs⟩ =>
      max result.depth (max (ParamSig.depthEach params)
        (ParamSig.depthEach varargs))

end

/-- The depth of a field's type. -/
@[simp]
def FieldSig.depth (field : FieldSig) : Nat := field.type.depth

/-! ### First bytes -/

/-- The first byte of a type. -/
def TypeSig.lead : TypeSig → UInt8
  | .primitive kind => kind.code
  | .valueType _ => ElementType.valueType
  | .referenceType _ => ElementType.referenceType
  | .typeVar _ => ElementType.typeVar
  | .methodVar _ => ElementType.methodVar
  | .pointer .. => ElementType.pointer
  | .byRef _ => ElementType.byRef
  | .pinned _ => ElementType.pinned
  | .vector .. => ElementType.vector
  | .array .. => ElementType.array
  | .generic .. => ElementType.generic
  | .function _ => ElementType.function

/-- A byte that a modifier starts with. -/
def ElementType.IsModifier (b : UInt8) : Prop :=
  b = ElementType.requiredModifier ∨ b = ElementType.optionalModifier

instance (b : UInt8) : Decidable (ElementType.IsModifier b) := by
  unfold ElementType.IsModifier
  infer_instance

namespace TypeSig

/-- No type starts like a modifier. -/
theorem lead_not_isModifier (t : TypeSig) :
    ¬ ElementType.IsModifier t.lead := by
  cases t with
  | primitive kind => cases kind <;> decide
  | _ => exact of_decide_eq_true rfl

/-- No type starts with the byte that sets added parameters apart. -/
theorem lead_ne_sentinel (t : TypeSig) : t.lead ≠ ElementType.sentinel := by
  cases t with
  | primitive kind => cases kind <;> decide
  | _ => exact of_decide_eq_true rfl

/-- Only managed references start like one. -/
@[simp]
theorem lead_eq_byRef_iff (t : TypeSig) :
    t.lead = ElementType.byRef ↔ t.IsByRef := by
  cases t with
  | primitive kind =>
    cases kind <;> simp [lead, IsByRef, Primitive.code, ElementType.byRef]
  | _ => simp [lead, IsByRef, ElementType.byRef, ElementType.valueType,
      ElementType.referenceType,
      ElementType.typeVar, ElementType.methodVar, ElementType.pointer,
      ElementType.pinned,
      ElementType.vector, ElementType.array, ElementType.generic,
      ElementType.function]

/-- A type starts like a named one exactly if it is. -/
@[simp]
theorem lead_isNamed_iff (t : TypeSig) :
    t.lead = ElementType.referenceType ∨ t.lead = ElementType.valueType ↔
    t.IsNamed := by
  cases t with
  | primitive kind =>
    cases kind <;> simp [lead, IsNamed, Primitive.code,
      ElementType.referenceType, ElementType.valueType]
  | _ => simp [lead, IsNamed, ElementType.byRef, ElementType.valueType,
      ElementType.referenceType,
      ElementType.typeVar, ElementType.methodVar, ElementType.pointer,
      ElementType.pinned,
      ElementType.vector, ElementType.array, ElementType.generic,
      ElementType.function]

end TypeSig

end CliMetadata
