import CliMetadata.Proofs.Attribute.RoundTrip

/-!
# Reading what is set by name

Constructor arguments are written without any mark of their types, and no named
argument is written here.  How one looks is laid down by its tag (`ValueTag`): a
byte in front of the name tells the type of a single value, or that there is an
array, and then a byte behind the name tells the type of its elements.
`AttributeValue.layOut` puts a whole value together in this way, constructor
arguments first, as they are written anyway.

The tag is only an announcement of a type, so that reading by a tag is reading
by that type (`Argument.HasType.takes_announced`), and everything about texts,
missing values and counts comes from there.  A missing or empty array may be
announced with any elements.  The result is `AttributeValue.isReadAsLaidOut`:
what is laid out is read as what it was laid out for.
-/

namespace CliMetadata

open Decoder

/-! ### Tags -/

/-- How the value of a named argument is announced: as one of a primitive type,
or as an array of such. -/
inductive ValueTag where
  | single (kind : Primitive)
  | array (element : Primitive)

namespace ValueTag

/-- The type that is announced. -/
def type : ValueTag → TypeSig
  | single kind => .primitive kind
  | array element => .plainVector (.primitive element)

/-- The byte in front of the name. -/
def lead : ValueTag → UInt8
  | single kind => kind.code
  | array _ => NamedArgument.arrayTag

/-- What stands between the name and the value. -/
def element : ValueTag → List UInt8
  | single _ => []
  | array element => [element.code]

end ValueTag

/-! ### Laying out -/

/-- The bytes of a named argument: its kind, the tag, the name, the tag of the
elements of an array, and the value. -/
def NamedArgument.encode (tag : ValueTag) (argument : NamedArgument) :
    Except Error (List UInt8) := do
  let name ← encodeText argument.name
  let value ← argument.value.encode
  let kind := if argument.isField then NamedArgument.fieldTag
    else NamedArgument.propertyTag
  return [kind, tag.lead] ++ name ++ tag.element ++ value

/-- The bytes of named arguments in turn. -/
def NamedArgument.encodeEach :
    List (ValueTag × NamedArgument) → Except Error (List UInt8)
  | [] => return []
  | (tag, argument) :: rest => do
      let first ← argument.encode tag
      return first ++ (← NamedArgument.encodeEach rest)

/-- The bytes of an attribute value: a prolog, the constructor arguments, and
the named arguments behind their number. -/
def AttributeValue.layOut (fixed : List Argument)
    (named : List (ValueTag × NamedArgument)) :
    Except Error (List UInt8) := do
  let front ← Argument.encodeEach fixed
  let back ← NamedArgument.encodeEach named
  return [0x01, 0x00] ++ front ++ littleEndian 2 named.length ++ back

/-! ### Reading by tags -/

theorem Primitive.code_ne_arrayTag (kind : Primitive) :
    kind.code ≠ NamedArgument.arrayTag := by
  cases kind <;> decide

/-- Reading by the tag of a type is reading by the type. -/
theorem Argument.decodeTagged_code {a : Argument} {kind : Primitive}
    (size : Nat) (h : a.primitive? = some kind) :
    decodeTagged size kind.code = decodeFixed size (.primitive kind) := by
  rw [decodeTagged, Primitive.ofCode?_code, decodeFixed]
  cases a <;> cases h <;> rfl

/-- A value of the announced type is read back behind the name. -/
theorem Argument.HasType.takes_announced {α : Type} (make : Argument → α)
    {tag : ValueTag} {a : Argument} (size : Nat) (h : HasType tag.type a)
    {bytes : List UInt8} (encoded : a.encode = .ok bytes) :
    Takes (if tag.lead = NamedArgument.arrayTag then do
        let elementTag ← byte
        return make (← decodeArray (decodeTagged size elementTag))
      else do
        return make (← decodeTagged size tag.lead)) (tag.element ++ bytes)
          (make a) := by
  cases tag with
  | single kind =>
    -- A single value is read by its own code.
    rw [ValueTag.lead, if_neg kind.code_ne_arrayTag, ValueTag.element,
      List.nil_append]
    obtain ⟨primitive⟩ := h
    rw [decodeTagged_code size primitive]
    exact (takes_decodePrimitive size primitive encoded).map make
  | array element =>
    -- An array is read by the code of its elements.
    rw [ValueTag.lead, if_pos rfl]
    refine Takes.byte_bind (Takes.map make ?_)
    cases h with
    | nullArray =>
      cases encoded
      exact fun _ => rfl
    | array small typed =>
      refine takes_decodeArray small encoded fun a ha front hfront => ?_
      obtain ⟨primitive⟩ := typed a ha
      rw [decodeTagged_code size primitive]
      exact takes_decodePrimitive size primitive hfront

/-! ### Named arguments -/

namespace NamedArgument

/-- A named argument is announced by a tag: its value is of the type, and its
name has a length that can be written. -/
structure IsAnnounced (tag : ValueTag) (argument : NamedArgument) : Prop where
  short : (Utf8.encode argument.name).length ≤ CompressedInteger.limit.toNat
  typed : argument.value.HasType tag.type

/-- What is written of a named argument is read back. -/
theorem IsAnnounced.takes {tag : ValueTag} {argument : NamedArgument}
    (size : Nat) (h : argument.IsAnnounced tag) {bytes : List UInt8}
    (encoded : argument.encode tag = .ok bytes) :
    Takes (decode size) bytes argument := by
  obtain ⟨name, value, hname, hvalue, rfl⟩ := two_eq_ok_iff.mp encoded
  obtain ⟨isField, text, a⟩ := argument
  rw [List.append_assoc, List.append_assoc, decode]
  -- Either kind is known, and the rest does not depend on which it is.
  refine Takes.byte_bind ?_
  cases isField with
  | true =>
    refine Takes.byte_bind ?_
    refine (takes_decodeText size hname).bind ?_
    exact h.typed.takes_announced (NamedArgument.mk true text) size hvalue
  | false =>
    refine Takes.byte_bind ?_
    refine (takes_decodeText size hname).bind ?_
    exact h.typed.takes_announced (NamedArgument.mk false text) size hvalue

/-- A named argument fails to be written only where its value does. -/
theorem IsAnnounced.exists_error_iff {tag : ValueTag} {argument : NamedArgument}
    (h : argument.IsAnnounced tag) :
    (∃ error, argument.encode tag = .error error) ↔
    argument.value.IsUnwritable := by
  obtain ⟨name, hname⟩ : ∃ name, encodeText argument.name = .ok name :=
    ⟨_, if_pos h.short⟩
  rw [← h.typed.exists_error_iff, encode, hname]
  exact exists_error_one_iff

/-- What is written of named arguments one behind the other is read one after
the other. -/
theorem takes_times {named : List (ValueTag × NamedArgument)} (size : Nat)
    (each : ∀ entry ∈ named, entry.2.IsAnnounced entry.1) {bytes : List UInt8}
    (encoded : encodeEach named = .ok bytes) :
    Takes (times (decode size) named.length) bytes (named.map Prod.snd) := by
  induction named generalizing bytes with
  | nil =>
    cases encoded
    exact Takes.pure []
  | cons entry rest ih =>
    obtain ⟨first, others⟩ := List.forall_mem_cons.mp each
    obtain ⟨front, back, hfront, hback, rfl⟩ := two_eq_ok_iff.mp encoded
    exact (first.takes size hfront).bind ((ih others hback).map (entry.2 :: ·))

/-- Named arguments fail to be written only where the value of one of them
does. -/
theorem exists_error_encodeEach {named : List (ValueTag × NamedArgument)}
    (each : ∀ entry ∈ named, entry.2.IsAnnounced entry.1) :
    (∃ error, encodeEach named = .error error) ↔
      ∃ entry ∈ named, entry.2.value.IsUnwritable := by
  induction named with
  | nil => simp [encodeEach, pure, Except.pure]
  | cons entry rest ih =>
    obtain ⟨first, others⟩ := List.forall_mem_cons.mp each
    simp only [List.mem_cons, exists_eq_or_imp, ← first.exists_error_iff,
      ← ih others]
    rw [encodeEach]
    exact exists_error_two_iff

end NamedArgument

/-! ### Values -/

namespace AttributeValue

/-- What is laid out is read by a constructor whose parameters have the types of
the constructor arguments. -/
theorem ofBytes_of_layOut {constructor : MethodSig} {fixed : List Argument}
    {named : List (ValueTag × NamedArgument)}
    (typed : Argument.HaveTypes constructor.params fixed)
    (few : named.length ≤ 0xFFFF)
    (each : ∀ entry ∈ named, entry.2.IsAnnounced entry.1) {bytes : List UInt8}
    (encoded : layOut fixed named = .ok bytes) :
    ofBytes bytes constructor
      = .ok { fixed := fixed, named := named.map Prod.snd } := by
  obtain ⟨front, back, hfront, hback, rfl⟩ := two_eq_ok_iff.mp encoded
  refine ofBytes_of_takes fun size => ?_
  have read := NamedArgument.takes_times size each hback
  rw [← List.length_map Prod.snd] at few read ⊢
  exact takes_decode size typed hfront few read

/-- A value fails to be laid out only where a constructor argument or the value
of a named argument cannot be written. -/
theorem exists_error_layOut {params : List ParamSig} {fixed : List Argument}
    {named : List (ValueTag × NamedArgument)}
    (typed : Argument.HaveTypes params fixed)
    (each : ∀ entry ∈ named, entry.2.IsAnnounced entry.1) :
    (∃ error, layOut fixed named = .error error) ↔
      (∃ a ∈ fixed, a.IsUnwritable) ∨
        ∃ entry ∈ named, entry.2.value.IsUnwritable := by
  rw [← typed.exists_error_iff, ← NamedArgument.exists_error_encodeEach each,
    layOut]
  exact exists_error_two_iff

/-- The whole format of a value is read.  Constructor arguments of the types of
the parameters, and up to 65535 named arguments that are announced by their
tags, are read from what is laid out for them, in this order; and it can be laid
out unless a character or text among the values, at whatever depth of arrays,
cannot be written. -/
theorem isReadAsLaidOut {constructor : MethodSig} {fixed : List Argument}
    {named : List (ValueTag × NamedArgument)}
    (typed : Argument.HaveTypes constructor.params fixed)
    (few : named.length ≤ 0xFFFF)
    (each : ∀ entry ∈ named, entry.2.IsAnnounced entry.1) :
    (∀ bytes, layOut fixed named = .ok bytes →
      ofBytes bytes constructor
        = .ok { fixed := fixed, named := named.map Prod.snd }) ∧
    ((∃ error, layOut fixed named = .error error) ↔
      (∃ a ∈ fixed, a.IsUnwritable) ∨
        ∃ entry ∈ named, entry.2.value.IsUnwritable) := by
  constructor
  · intro bytes encoded
    exact ofBytes_of_layOut typed few each encoded
  · exact exists_error_layOut typed each

/-- A number, no text, an array with a missing text in it, a missing array and
an empty one, behind a character and an array of texts. -/
theorem namedSample_isRead :
    let constructor := MethodSig.instance_ (.primitive .void)
      [.primitive .char, .plainVector (.primitive .string)]
    let fixed : List Argument :=
      [.char '€', .array [.string (some "a"), .string none]]
    let named : List (ValueTag × NamedArgument) :=
      [(.single .i4, ⟨false, "Value", .i4 42⟩),
        (.single .string, ⟨true, "né", .string none⟩),
        (.array .string, ⟨true, "", .array [.string none, .string (some "b")]⟩),
        (.array .u1, ⟨false, "X", .nullArray⟩),
        (.array .u1, ⟨false, "Y", .array []⟩)]
    let bytes : List UInt8 :=
      [0x01, 0x00, 0xAC, 0x20, 0x02, 0x00, 0x00, 0x00, 0x01, 0x61,
        0xFF, 0x05, 0x00,
        0x54, 0x08, 0x05, 0x56, 0x61, 0x6C, 0x75, 0x65, 0x2A, 0x00, 0x00, 0x00,
        0x53, 0x0E, 0x03, 0x6E, 0xC3, 0xA9, 0xFF,
        0x53, 0x1D, 0x00, 0x0E, 0x02, 0x00, 0x00, 0x00, 0xFF, 0x01, 0x62,
        0x54, 0x1D, 0x01, 0x58, 0x05, 0xFF, 0xFF, 0xFF, 0xFF,
        0x54, 0x1D, 0x01, 0x59, 0x05, 0x00, 0x00, 0x00, 0x00]
    Argument.HaveTypes constructor.params fixed ∧
      (∀ entry ∈ named, entry.2.IsAnnounced entry.1) ∧
      layOut fixed named = .ok bytes ∧
      ofBytes bytes constructor
      = .ok { fixed := fixed, named := named.map Prod.snd } := by
  intro constructor fixed named bytes
  -- Both values of an array of texts are texts.
  have texts (first second : Option String) :
      ∀ a ∈ [Argument.string first, .string second],
        a.HasType (.primitive .string) := by
    simp only [List.mem_cons, List.not_mem_nil, or_false]
    rintro _ (rfl | rfl)
    all_goals exact .primitive rfl
  have typed : Argument.HaveTypes constructor.params fixed :=
    .cons (.primitive rfl) (.cons (.array (by decide) (texts _ _)) .nil)
  have each : ∀ entry ∈ named, entry.2.IsAnnounced entry.1 := by
    simp only [named, List.mem_cons, List.not_mem_nil, or_false]
    rintro _ (rfl | rfl | rfl | rfl | rfl)
    · -- A number, a missing text, an array of texts, no array and an empty one.
      exact ⟨by decide, .primitive rfl⟩
    · exact ⟨by decide, .primitive rfl⟩
    · exact ⟨by decide, .array (by decide) (texts _ _)⟩
    · exact ⟨by decide, .nullArray⟩
    · exact ⟨by decide, .array (by decide) nofun⟩
  have encoded : layOut fixed named = .ok bytes := by
    dsimp only [fixed, named, bytes]
    rfl
  exact ⟨typed, each, encoded,
    (isReadAsLaidOut typed (by decide) each).1 bytes encoded⟩

end AttributeValue

end CliMetadata
