import CliMetadata.Attribute.Decode
import CliMetadata.Attribute.Encode
import CliMetadata.Proofs.CompressedInteger
import CliMetadata.Proofs.LittleEndian
import CliMetadata.Proofs.Text.Utf8

/-!
# Attribute values survive being written and read

The value of an attribute does not say of which types its arguments are: it is
read by the types of the constructor's parameters.  `Argument.HasType` says when
an argument is of the type of a parameter, and then what is written of it is
what the type makes the reader take (`Argument.HasType.takes`).

Two marks stand for what is missing.  The byte `FF` is no text, and no length
starts with it, since a number of up to 29 bits starts below `E0`.  The count
`FFFFFFFF` is no array, and it is no number of elements either where arrays are
shorter than it.

Writing fails for two reasons only (`Argument.IsUnwritable`): a character of
more than sixteen bits and a text whose length takes more than 29.  Both are
found at any depth of arrays.
-/

namespace CliMetadata

open Decoder

/-! ### Words and texts -/

namespace Decoder

/-- A word is read back if it has room in its bytes. -/
theorem takes_word {width value : Nat} (h : value < 256 ^ width) :
    Takes (word width) (littleEndian width value) value := by
  have bytes := Takes.block (littleEndian width value)
  rw [length_littleEndian] at bytes
  have read := bytes.map ofLittleEndian
  rw [ofLittleEndian_littleEndian, Nat.mod_eq_of_lt h] at read
  exact read

/-- Where bytes follow, the end is not reached. -/
theorem Takes.atEnd_bind {β : Type} {f : Bool → Decoder β} {b : UInt8}
    {back : List UInt8} {value : β}
    (second : Takes (f false) (b :: back) value) :
    Takes (atEnd >>= f) (b :: back) value :=
  fun rest => second rest

end Decoder

/-- The bytes of a number start with no mark of a missing text. -/
theorem CompressedInteger.encode_eq_cons {value : UInt32} (h : value ≤ limit) :
    ∃ lead tail, encode value = lead :: tail ∧ lead ≠ 0xFF := by
  have read := takes_encode h []
  cases bytes : encode value with
  | nil =>
    rw [bytes] at read
    cases read
  | cons lead tail =>
    refine ⟨lead, tail, rfl, ?_⟩
    rintro rfl
    -- A number that starts with the mark would be malformed.
    rw [bytes, List.append_nil, run_decode_malformed (by decide)] at read
    cases read

/-- A text is read back, and is not taken for a missing one. -/
theorem takes_decodeText {text : String} {bytes : List UInt8} (size : Nat)
    (encoded : encodeText text = .ok bytes) :
    Takes (decodeText size) bytes (some text) := by
  rw [encodeText] at encoded
  split at encoded
  · next short =>
    cases encoded
    have number : (UInt32.ofNat (Utf8.encode text).length).toNat
        = (Utf8.encode text).length := by
      have bound : CompressedInteger.limit.toNat < 2 ^ 32 := by decide
      rw [UInt32.toNat_ofNat',
        Nat.mod_eq_of_lt (Nat.lt_of_le_of_lt short bound)]
    have small :
        UInt32.ofNat (Utf8.encode text).length ≤ CompressedInteger.limit := by
      rw [UInt32.le_iff_toNat_le, number]
      exact short
    obtain ⟨lead, tail, length, unmarked⟩ :=
      CompressedInteger.encode_eq_cons small
    have takesLength := CompressedInteger.takes_encode small
    rw [CompressedInteger.encodeLength]
    intro rest
    -- The first byte is one of the length.
    have peeked :
        peek.run
          (CompressedInteger.encode (UInt32.ofNat (Utf8.encode text).length)
        ++ Utf8.encode text ++ rest) = .ok (lead, CompressedInteger.encode
          (UInt32.ofNat (Utf8.encode text).length) ++
            Utf8.encode text ++ rest) := by
      rw [length]
      rfl
    rw [decodeText, run_bind_eq_ok]
    refine ⟨lead, _, peeked, ?_⟩
    rw [if_neg unmarked, List.append_assoc, run_bind_eq_ok]
    refine ⟨_, _, takesLength _, ?_⟩
    rw [run_bind_eq_ok]
    refine ⟨_, _, rfl, ?_⟩
    rw [run_bind_eq_ok, number]
    refine ⟨_, _, Takes.block _ rest, ?_⟩
    rw [Utf8.decode_encode]
    rfl
  · cases encoded

/-! ### One result or two

What is written is put together from one result or from two in turn, and there
are bytes if there are all of these. -/

section
variable {α β γ : Type} {first : Except Error α} {second : Except Error β}

theorem one_eq_ok_iff {f : α → γ} {c : γ} :
    (do return f (← first)) = .ok c ↔ ∃ a, first = .ok a ∧ c = f a := by
  cases first with
  | error error => exact ⟨nofun, nofun⟩
  | ok a =>
    constructor
    · rintro ⟨⟩
      exact ⟨a, rfl, rfl⟩
    · rintro ⟨_, ⟨⟩, rfl⟩
      rfl

theorem exists_error_one_iff {f : α → γ} :
    (∃ error, (do return f (← first)) = .error error) ↔
      ∃ error, first = .error error := by
  cases first with
  | error error => exact ⟨fun _ => ⟨error, rfl⟩, fun _ => ⟨error, rfl⟩⟩
  | ok a => exact ⟨nofun, nofun⟩

theorem two_eq_ok_iff {f : α → β → γ} {c : γ} :
    (do return f (← first) (← second)) = .ok c ↔
      ∃ a b, first = .ok a ∧ second = .ok b ∧ c = f a b := by
  cases first with
  | error error => exact ⟨nofun, nofun⟩
  | ok a =>
    refine (one_eq_ok_iff (f := f a)).trans ?_
    constructor
    · rintro ⟨b, hb, rfl⟩
      exact ⟨a, b, rfl, hb, rfl⟩
    · rintro ⟨_, b, ⟨⟩, hb, rfl⟩
      exact ⟨b, hb, rfl⟩

theorem exists_error_two_iff {f : α → β → γ} :
    (∃ error, (do return f (← first) (← second)) = .error error) ↔
      (∃ error, first = .error error) ∨ ∃ error, second = .error error := by
  cases first with
  | error error => exact ⟨fun _ => .inl ⟨error, rfl⟩, fun _ => ⟨error, rfl⟩⟩
  | ok a =>
    refine (exists_error_one_iff (f := f a)).trans ?_
    constructor
    · exact .inr
    · rintro (⟨_, ⟨⟩⟩ | failed)
      exact failed

end

/-! ### Types of arguments -/

namespace Argument

/-- The primitive type that an argument is of, if it is no array. -/
def primitive? : Argument → Option Primitive
  | .bool _ => some .boolean
  | .char _ => some .char
  | .i1 _ => some .i1
  | .u1 _ => some .u1
  | .i2 _ => some .i2
  | .u2 _ => some .u2
  | .i4 _ => some .i4
  | .u4 _ => some .u4
  | .i8 _ => some .i8
  | .u8 _ => some .u8
  | .r4 _ => some .r4
  | .r8 _ => some .r8
  | .string _ => some .string
  | .array _ | .nullArray => none

/-- An argument is of the type of a parameter: of a primitive type, or an array
all of whose elements are of the element type, and which is missing or shorter
than the mark of a missing one. -/
inductive HasType : TypeSig → Argument → Prop where
  | primitive {kind : Primitive} {a : Argument} :
      a.primitive? = some kind → HasType (.primitive kind) a
  | nullArray {modifiers : List Modifier} {element : TypeSig} :
      HasType (.vector modifiers element) .nullArray
  | array {modifiers : List Modifier} {element : TypeSig}
      {elements : List Argument} :
      elements.length < missingArray → (∀ a ∈ elements, HasType element a) →
        HasType (.vector modifiers element) (.array elements)

/-- Arguments are of the types of parameters, one for each. -/
abbrev HaveTypes (params : List ParamSig) (arguments : List Argument) : Prop :=
  List.Forall₂ (fun param a => HasType param.type a) params arguments

/-! ### Arguments -/

@[simp]
theorem encodeEach_cons_eq_ok {a : Argument} {rest : List Argument}
    {bytes : List UInt8} :
    encodeEach (a :: rest) = .ok bytes ↔ ∃ front back, a.encode = .ok front ∧
      encodeEach rest = .ok back ∧ bytes = front ++ back := by
  rw [encodeEach]
  exact two_eq_ok_iff

/-- Arguments that were written one behind the other are read one after the
other. -/
theorem takes_times {item : Decoder Argument} {arguments : List Argument}
    {bytes : List UInt8} (encoded : encodeEach arguments = .ok bytes)
    (each : ∀ a ∈ arguments, ∀ front, a.encode = .ok front →
      Takes item front a) :
    Takes (times item arguments.length) bytes arguments := by
  induction arguments generalizing bytes with
  | nil =>
    cases encoded
    exact Takes.pure []
  | cons a rest ih =>
    obtain ⟨front, back, hfront, hback, rfl⟩ := encodeEach_cons_eq_ok.mp encoded
    obtain ⟨first, others⟩ := List.forall_mem_cons.mp each
    exact (first front hfront).bind ((ih hback others).map (a :: ·))

/-- A number is read back if it has room in its bytes. -/
theorem takes_number {width value : Nat} {make : Nat → Argument} {a : Argument}
    (h : value < 256 ^ width) (same : make value = a) :
    Takes (do return make (← word width)) (littleEndian width value) a := by
  rw [← same]
  exact (takes_word h).map make

/-- A primitive argument is read back by its type. -/
theorem takes_decodePrimitive {a : Argument} {kind : Primitive}
    {bytes : List UInt8} (size : Nat) (h : a.primitive? = some kind)
    (encoded : a.encode = .ok bytes) :
    Takes (decodeFixed size (.primitive kind)) bytes a := by
  rw [decodeFixed]
  cases a with
  | bool value =>
    cases h
    cases encoded
    cases value
    all_goals exact Takes.byte_bind (Takes.pure _)
  | char value =>
    cases h
    rw [encode] at encoded
    split at encoded
    · next narrow =>
      cases encoded
      -- The number of a character is one that a character has.
      have last : Takes (if Nat.isValidChar value.toNat then
          Pure.pure (Argument.char (Char.ofNat value.toNat))
          else malformed (.charArgument (UInt16.ofNat value.toNat))) []
            (Argument.char value) := by
        have valid : Nat.isValidChar value.toNat := value.valid
        rw [if_pos valid, value.ofNat_toNat]
        exact Takes.pure _
      have code : Takes (word 2) (littleEndian 2 value.toNat) value.toNat :=
        takes_word narrow
      have read := code.bind (f := fun code =>
        if Nat.isValidChar code then Pure.pure (Argument.char (Char.ofNat code))
        else malformed (.charArgument (UInt16.ofNat code))) last
      rw [List.append_nil] at read
      exact read
    · cases encoded
  | i1 value =>
    cases h
    cases encoded
    exact takes_number value.toUInt8.toNat_lt
      (congrArg (Argument.i1 ·.toInt8) UInt8.ofNat_toNat)
  | u1 value =>
    cases h
    cases encoded
    exact takes_number value.toNat_lt (congrArg Argument.u1 UInt8.ofNat_toNat)
  | i2 value =>
    cases h
    cases encoded
    exact takes_number value.toUInt16.toNat_lt
      (congrArg (Argument.i2 ·.toInt16) UInt16.ofNat_toNat)
  | u2 value =>
    cases h
    cases encoded
    exact takes_number value.toNat_lt (congrArg Argument.u2 UInt16.ofNat_toNat)
  | i4 value =>
    cases h
    cases encoded
    exact takes_number value.toUInt32.toNat_lt
      (congrArg (Argument.i4 ·.toInt32) UInt32.ofNat_toNat)
  | u4 value =>
    cases h
    cases encoded
    exact takes_number value.toNat_lt (congrArg Argument.u4 UInt32.ofNat_toNat)
  | i8 value =>
    cases h
    cases encoded
    exact takes_number value.toUInt64.toNat_lt
      (congrArg (Argument.i8 ·.toInt64) UInt64.ofNat_toNat)
  | u8 value =>
    cases h
    cases encoded
    exact takes_number value.toNat_lt (congrArg Argument.u8 UInt64.ofNat_toNat)
  | r4 bits =>
    cases h
    cases encoded
    exact takes_number bits.toNat_lt (congrArg Argument.r4 UInt32.ofNat_toNat)
  | r8 bits =>
    cases h
    cases encoded
    exact takes_number bits.toNat_lt (congrArg Argument.r8 UInt64.ofNat_toNat)
  | string value =>
    cases h
    cases value with
    | none =>
      cases encoded
      have missing : Takes (decodeText size) [0xFF] none := fun _ => rfl
      exact missing.map Argument.string
    | some text => exact (takes_decodeText size encoded).map Argument.string
  | array => cases h
  | nullArray => cases h

/-- An array is read back if its elements are. -/
theorem takes_decodeArray {item : Decoder Argument} {elements : List Argument}
    {bytes : List UInt8} (small : elements.length < missingArray)
    (encoded : (Argument.array elements).encode = .ok bytes)
    (each : ∀ a ∈ elements, ∀ front, a.encode = .ok front →
      Takes item front a) :
    Takes (decodeArray item) bytes (.array elements) := by
  have bound : elements.length < 0x100000000 := Nat.lt_trans small (by decide)
  rw [encode, if_pos bound] at encoded
  obtain ⟨back, body, rfl⟩ := one_eq_ok_iff.mp encoded
  have count : Takes (word 4) (littleEndian 4 elements.length)
      elements.length := takes_word bound
  -- A number of elements is not the mark of a missing array.
  refine count.bind ?_
  rw [if_neg (Nat.ne_of_lt small)]
  exact (takes_times body each).map Argument.array

/-- What is written of an argument is read back by its type. -/
theorem HasType.takes {type : TypeSig} {a : Argument} (size : Nat)
    (h : HasType type a) {bytes : List UInt8} (encoded : a.encode = .ok bytes) :
    Takes (decodeFixed size type) bytes a := by
  induction h generalizing bytes with
  | primitive kind => exact takes_decodePrimitive size kind encoded
  | nullArray =>
    cases encoded
    rw [decodeFixed]
    exact fun _ => rfl
  | array small _ ih =>
    rw [decodeFixed]
    exact takes_decodeArray small encoded fun a ha front hfront =>
      ih a ha hfront

/-- What is written of arguments is read back by the types of the parameters. -/
theorem HaveTypes.takes {params : List ParamSig} {arguments : List Argument}
    (size : Nat) (h : HaveTypes params arguments) {bytes : List UInt8}
    (encoded : encodeEach arguments = .ok bytes) :
    Takes (decodeFixedEach size params) bytes arguments := by
  induction h generalizing bytes with
  | nil =>
    cases encoded
    exact Takes.pure []
  | cons first _ ih =>
    obtain ⟨front, back, hfront, hback, rfl⟩ := encodeEach_cons_eq_ok.mp encoded
    exact (first.takes size hfront).bind ((ih hback).map _)

/-! ### What cannot be written -/

/-- An argument that is no value of an attribute, or has an element at some
depth that is none: a character of more than sixteen bits, or a text that is too
long. -/
inductive IsUnwritable : Argument → Prop where
  | char {value : Char} : 0x10000 ≤ value.toNat → IsUnwritable (.char value)
  | string {text : String} : CompressedInteger.limit.toNat
      < (Utf8.encode text).length →
      IsUnwritable (.string (some text))
  | element {elements : List Argument} {a : Argument} : a ∈ elements →
      IsUnwritable a →
      IsUnwritable (.array elements)

/-- Arguments fail to be written where one of them does. -/
@[simp]
theorem exists_error_encodeEach {arguments : List Argument} :
    (∃ error, encodeEach arguments = .error error) ↔
      ∃ a ∈ arguments, ∃ error, a.encode = .error error := by
  induction arguments with
  | nil => simp [encodeEach]
  | cons a rest ih =>
    simp only [List.mem_cons, exists_eq_or_imp, ← ih]
    rw [encodeEach]
    exact exists_error_two_iff

/-- An argument of the type of a parameter fails to be written only where it is
said to. -/
theorem HasType.exists_error_iff {type : TypeSig} {a : Argument}
    (h : HasType type a) :
    (∃ error, a.encode = .error error) ↔ a.IsUnwritable := by
  induction h with
  | @primitive kind a h =>
    cases a with
    | char value =>
      rw [encode]
      split
      · next narrow =>
        constructor
        · rintro ⟨_, ⟨⟩⟩
        · rintro ⟨wide⟩
          omega
      · next wide =>
        constructor
        · intro _
          exact .char (Nat.le_of_not_lt wide)
        · intro _
          exact ⟨_, rfl⟩
    | string value =>
      cases value with
      | none =>
        constructor
        · rintro ⟨_, ⟨⟩⟩
        · rintro ⟨⟩
      | some text =>
        rw [encode, encodeText]
        split
        · next short =>
          constructor
          · rintro ⟨_, ⟨⟩⟩
          · rintro (_ | long)
            omega
        · next long =>
          constructor
          · intro _
            exact .string (Nat.lt_of_not_le long)
          · intro _
            exact ⟨_, rfl⟩
    | array | nullArray => cases h
    | _ =>
      constructor
      · rintro ⟨_, ⟨⟩⟩
      · rintro ⟨⟩
  | nullArray =>
    constructor
    · rintro ⟨_, ⟨⟩⟩
    · rintro ⟨⟩
  | @array modifiers element elements small _ ih =>
    have bound : elements.length < 0x100000000 := Nat.lt_trans small (by decide)
    -- The number of elements can be written, so that one of the elements
    -- cannot.
    have inside : (∃ error, (Argument.array elements).encode = .error error) ↔
        ∃ error, encodeEach elements = .error error := by
      rw [encode, if_pos bound]
      exact exists_error_one_iff
    rw [inside, exists_error_encodeEach]
    constructor
    · rintro ⟨a, ha, failed⟩
      exact .element ha ((ih a ha).mp failed)
    · rintro (_ | _ | ⟨ha, unwritable⟩)
      exact ⟨_, ha, (ih _ ha).mpr unwritable⟩

/-- Arguments of the types of the parameters fail to be written only where one
of them is said to. -/
theorem HaveTypes.exists_error_iff {params : List ParamSig}
    {arguments : List Argument} (h : HaveTypes params arguments) :
    (∃ error, encodeEach arguments = .error error) ↔
      ∃ a ∈ arguments, a.IsUnwritable := by
  rw [exists_error_encodeEach]
  induction h with
  | nil => simp
  | cons first _ ih =>
    simp only [List.mem_cons, exists_eq_or_imp, ih, first.exists_error_iff]

end Argument

/-! ### Values -/

/-- A value is written if its arguments are: between a prolog and the number of
named arguments. -/
@[simp]
theorem encodeAttribute_eq_ok {arguments : List Argument} {bytes : List UInt8} :
    encodeAttribute arguments = .ok bytes ↔
      ∃ body, Argument.encodeEach arguments = .ok body ∧
      bytes = [0x01, 0x00] ++ body ++ [0x00, 0x00] := by
  rw [encodeAttribute]
  exact one_eq_ok_iff

/-- Behind constructor arguments of the types of the parameters, the count tells
how many named arguments are read. -/
theorem AttributeValue.takes_decode {params : List ParamSig}
    {fixed : List Argument} {named : List NamedArgument} (size : Nat)
    (typed : Argument.HaveTypes params fixed) {front back : List UInt8}
    (encoded : Argument.encodeEach fixed = .ok front)
    (few : named.length ≤ 0xFFFF)
    (read : Takes (times (NamedArgument.decode size) named.length) back named) :
    Takes (AttributeValue.decode size params)
      ([0x01, 0x00] ++ front ++ littleEndian 2 named.length ++ back)
      ⟨fixed, named⟩ := by
  have one : 1 < 256 ^ 2 := by decide
  have room : named.length < 256 ^ 2 := Nat.lt_of_le_of_lt few (by decide)
  have prolog : Takes (word 2) [0x01, 0x00] 1 := takes_word one
  have count : Takes (word 2) (littleEndian 2 named.length) named.length :=
    takes_word room
  rw [AttributeValue.decode, List.append_assoc, List.append_assoc]
  refine prolog.bind ?_
  rw [if_neg (by decide)]
  refine (typed.takes size encoded).bind ?_
  -- The count follows, even if it is zero.
  refine Takes.atEnd_bind ?_
  rw [if_neg Bool.false_ne_true]
  exact count.bind (read.map (AttributeValue.mk fixed))

/-- Bytes that are all taken are a value. -/
theorem AttributeValue.ofBytes_of_takes {constructor : MethodSig}
    {bytes : List UInt8} {value : AttributeValue}
    (taken : ∀ size, Takes (decode size constructor.params) bytes value) :
    ofBytes bytes constructor = .ok value := by
  cases bytes with
  | nil => cases taken 0 []
  | cons => exact (taken _).run'

/-- The value of an attribute is read back by a constructor whose parameters
have the types of the arguments. -/
theorem AttributeValue.ofBytes_of_encodeAttribute {constructor : MethodSig}
    {arguments : List Argument}
    (typed : Argument.HaveTypes constructor.params arguments)
    {bytes : List UInt8} (encoded : encodeAttribute arguments = .ok bytes) :
    AttributeValue.ofBytes bytes constructor = .ok { fixed := arguments } := by
  obtain ⟨body, hbody, rfl⟩ := encodeAttribute_eq_ok.mp encoded
  refine ofBytes_of_takes fun size => ?_
  have few : ([] : List NamedArgument).length ≤ 0xFFFF := Nat.zero_le _
  have taken := takes_decode size typed hbody few (Takes.pure [])
  rw [List.append_nil] at taken
  exact taken

/-- Writing a value fails where an argument cannot be written. -/
theorem exists_error_encodeAttribute {params : List ParamSig}
    {arguments : List Argument} (typed : Argument.HaveTypes params arguments) :
    (∃ error, encodeAttribute arguments = .error error) ↔
      ∃ a ∈ arguments, a.IsUnwritable := by
  rw [← typed.exists_error_iff, encodeAttribute]
  exact exists_error_one_iff

/-- The value of an attribute survives being written and read.  What was written
is read back by any constructor that takes arguments of these types, with
nothing set by name; and it is written unless a character or text among the
arguments, at whatever depth of arrays, cannot be. -/
theorem AttributeValue.survives {constructor : MethodSig}
    {arguments : List Argument}
    (typed : Argument.HaveTypes constructor.params arguments) :
    (∀ bytes, encodeAttribute arguments = .ok bytes →
      AttributeValue.ofBytes bytes constructor
        = .ok { fixed := arguments, named := [] }) ∧
    ((∃ error, encodeAttribute arguments = .error error) ↔
      ∃ a ∈ arguments, a.IsUnwritable) := by
  constructor
  · intro bytes encoded
    exact AttributeValue.ofBytes_of_encodeAttribute typed encoded
  · exact exists_error_encodeAttribute typed

/-- A text, no text, a character and an array of arrays, one of which is
missing. -/
theorem AttributeValue.mixedSample_survives :
    let constructor := MethodSig.instance_ (.primitive .void)
      [.primitive .string, .primitive .string, .primitive .char,
        .vector [] (.vector [] (.primitive .i4))]
    let arguments : List Argument :=
      [.string (some "né"), .string none, .char '€',
        .array [.array [.i4 (-2)], .nullArray]]
    let bytes : List UInt8 :=
      [0x01, 0x00, 0x03, 0x6E, 0xC3, 0xA9, 0xFF, 0xAC, 0x20, 0x02, 0x00, 0x00,
        0x00, 0x01, 0x00, 0x00,
        0x00, 0xFE, 0xFF, 0xFF, 0xFF, 0xFF, 0xFF, 0xFF, 0xFF, 0x00, 0x00]
    Argument.HaveTypes constructor.params arguments ∧
    encodeAttribute arguments = .ok bytes ∧
      AttributeValue.ofBytes bytes constructor
        = .ok { fixed := arguments, named := [] } := by
  intro constructor arguments bytes
  -- An inner array, and one that is missing.
  have inner : ∀ a ∈ [Argument.array [.i4 (-2)], .nullArray],
      a.HasType (.vector [] (.primitive .i4)) := by
    simp only [List.mem_cons, List.not_mem_nil, or_false]
    rintro _ (rfl | rfl)
    · refine .array (by decide) ?_
      simpa using Argument.HasType.primitive rfl
    · exact .nullArray
  have typed : Argument.HaveTypes constructor.params arguments :=
    .cons (.primitive rfl) (.cons (.primitive rfl) (.cons (.primitive rfl)
      (.cons (.array (by decide) inner) .nil)))
  have encoded : encodeAttribute arguments = .ok bytes := by rfl
  exact ⟨typed, encoded, (AttributeValue.survives typed).1 bytes encoded⟩

end CliMetadata
