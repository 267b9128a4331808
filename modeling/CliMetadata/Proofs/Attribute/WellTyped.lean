import CliMetadata.Proofs.Attribute.Named

/-!
# What is read of an attribute can be written

More is accepted than is ever written.  Any byte but zero stands for true, the
length of a text may take more bytes than it needs, the number of named
arguments may be missing, and bytes may be left.  Nothing of this is left in the
value: what is read by a type is of the type and can be written
(`Argument.IsValueOf`), at whatever depth of arrays.  A text that is read is
short enough because its bytes stood behind a length, and the bytes of a text
are determined by it (`Utf8.encode_of_decode`); a character that is read has
sixteen bits because its code has.

So constructor arguments that are read are written again, and are read again as
the same, which is `AttributeValue.isRewritten`.  Named arguments are not
written by the encoder, but can be laid out (`AttributeValue.isLaidOut`).
-/

namespace CliMetadata

open Decoder

/-! ### Words and texts -/

theorem Decoder.Yields.word (width : Nat) :
    Yields (Decoder.word width) fun _ value => value < 256 ^ width := by
  refine (Yields.block width).map fun front bytes h => ?_
  obtain ⟨rfl, rfl⟩ := h
  exact ofLittleEndian_lt bytes

/-- The bytes of a text that is read stood behind a length. -/
theorem yields_decodeText (size : Nat) :
    Yields (decodeText size) fun _ text? =>
      ∀ text ∈ text?, (Utf8.encode text).length
        ≤ CompressedInteger.limit.toNat := by
  refine Yields.peek.bind fun _ b _ => ?_
  -- The byte of a missing text leaves nothing to be bounded.
  refine Yields.ite (fun _ => Yields.byte.bind fun _ _ _ => Yields.pure nofun)
    fun _ => ?_
  refine CompressedInteger.yields_decode.bind fun _ length hlength => ?_
  refine Yields.remaining.bind fun _ _ _ => ?_
  refine (Yields.block length.toNat).bind fun _ bytes hbytes => ?_
  cases decoded : Utf8.decode bytes with
  | error fault => exact Yields.malformed _
  | ok text =>
    refine Yields.pure fun _ same => ?_
    obtain rfl := Option.mem_some.mp same
    -- The text is as long as the block that was announced.
    obtain ⟨rfl, count⟩ := hbytes
    rw [Utf8.encode_of_decode decoded, count]
    exact UInt32.le_iff_toNat_le.mp hlength.1

/-! ### Arguments -/

namespace Argument

/-- An argument is of a type and can be written. -/
structure IsValueOf (type : TypeSig) (a : Argument) : Prop where
  typed : HasType type a
  writable : ¬ a.IsUnwritable

namespace IsValueOf

theorem nullArray {modifiers : List Modifier} {element : TypeSig} :
    IsValueOf (.vector modifiers element) .nullArray :=
  ⟨.nullArray, nofun⟩

theorem array {modifiers : List Modifier} {element : TypeSig}
    {elements : List Argument} (small : elements.length < missingArray)
    (each : ∀ a ∈ elements, IsValueOf element a) :
    IsValueOf (.vector modifiers element) (.array elements) := by
  refine ⟨.array small fun a ha => (each a ha).typed, ?_⟩
  rintro (_ | _ | ⟨ha, unwritable⟩)
  exact (each _ ha).writable unwritable

end IsValueOf

/-- What is read as a primitive type is a value of it. -/
theorem yields_decodePrimitive {size : Nat} {kind : Primitive}
    {d : Decoder Argument} (h : decodePrimitive? size kind = some d) :
    Yields d fun _ a => IsValueOf (.primitive kind) a := by
  cases kind with
  | boolean =>
    cases h
    exact Yields.byte.map fun _ _ _ => ⟨.primitive rfl, nofun⟩
  | char =>
    -- Two bytes give no character beyond the first plane.
    cases h
    refine (Yields.word 2).bind fun _ code narrow => ?_
    refine Yields.ite (fun valid => Yields.pure ⟨.primitive rfl, ?_⟩)
      fun _ => Yields.malformed _
    have number : (Char.ofNat code).toNat = code := Utf8.toNat_ofNat_char valid
    rintro ⟨wide⟩
    rw [number] at wide
    exact absurd narrow (Nat.not_lt.mpr wide)
  | string =>
    -- A text that was read is short enough to be written.
    cases h
    refine (yields_decodeText size).map fun _ text? short =>
      ⟨.primitive rfl, ?_⟩
    rintro (_ | long)
    exact absurd (short _ rfl) (Nat.not_le.mpr long)
  | void | typedByRef | i | u | object => cases h
  | _ =>
    cases h
    exact (Yields.word _).map fun _ _ _ => ⟨.primitive rfl, nofun⟩

/-- What is read as an array is an array of what its elements are read as. -/
theorem yields_decodeArray {item : Decoder Argument} {element : TypeSig}
    (modifiers : List Modifier)
    (each : Yields item fun _ a => IsValueOf element a) :
    Yields (decodeArray item) fun _ a => IsValueOf
      (.vector modifiers element) a := by
  refine (Yields.word 4).bind fun _ count room => ?_
  refine Yields.ite (fun _ => Yields.pure .nullArray) fun given => ?_
  refine (Yields.times_each each count).map fun _ elements h => ?_
  -- A count of four bytes that is not the mark of a missing array is below it.
  refine .array ?_ h.1
  rw [h.2]
  exact Nat.lt_of_le_of_ne (Nat.le_of_lt_succ room) given

/-- What is read by the type of a parameter is a value of it. -/
theorem yields_decodeFixed (size : Nat) (type : TypeSig) :
    Yields (decodeFixed size type) fun _ a => IsValueOf type a := by
  induction type using decodeFixed.induct with
  | case1 kind =>
    rw [decodeFixed]
    cases h : decodePrimitive? size kind with
    | none => exact Yields.throw _
    | some d => exact yields_decodePrimitive h
  | case2 modifiers element ih =>
    rw [decodeFixed]
    exact yields_decodeArray modifiers ih
  | case3 other =>
    rw [decodeFixed]
    · exact Yields.throw _
    all_goals assumption

/-- What is read by the types of parameters is a value for each of them. -/
theorem yields_decodeFixedEach (size : Nat) (params : List ParamSig) :
    Yields (decodeFixedEach size params) fun _ arguments =>
      HaveTypes params arguments ∧ ∀ a ∈ arguments, ¬ a.IsUnwritable := by
  induction params with
  | nil => exact Yields.pure ⟨.nil, nofun⟩
  | cons param rest ih =>
    refine (yields_decodeFixed size param.type).bind fun _ a first => ?_
    refine ih.map fun _ arguments others => ?_
    exact ⟨.cons first.typed others.1,
      List.forall_mem_cons.mpr ⟨first.writable, others.2⟩⟩

/-- A tag selects one type for all that is read by it. -/
theorem exists_yields_decodeTagged (size : Nat) (tag : UInt8) :
    ∃ kind, Yields (decodeTagged size tag) fun _ a => IsValueOf
      (.primitive kind) a := by
  rw [decodeTagged]
  cases Primitive.ofCode? tag with
  | none => exact ⟨.boolean, Yields.throw _⟩
  | some kind =>
    refine ⟨kind, ?_⟩
    rw [Option.bind_some]
    cases h : decodePrimitive? size kind with
    | none => exact Yields.throw _
    | some d => exact yields_decodePrimitive h

end Argument

/-! ### Named arguments -/

/-- A named argument that is read is announced by a tag, and its value can be
written. -/
theorem NamedArgument.yields_decode (size : Nat) :
    Yields (decode size) fun _ argument =>
      ∃ tag, argument.IsAnnounced tag ∧ ¬ argument.value.IsUnwritable := by
  refine Yields.byte.bind fun _ kind _ => ?_
  refine Yields.ite (fun _ => Yields.malformed _) fun _ => ?_
  refine Yields.byte.bind fun _ tag _ => ?_
  refine (yields_decodeText size).bind fun _ name? short => ?_
  cases name? with
  | none => exact Yields.malformed _
  | some name =>
    refine Yields.ite (fun _ => ?_) fun _ => ?_
    · -- An array is announced by the code of its elements.
      refine Yields.byte.bind fun _ elementTag _ => ?_
      obtain ⟨element, each⟩ := Argument.exists_yields_decodeTagged
        size elementTag
      refine (Argument.yields_decodeArray [] each).map fun _ a h => ?_
      exact ⟨.array element, ⟨short name rfl, h.typed⟩, h.writable⟩
    · -- A single value is announced by its own code.
      obtain ⟨kind, one⟩ := Argument.exists_yields_decodeTagged size tag
      refine one.map fun _ a h => ?_
      exact ⟨.single kind, ⟨short name rfl, h.typed⟩, h.writable⟩

/-- Tags can be chosen for named arguments that are announced by some. -/
theorem NamedArgument.exists_entries {named : List NamedArgument}
    (each : ∀ argument ∈ named, ∃ tag,
      argument.IsAnnounced tag ∧ ¬ argument.value.IsUnwritable) :
    ∃ entries : List (ValueTag × NamedArgument), entries.map Prod.snd = named ∧
      ∀ entry ∈ entries, entry.2.IsAnnounced entry.1 ∧
      ¬ entry.2.value.IsUnwritable := by
  induction named with
  | nil => exact ⟨[], rfl, nofun⟩
  | cons argument rest ih =>
    obtain ⟨⟨tag, first⟩, others⟩ := List.forall_mem_cons.mp each
    obtain ⟨entries, rfl, hentries⟩ := ih others
    exact ⟨(tag, argument) :: entries, rfl,
      List.forall_mem_cons.mpr ⟨first, hentries⟩⟩

/-! ### Values -/

namespace AttributeValue

/-- What is read of a value: a constructor argument for each parameter, and
named arguments that are announced by tags, all of which can be written. -/
structure IsValueFor (params : List ParamSig) (value : AttributeValue) :
    Prop where
  typed : Argument.HaveTypes params value.fixed
  writable : ∀ a ∈ value.fixed, ¬ a.IsUnwritable
  few : value.named.length ≤ 0xFFFF
  announced : ∀ argument ∈ value.named,
    ∃ tag, argument.IsAnnounced tag ∧ ¬ argument.value.IsUnwritable

theorem yields_decode (size : Nat) (params : List ParamSig) :
    Yields (decode size params) fun _ value => value.IsValueFor params := by
  refine (Yields.word 2).bind fun _ prolog _ => ?_
  refine Yields.ite (fun _ => Yields.malformed _) fun _ => ?_
  refine (Argument.yields_decodeFixedEach size params).bind
    fun _ fixed hfixed => ?_
  refine Yields.atEnd.bind fun _ ended _ => ?_
  refine Yields.ite (fun _ => Yields.pure ⟨hfixed.1, hfixed.2, Nat.zero_le _,
    nofun⟩) fun _ => ?_
  refine (Yields.word 2).bind fun _ count room => ?_
  refine (Yields.times_each (NamedArgument.yields_decode size) count).map
    fun _ named hnamed => ?_
  refine ⟨hfixed.1, hfixed.2, ?_, hnamed.1⟩
  rw [hnamed.2]
  exact Nat.le_of_lt_succ room

theorem isValueFor_of_ofBytes {bytes : List UInt8} {constructor : MethodSig}
    {value : AttributeValue} (given : bytes ≠ [])
    (read : ofBytes bytes constructor = .ok value) :
    value.IsValueFor constructor.params := by
  rw [ofBytes, if_neg (by rwa [List.isEmpty_iff])] at read
  obtain ⟨_, told⟩ := (yields_decode _ _).of_run' read
  exact told

/-- Whatever is read can be laid out, and is read again from what is laid
out. -/
theorem isLaidOut {bytes : List UInt8} {constructor : MethodSig}
    {value : AttributeValue} (given : bytes ≠ [])
    (read : ofBytes bytes constructor = .ok value) :
    ∃ entries : List (ValueTag × NamedArgument),
    entries.map Prod.snd = value.named ∧
      ∃ again, layOut value.fixed entries = .ok again ∧
      ofBytes again constructor = .ok value := by
  have told := isValueFor_of_ofBytes given read
  obtain ⟨entries, names, each⟩ := NamedArgument.exists_entries told.announced
  have announced : ∀ entry ∈ entries, entry.2.IsAnnounced entry.1 :=
    fun entry h => (each entry h).1
  refine ⟨entries, names, ?_⟩
  cases encoded : layOut value.fixed entries with
  | error error =>
    obtain ⟨a, ha, unwritable⟩ | ⟨entry, h, unwritable⟩ :=
      (exists_error_layOut told.typed announced).mp ⟨error, encoded⟩
    · -- No fixed argument that was read is beyond writing.
      exact absurd unwritable (told.writable a ha)
    · -- Nor is the value of a named one.
      exact absurd unwritable (each entry h).2
  | ok again =>
    have few := told.few
    rw [← names, List.length_map] at few
    have back := ofBytes_of_layOut told.typed few announced encoded
    rw [names] at back
    exact ⟨again, rfl, back⟩

/-- What is read of an attribute is well typed and is written again.  Its
constructor arguments are one for each parameter and of its type, its named
arguments are of a primitive type or arrays of one, and what is written of the
constructor arguments is read as the same, with nothing set by name. -/
theorem isRewritten {bytes : List UInt8} {constructor : MethodSig}
    {value : AttributeValue} (given : bytes ≠ [])
    (read : ofBytes bytes constructor = .ok value) :
    Argument.HaveTypes constructor.params value.fixed ∧
    (∀ argument ∈ value.named, ∃ tag : ValueTag,
      argument.value.HasType tag.type) ∧
    ∃ again, encodeAttribute value.fixed = .ok again ∧
      ofBytes again constructor = .ok { fixed := value.fixed, named := [] } := by
  have told := isValueFor_of_ofBytes given read
  refine ⟨told.typed, ?_, ?_⟩
  · intro argument h
    obtain ⟨tag, announced, _⟩ := told.announced argument h
    exact ⟨tag, announced.typed⟩
  · cases encoded : encodeAttribute value.fixed with
    | error error =>
      -- Arguments that were read can be written.
      obtain ⟨a, ha, unwritable⟩ := (exists_error_encodeAttribute told.typed).mp
        ⟨error, encoded⟩
      exact absurd unwritable (told.writable a ha)
    | ok again =>
      exact ⟨again, rfl, ofBytes_of_encodeAttribute told.typed encoded⟩

/-- A byte that is neither zero nor one, a length in two bytes for one, and a
byte that is left. -/
theorem looseSample_isRewritten :
    let constructor := MethodSig.instance_ (.primitive .void)
      [.primitive .boolean, .primitive .string, .plainVector (.primitive .char)]
    let bytes : List UInt8 :=
      [0x01, 0x00, 0x07, 0x80, 0x01, 0x61, 0x01, 0x00, 0x00, 0x00, 0x41,
        0x00, 0x01, 0x00,
        0x54, 0x02, 0x01, 0x62, 0x05, 0xAA]
    let fixed : List Argument :=
      [.bool true, .string (some "a"), .array [.char 'A']]
    let again : List UInt8 :=
      [0x01, 0x00, 0x01, 0x01, 0x61, 0x01, 0x00, 0x00, 0x00, 0x41,
        0x00, 0x00, 0x00]
    ofBytes bytes constructor
        = .ok { fixed := fixed, named := [⟨false, "b", .bool true⟩] } ∧
      Argument.HaveTypes constructor.params fixed ∧
      encodeAttribute fixed = .ok again ∧
      ofBytes again constructor = .ok { fixed := fixed, named := [] } := by
  intro constructor bytes fixed again
  have read : ofBytes bytes constructor =
      .ok { fixed := fixed, named := [⟨false, "b", .bool true⟩] } := by
    dsimp only [bytes, constructor, fixed]
    rfl
  have encoded : encodeAttribute fixed = .ok again := by rfl
  obtain ⟨typed, _, written, hwritten, back⟩ :=
    isRewritten (by simp [bytes]) read
  -- There is only one way to write the arguments.
  have same : written = again := Except.ok.inj (hwritten.symm.trans encoded)
  rw [same] at back
  exact ⟨read, typed, encoded, back⟩

end AttributeValue

end CliMetadata
