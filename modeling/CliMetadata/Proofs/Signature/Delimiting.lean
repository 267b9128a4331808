import CliMetadata.Proofs.Signature.RoundTrip

/-!
# Signatures tell where they end

A signature has no delimiters, and signatures stand in each other without
lengths.  Nothing goes wrong with this because a signature that is read is
delimited by its own bytes: whatever follows them, the same is read from them,
and where their end is missing the bytes run out (`Decoder.Delimits`).  The law
is compositional, for steps that look ahead as well, as long as the step behind
them takes the byte that was looked at.

Only a list of modifiers is not of this kind.  It ends by a look ahead, and
without a complaint where no byte is left, so that it is taken together with
what follows it (`Modifier.delimits_decodeEachWith_bind`).

Every type, modifier, size and lower bound that is read has bytes of its own, so
that there are no more of them than bytes, whatever counts the bytes claim.  The
result is `Signature.isSelfDelimiting`, for types, method signatures and field
signatures.
-/

namespace CliMetadata

/-! ### Delimiting decoders -/

namespace Decoder

variable {α β : Type}

/-- The bytes run out wherever the end of the front is missing. -/
def RunsOut (d : Decoder α) (front : List UInt8) : Prop :=
  ∀ short missing, front = short ++ missing → missing ≠ [] →
  d.run short = .error .outOfBounds

/-- What the decoder reads is a front of the bytes that tells where it ends, and
the front and the value are as told. -/
def Delimits (d : Decoder α) (P : List UInt8 → α → Prop) : Prop :=
  Yields d fun front value => Takes d front value ∧ RunsOut d front ∧
    P front value

/-- Where bytes are cut that stand one behind the other: behind the first of
them, or inside. -/
theorem exists_cut {front back short missing : List UInt8}
    (h : front ++ back = short ++ missing) :
    (∃ begun, short = front ++ begun ∧ back = begun ++ missing) ∨
      ∃ gap, gap ≠ [] ∧ front = short ++ gap := by
  obtain ⟨begun, hshort, hback⟩ | ⟨gap, hfront, hmissing⟩ :=
    List.append_eq_append_iff.mp h
  · exact .inl ⟨begun, hshort, hback⟩
  · cases gap with
    | nil =>
      rw [List.append_nil] at hfront
      refine .inl ⟨[], ?_, hmissing.symm⟩
      simp [hfront]
    | cons b gap => exact .inr ⟨b :: gap, List.cons_ne_nil b gap, hfront⟩

theorem run_bind_of_ok {d : Decoder α} {f : α → Decoder β}
    {bytes rest : List UInt8} {a : α} (h : d.run bytes = .ok (a, rest)) :
    (d >>= f).run bytes = (f a).run rest := by
  rw [StateT.run_bind, h]
  rfl

theorem run_bind_of_error {d : Decoder α} {f : α → Decoder β}
    {bytes : List UInt8} {error : Error} (h : d.run bytes = .error error) :
    (d >>= f).run bytes = .error error := by
  rw [StateT.run_bind, h]
  rfl

namespace RunsOut

theorem nil (d : Decoder α) : RunsOut d [] := by
  intro short missing split some
  exact absurd (List.append_eq_nil_iff.mp split.symm).2 some

theorem byte (b : UInt8) : RunsOut Decoder.byte [b] := by
  intro short missing split some
  cases short with
  | nil => rfl
  | cons c short =>
    have none := (List.cons.inj split).2
    exact absurd (List.append_eq_nil_iff.mp none.symm).2 some

/-- The end of two steps is missing behind the first or inside it. -/
theorem bind {d : Decoder α} {f : α → Decoder β} {front back : List UInt8}
    {a : α} (taken : Takes d front a) (first : RunsOut d front)
    (second : RunsOut (f a) back) :
    RunsOut (d >>= f) (front ++ back) := by
  intro short missing split some
  obtain ⟨begun, rfl, hback⟩ | ⟨gap, hgap, hfront⟩ := exists_cut split
  · rw [run_bind_of_ok (taken begun)]
    exact second begun missing hback some
  · exact run_bind_of_error (first short gap hfront hgap)

end RunsOut

namespace Delimits

variable {P : List UInt8 → α → Prop} {Q : List UInt8 → β → Prop}

theorem pure {value : α} (h : P [] value) : Delimits (Pure.pure value) P :=
  Yields.pure ⟨Takes.pure value, RunsOut.nil _, h⟩

/-- Nothing is delimited where nothing is read. -/
theorem throw (error : Error) :
    Delimits (MonadExcept.throw error : Decoder α) P := by
  rintro _ _ _ ⟨⟩

theorem byte : Delimits Decoder.byte fun front b => front = [b] := by
  intro bytes b rest h
  exact ⟨[b], run_byte_eq_ok.mp h, fun _ => rfl, RunsOut.byte b, rfl⟩

theorem mono {P' : List UInt8 → α → Prop} {d : Decoder α} (first : Delimits d P)
    (weaker : ∀ front a, P front a → P' front a) : Delimits d P' :=
  Yields.mono first fun front a ⟨taken, short, h⟩ =>
    ⟨taken, short, weaker front a h⟩

theorem bind {d : Decoder α} {f : α → Decoder β} (first : Delimits d P)
    (second : ∀ front a, P front a → Delimits (f a) fun back b => Q
      (front ++ back) b) :
    Delimits (d >>= f) Q := by
  refine Yields.bind first fun front a ⟨taken, short, hP⟩ => ?_
  refine Yields.mono (second front a hP) fun back b ⟨taken', short', hQ⟩ => ?_
  exact ⟨taken.bind taken', .bind taken short short', hQ⟩

/-- The last step of a decoder puts together what was read. -/
theorem map {d : Decoder α} {f : α → β} (first : Delimits d P)
    (last : ∀ front a, P front a → Q front (f a)) :
    Delimits (do return f (← d)) Q := by
  refine first.bind fun front a hP => .pure ?_
  rw [List.append_nil]
  exact last front a hP

theorem ite {c : Prop} [Decidable c] {d e : Decoder α}
    (first : c → Delimits d P) (second : ¬ c → Delimits e P) :
    Delimits (if c then d else e) P := by
  split
  · next hc => exact first hc
  · next hc => exact second hc

/-- Bytes that are reported are not read. -/
theorem checked {c : Prop} [Decidable c] {what : Malformation} {d : Decoder α}
    (h : Delimits d P) :
    Delimits (if c then Decoder.malformed what >>= fun _ : Unit => d else d)
      P :=
  .ite (fun _ => Delimits.bind (P := fun _ _ => False) (.throw _) nofun)
    fun _ => h

/-- Where bytes are read, none at all are too few. -/
theorem run_nil {d : Decoder α} (h : Delimits d P)
    (some : ∀ front a, P front a → front ≠ []) {bytes : List UInt8}
    {result : α × List UInt8} (hrun : d.run bytes = .ok result) :
    d.run [] = .error .outOfBounds := by
  obtain ⟨front, -, -, short, hP⟩ := h bytes result.1 result.2 hrun
  exact short [] front rfl (some front _ hP)

/-- A step that takes a byte may look at it before. -/
theorem peek_bind {f : UInt8 → Decoder β}
    (second : ∀ b, Delimits (f b) fun front value => front ≠ [] ∧
      Q front value) :
    Delimits (Decoder.peek >>= f) Q := by
  intro bytes value rest h
  obtain ⟨c, middle, hc, hf⟩ := run_bind_eq_ok.mp h
  cases bytes with
  | nil => cases hc
  | cons b tail =>
    cases hc
    obtain ⟨front, hfront, taken, short, some, hQ⟩ := second c _ _ _ hf
    cases front with
    | nil => exact absurd rfl some
    | cons b front =>
      obtain ⟨rfl, -⟩ := List.cons.inj hfront
      refine ⟨c :: front, hfront, taken.peek_bind, ?_, hQ⟩
      intro begun missing split hmissing
      cases begun with
      | nil => rfl
      | cons b begun =>
        -- The byte that is looked at is the one that is taken next.
        obtain ⟨rfl, -⟩ := List.cons.inj split
        exact short (c :: begun) missing split hmissing

/-- As many items are read as were asked for, each delimited by itself. -/
theorem times {d : Decoder α} {R : List UInt8 → List α → Prop}
    (item : Delimits d P) (none : R [] [])
    (some : ∀ front a back items, P front a → R back items →
      R (front ++ back) (a :: items))
    (count : Nat) :
    Delimits (d.times count) fun front items => R front items := by
  induction count with
  | zero => exact .pure none
  | succ count ih =>
    exact item.bind fun front a hP => ih.map fun back items hR =>
      some front a back items hP hR

end Delimits

end Decoder

open Decoder

/-! ### Numbers and tokens -/

/-- What is read has bytes. -/
abbrev HasBytes {α : Type} (front : List UInt8) (_ : α) : Prop := front ≠ []

theorem CompressedInteger.delimits_decode :
    Delimits CompressedInteger.decode HasBytes := by
  have next {β : Type} {f : UInt8 → Decoder β}
      (h : ∀ b, Delimits (f b) fun _ _ => True) :
      Delimits (Decoder.byte >>= f) fun _ _ => True :=
    Delimits.byte.bind fun _ b _ => h b
  refine Delimits.byte.bind fun front b hb => ?_
  obtain rfl := hb
  have some {d : Decoder UInt32} (h : Delimits d fun _ _ => True) :
      Delimits d fun back n => HasBytes ([b] ++ back) n :=
    h.mono fun back _ _ => List.cons_ne_nil b back
  refine some (.ite (fun _ => .pure trivial) fun _ => .ite (fun _ => ?_)
    fun _ => ?_)
  · exact next fun _ => .pure trivial
  · refine .ite (fun _ => ?_) fun _ => .throw _
    exact next fun _ => next fun _ => next fun _ => .pure trivial

theorem CodedToken.delimits_decode : Delimits CodedToken.decode HasBytes := by
  refine CompressedInteger.delimits_decode.bind fun front coded some => ?_
  rw [CodedToken.ofCoded]
  split
  · exact .pure fun none => some (List.append_eq_nil_iff.mp none).1
  · exact .throw _

/-- There are no more numbers than bytes. -/
theorem delimits_decodeNumbers :
    Delimits decodeNumbers fun front numbers =>
      numbers.length ≤ front.length := by
  refine CompressedInteger.delimits_decode.bind fun start count _ => ?_
  have items := CompressedInteger.delimits_decode.times
    (R := fun front numbers => numbers.length ≤ front.length) (Nat.le_refl 0)
    (fun front n back numbers some hnumbers => by
      have := List.length_pos_iff.mpr some
      rw [List.length_cons, List.length_append]
      omega) count.toNat
  refine items.mono fun front numbers h => ?_
  rw [List.length_append]
  omega

/-! ### Modifiers -/

namespace Modifier

variable {token : Decoder Token}

/-- The bytes start no modifier. -/
def AreOver (bytes : List UInt8) :
    Prop := ∀ b ∈ bytes.head?, ¬ ElementType.IsModifier b

theorem AreOver.of_append {bytes rest : List UInt8}
    (h : AreOver (bytes ++ rest)) :
    AreOver bytes := by
  cases bytes with
  | nil => nofun
  | cons => exact h

theorem AreOver.append {bytes : List UInt8} (h : AreOver bytes)
    (some : bytes ≠ []) (rest : List UInt8) : AreOver (bytes ++ rest) := by
  cases bytes with
  | nil => exact absurd rfl some
  | cons => exact h

/-- The modifiers are read from the front, whatever follows that starts none.
Where the end of the front is missing, or nothing follows it, the bytes run out
at once or those that are read leave nothing. -/
structure AreListed (token : Decoder Token) (front : List UInt8)
    (modifiers : List Modifier) :
    Prop where
  length_le : modifiers.length ≤ front.length
  taken : ∀ bound rest, front.length ≤ bound → AreOver rest →
    (decodeUpTo token bound).run (front ++ rest) = .ok (modifiers, rest)
  cut : ∀ bound short missing, front = short ++ missing → short.length ≤ bound →
    (decodeUpTo token bound).run short = .error .outOfBounds ∨
      ∃ others, (decodeUpTo token bound).run short = .ok (others, [])

theorem run_decodeUpTo_of_over (bound : Nat) {bytes : List UInt8}
    (h : AreOver bytes) :
    (decodeUpTo token bound).run bytes = .ok ([], bytes) := by
  cases bound with
  | zero => rfl
  | succ bound =>
    cases bytes with
    | nil => rfl
    | cons b bytes =>
      exact run_bind_of_ok (run_decodeWith?_of_not (h b rfl) bytes)

theorem AreListed.nil : AreListed token [] [] where
  length_le := Nat.le_refl 0
  taken bound rest _ h := run_decodeUpTo_of_over bound h
  cut bound short missing split _ := by
    obtain ⟨rfl, -⟩ := List.append_eq_nil_iff.mp split.symm
    exact .inr ⟨[], run_decodeUpTo_of_over bound nofun⟩

section
variable {b : UInt8} (hb : ElementType.IsModifier b)
include hb

theorem run_decodeUpTo_of_ok {bytes rest : List UInt8} {type : Token}
    (h : token.run bytes = .ok (type, rest)) (bound : Nat) :
    (decodeUpTo token (bound + 1)).run (b :: bytes) =
      ((decodeUpTo token bound).run rest).map fun others =>
        (⟨b = ElementType.requiredModifier, type⟩ :: others.1, others.2) := by
  have first : (decodeWith? token).run (b :: bytes) =
      .ok (some ⟨b = ElementType.requiredModifier, type⟩, rest) := by
    show (if ElementType.IsModifier b then (token.run bytes).map _ else _) = _
    rw [if_pos hb, h]
    rfl
  rw [decodeUpTo, run_bind_of_ok first]
  show (decodeUpTo token bound >>= _).run rest = _
  cases hrest : (decodeUpTo token bound).run rest with
  | error error => exact run_bind_of_error hrest
  | ok others => exact run_bind_of_ok hrest

theorem run_decodeUpTo_of_error {bytes : List UInt8} {error : Error}
    (h : token.run bytes = .error error) (bound : Nat) :
    (decodeUpTo token (bound + 1)).run (b :: bytes) = .error error := by
  refine run_bind_of_error ?_
  show (if ElementType.IsModifier b then (token.run bytes).map _ else _) = _
  rw [if_pos hb, h]
  rfl

/-- A modifier in front of others. -/
theorem AreListed.cons {front back : List UInt8} {type : Token}
    {modifiers : List Modifier} (taken : Takes token front type)
    (short : RunsOut token front) (others : AreListed token back modifiers) :
    AreListed token (b :: (front ++ back))
      (⟨b = ElementType.requiredModifier, type⟩ :: modifiers) where
  length_le := by
    have := others.length_le
    rw [List.length_cons, List.length_cons, List.length_append]
    omega
  taken bound rest hbound hover := by
    rw [List.length_cons, List.length_append] at hbound
    obtain ⟨bound, rfl⟩ := Nat.exists_eq_add_one_of_ne_zero
      (Nat.ne_zero_of_lt hbound)
    have first := taken (back ++ rest)
    rw [← List.append_assoc] at first
    rw [List.cons_append, run_decodeUpTo_of_ok hb first,
      others.taken bound rest (by omega) hover]
    rfl
  cut bound begun missing split hbound := by
    cases begun with
    | nil => exact .inr ⟨[], run_decodeUpTo_of_over bound nofun⟩
    | cons c begun =>
      obtain ⟨rfl, inside⟩ := List.cons.inj split
      obtain ⟨bound, rfl⟩ := Nat.exists_eq_add_one_of_ne_zero
        (Nat.ne_zero_of_lt hbound)
      obtain ⟨begun, rfl, hback⟩ | ⟨gap, hgap, hfront⟩ := exists_cut inside
      · -- The first modifier is whole, and the others are cut.
        rw [List.length_cons, List.length_append] at hbound
        rw [run_decodeUpTo_of_ok hb (taken begun)]
        obtain hcut | ⟨found, hcut⟩ :=
          others.cut bound begun missing hback (by omega)
        · exact .inl (by rw [hcut]; rfl)
        · exact .inr ⟨_, by rw [hcut]; rfl⟩
      · exact .inl (run_decodeUpTo_of_error hb
          (short begun gap hfront hgap) bound)

end

theorem exists_areListed_of_over {bound : Nat} {bytes rest : List UInt8}
    {modifiers : List Modifier} (hover : AreOver bytes)
    (h : (decodeUpTo token bound).run bytes = .ok (modifiers, rest)) :
    ∃ front, bytes = front ++ rest ∧ AreListed token front modifiers ∧
    AreOver rest := by
  rw [run_decodeUpTo_of_over bound hover] at h
  cases h
  exact ⟨[], rfl, .nil, hover⟩

/-- What is read as modifiers is a list of them with none behind it, where there
is room for as many as there are bytes. -/
theorem exists_areListed (htoken : Delimits token HasBytes) {bound : Nat}
    {bytes rest : List UInt8} {modifiers : List Modifier}
    (hbound : bytes.length ≤ bound)
    (h : (decodeUpTo token bound).run bytes = .ok (modifiers, rest)) :
    ∃ front, bytes = front ++ rest ∧ AreListed token front modifiers ∧
    AreOver rest := by
  induction bound generalizing bytes modifiers with
  | zero =>
    obtain rfl := List.length_eq_zero_iff.mp (Nat.le_zero.mp hbound)
    exact exists_areListed_of_over nofun h
  | succ bound ih =>
    cases bytes with
    | nil => exact exists_areListed_of_over nofun h
    | cons b bytes =>
      -- Another modifier begins, and the token behind it is read.
      by_cases hb : ElementType.IsModifier b
      · cases hrun : token.run bytes with
        | error error =>
          rw [run_decodeUpTo_of_error hb hrun] at h
          cases h
        | ok first =>
          obtain ⟨type, middle⟩ := first
          obtain ⟨front, rfl, taken, short, -⟩ := htoken _ _ _ hrun
          rw [run_decodeUpTo_of_ok hb hrun] at h
          cases hothers : (decodeUpTo token bound).run middle with
          | error error =>
            rw [hothers] at h
            cases h
          | ok others =>
            rw [hothers] at h
            cases h
            rw [List.length_cons, List.length_append] at hbound
            obtain ⟨back, rfl, listed, hover⟩ := ih (by omega) hothers
            refine ⟨b :: (front ++ back), ?_,
              .cons hb taken short listed, hover⟩
            simp
      · -- No modifier begins here, so that the list is over.
        refine exists_areListed_of_over ?_ h
        rintro c ⟨⟩
        exact hb

/-- Modifiers are delimited together with what follows them, if it takes a byte.
It has to find too few bytes where there are none also behind modifiers that
were cut short. -/
theorem delimits_decodeEachWith_bind (htoken : Delimits token HasBytes)
    {β : Type} {f : List Modifier → Decoder β} {Q : List UInt8 → β → Prop}
    (second : ∀ front modifiers, modifiers.length ≤ front.length →
      Delimits (f modifiers) fun back b => back ≠ [] ∧ Q (front ++ back) b)
    (asks : ∀ modifiers others bytes result, (f modifiers).run bytes
      = .ok result → (f others).run [] = .error .outOfBounds) :
    Delimits (decodeEachWith token >>= f) Q := by
  intro bytes value rest h
  obtain ⟨modifiers, middle, hm, hf⟩ := run_bind_eq_ok.mp h
  obtain ⟨front, rfl, listed, hover⟩ :=
    exists_areListed htoken (Nat.le_refl _) hm
  obtain ⟨back, rfl, taken, short, some, hQ⟩ :=
    second front modifiers listed.length_le _ _ _ hf
  refine ⟨front ++ back, (List.append_assoc _ _ _).symm,
    fun other => ?_, ?_, hQ⟩
  · have hnext := hover.of_append.append some other
    have first := listed.taken (front ++ (back ++ other)).length (back ++ other)
      (by rw [List.length_append]; omega) hnext
    rw [List.append_assoc]
    exact (run_bind_of_ok first).trans (taken other)
  · intro begun missing split hmissing
    obtain ⟨begun, rfl, rfl⟩ | ⟨gap, -, hfront⟩ := exists_cut split
    · have first := listed.taken (front ++ begun).length begun
        (by rw [List.length_append]; omega) hover.of_append.of_append
      exact (run_bind_of_ok first).trans (short begun missing rfl hmissing)
    · -- Modifiers that are cut short may end without a complaint, but then
      -- nothing is left.
      obtain hcut | ⟨others, hcut⟩ :=
        listed.cut begun.length begun gap hfront (Nat.le_refl _)
      · exact run_bind_of_error hcut
      · exact (run_bind_of_ok hcut).trans (asks modifiers others _ _ hf)

end Modifier

/-! ### Sizes -/

mutual

/-- How many types, modifiers, sizes and lower bounds a type is made of, on all
levels. -/
@[simp]
def TypeSig.size : TypeSig → Nat
  | .primitive _ | .valueType _ | .referenceType _ | .typeVar
    _ | .methodVar _ => 1
  | .byRef target | .pinned target => target.size + 1
  | .pointer modifiers target => modifiers.length + target.size + 1
  | .vector modifiers element => modifiers.length + element.size + 1
  | .array element _ sizes lowerBounds =>
    element.size + sizes.length + lowerBounds.length + 1
  | .generic definition arguments =>
    definition.size + TypeSig.sizeEach arguments + 1
  | .function method => method.size + 1

/-- The size of several types together. -/
@[simp]
def TypeSig.sizeEach : List TypeSig → Nat
  | [] => 0
  | type :: rest => type.size + TypeSig.sizeEach rest

/-- The size of a parameter or result. -/
@[simp]
def ParamSig.size : ParamSig → Nat
  | ⟨modifiers, _, type⟩ => modifiers.length + type.size

/-- The size of several parameters together. -/
@[simp]
def ParamSig.sizeEach : List ParamSig → Nat
  | [] => 0
  | param :: rest => param.size + ParamSig.sizeEach rest

/-- The size of a result and of parameters together. -/
@[simp]
def MethodSig.size : MethodSig → Nat
  | ⟨_, _, _, _, result, params, varargs⟩ =>
      result.size + ParamSig.sizeEach params + ParamSig.sizeEach varargs

end

/-- The size of a field's modifiers and type together. -/
@[simp]
def FieldSig.size (field : FieldSig) :
    Nat := field.modifiers.length + field.type.size

theorem TypeSig.one_le_size (t : TypeSig) : 1 ≤ t.size := by
  cases t <;> simp

theorem TypeSig.ne_nil_of_size_le {t : TypeSig} {front : List UInt8}
    (h : t.size ≤ front.length) :
    front ≠ [] :=
  List.length_pos_iff.mp (Nat.le_trans t.one_le_size h)

/-! ### Parts of signatures -/

section
variable {token : Decoder Token} {type : Decoder TypeSig}
  (htoken : Delimits token HasBytes)
  (htype : Delimits type fun front t => t.size ≤ front.length)

section
include htype

/-- Modifiers are delimited together with the type that they are of. -/
theorem Modifier.delimits_modified (htoken : Delimits token HasBytes) {β : Type}
    {build : List Modifier → TypeSig → β} {Q : List UInt8 → β → Prop}
    (built : ∀ front modifiers t, modifiers.length + t.size ≤ front.length →
      Q front (build modifiers t)) :
    Delimits (do
      let modifiers ← decodeEachWith token
      return build modifiers (← type)) Q := by
  refine delimits_decodeEachWith_bind htoken
    (fun front modifiers hlength => ?_) ?_
  · refine htype.map fun back t hsize => ⟨TypeSig.ne_nil_of_size_le hsize,
      built _ _ _ ?_⟩
    rw [List.length_append]
    exact Nat.add_le_add hlength hsize
  · intro modifiers others bytes result hrun
    obtain ⟨t, rest, ht, -⟩ := run_bind_eq_ok.mp hrun
    exact run_bind_of_error
      (htype.run_nil (fun _ _ => TypeSig.ne_nil_of_size_le) ht)

namespace TypeSig

/-- There are no more sizes and bounds than bytes, whatever the rank. -/
theorem delimits_array : Delimits (do
      let element ← type
      let rank ← CompressedInteger.decode
      if rank = 0 then
        Decoder.malformed .arrayOfRankZero
      let sizes ← decodeNumbers
      return TypeSig.array element rank sizes (← decodeNumbers))
    fun front t => t.size ≤ front.length + 1 := by
  refine htype.bind fun front element helement => ?_
  refine CompressedInteger.delimits_decode.bind fun middle rank _ => .checked ?_
  refine delimits_decodeNumbers.bind fun back sizes hsizes => ?_
  refine delimits_decodeNumbers.map fun last bounds hbounds => ?_
  rw [size]
  simp only [List.length_append]
  omega

theorem delimits_generic : Delimits (do
      let next ← Decoder.peek
      if next ≠ ElementType.referenceType ∧ next ≠ ElementType.valueType then
        Decoder.malformed (.genericHead next)
      let definition ← type
      let count ← CompressedInteger.decode
      if count = 0 then
        Decoder.malformed .noTypeArguments
      return TypeSig.generic definition (← Decoder.times type count.toNat))
    fun front t => t.size ≤ front.length + 1 := by
  refine Delimits.peek_bind fun next => .checked ?_
  refine htype.bind fun front definition hdefinition => ?_
  refine CompressedInteger.delimits_decode.bind
    fun middle count _ => .checked ?_
  -- Each argument takes at least as many bytes as it has parts.
  have arguments :=
    htype.times (R := fun front ts => sizeEach ts ≤ front.length)
      (by rw [sizeEach]; exact Nat.le_refl 0)
      (fun front t back ts ht hts => by
      rw [sizeEach, List.length_append]
      exact Nat.add_le_add ht hts) count.toNat
  refine arguments.map fun back ts hts => ⟨?_, ?_⟩
  · exact fun none => ne_nil_of_size_le hdefinition
      (List.append_eq_nil_iff.mp none).1
  · rw [size]
    simp only [List.length_append]
    omega

end TypeSig

namespace ParamSig

theorem delimits_decodeAfter (modifiers : List Modifier) :
    Delimits (decodeAfter type modifiers) fun front p =>
      front ≠ [] ∧ p.modifiers = modifiers ∧ p.type.size ≤ front.length := by
  refine Delimits.peek_bind fun _ => .ite (fun _ => ?_) fun _ => ?_
  · refine Delimits.byte.bind fun front b hb => htype.map fun back t hsize => ?_
    obtain rfl := hb
    have some : [b] ++ back ≠ [] := List.cons_ne_nil b back
    exact ⟨some, some, rfl, Nat.le_succ_of_le hsize⟩
  · refine htype.map fun front t hsize => ?_
    have some := TypeSig.ne_nil_of_size_le hsize
    exact ⟨some, some, rfl, hsize⟩

include htoken

theorem delimits_decodeWith :
    Delimits (decodeWith token type) fun front p => front ≠ [] ∧
      p.size ≤ front.length := by
  refine Modifier.delimits_decodeEachWith_bind htoken
    (fun front modifiers hlength => ?_) ?_
  · refine (delimits_decodeAfter htype modifiers).mono
      fun back p ⟨hne, hmodifiers, hsize⟩ => ?_
    refine ⟨hne, fun none => hne (List.append_eq_nil_iff.mp none).2, ?_⟩
    obtain ⟨own, byRef, t⟩ := p
    obtain rfl := hmodifiers
    rw [size, List.length_append]
    exact Nat.add_le_add hlength hsize
  · intro _ _ _ _ _
    rfl

/-- Whether parameters are declared or added, each takes bytes of its own. -/
theorem delimits_decodeList (count : Nat) (added : Bool) :
    Delimits (decodeList token type count added) fun front lists =>
      sizeEach lists.1 + sizeEach lists.2 ≤ front.length := by
  induction count generalizing added with
  | zero => exact .pure (by simp)
  | succ count ih =>
    have others (added : Bool) : Delimits (do
        let param ← decodeWith token type
        let others ← decodeList token type count added
        return if added then (others.1, param :: others.2)
          else (param :: others.1, others.2))
        fun front lists =>
          front ≠ [] ∧ sizeEach lists.1 + sizeEach lists.2 ≤ front.length := by
      refine (delimits_decodeWith htoken htype).bind
        fun front p ⟨hne, hsize⟩ => ?_
      refine (ih added).map fun back lists hsizes => ?_
      refine ⟨fun none => hne (List.append_eq_nil_iff.mp none).1, ?_⟩
      rw [List.length_append]
      cases added <;> simp only [Bool.false_eq_true, if_true, if_false,
        sizeEach] <;> omega
    show Delimits (decodeSentinel added >>= _) _
    -- A sentinel is looked at where the next parameter would start.
    rw [decodeSentinel, bind_assoc]
    refine Delimits.peek_bind fun b => ?_
    have mark : Delimits (if b = ElementType.sentinel then do
        let _ ← Decoder.byte
        return true
        else return added) fun _ _ => True :=
      .ite (fun _ => Delimits.byte.bind fun _ _ _ => .pure trivial)
        fun _ => .pure trivial
    refine mark.bind fun front added _ => (others added).mono
      fun back lists ⟨hne, hsizes⟩ => ?_
    refine ⟨fun none => hne (List.append_eq_nil_iff.mp none).2, ?_⟩
    rw [List.length_append]
    exact Nat.le_add_left_of_le hsizes

end ParamSig

end

include htoken htype

theorem MethodSig.delimits_decodeWith :
    Delimits (MethodSig.decodeWith token type) fun front m =>
      m.size ≤ front.length := by
  refine Delimits.byte.bind fun lead head _ => .checked ?_
  have genericCount : Delimits (MethodSig.decodeGenericCount head)
      fun _ _ => True :=
    .ite (fun _ => CompressedInteger.delimits_decode.mono fun _ _ _ => trivial)
      fun _ => .pure trivial
  refine genericCount.bind fun start _ _ => ?_
  refine CompressedInteger.delimits_decode.bind fun counts count _ => ?_
  refine (ParamSig.delimits_decodeWith htoken htype).bind
    fun front result ⟨_, hresult⟩ => ?_
  refine (ParamSig.delimits_decodeList htoken htype _ _).map
    fun back lists hlists => ?_
  rw [size]
  simp only [List.length_append]
  omega

namespace TypeSig

/-- What follows the first byte of a type. -/
theorem delimits_decodeAfter (lead : UInt8) :
    Delimits (decodeAfter token type lead) fun front t =>
      t.size ≤ front.length + 1 := by
  -- One case for each byte that a type may begin with, by what follows it.
  have leaf {t : TypeSig} (ht : t.size = 1) (front : List UInt8) :
      t.size ≤ front.length + 1 :=
    Nat.le_trans (Nat.le_of_eq ht) (Nat.le_add_left 1 front.length)
  have named {build : Token → TypeSig} (hbuild : ∀ t, (build t).size = 1) :
      Delimits (do return build (← token)) fun front t =>
        t.size ≤ front.length + 1 :=
    htoken.map fun front t _ => leaf (hbuild t) front
  have numbered {build : UInt32 → TypeSig} (hbuild : ∀ n, (build n).size = 1) :
      Delimits (do return build (← CompressedInteger.decode))
        fun front t => t.size ≤ front.length + 1 :=
    CompressedInteger.delimits_decode.map fun front n _ => leaf (hbuild n) front
  have single {build : TypeSig → TypeSig}
      (hbuild : ∀ t, (build t).size = t.size + 1) :
      Delimits (do return build (← type)) fun front t =>
        t.size ≤ front.length + 1 :=
    htype.map fun front t ht => by
      rw [hbuild]
      exact Nat.succ_le_succ ht
  have modified {build : List Modifier → TypeSig → TypeSig}
      (hbuild : ∀ modifiers t, (build modifiers t).size
        = modifiers.length + t.size + 1) :
      Delimits (do
        let modifiers ← Modifier.decodeEachWith token
        return build modifiers (← type)) fun front t =>
          t.size ≤ front.length + 1 :=
    Modifier.delimits_modified htype htoken fun front modifiers t h => by
      rw [hbuild]
      exact Nat.succ_le_succ h
  rw [decodeAfter]
  split
  · exact .pure (leaf (by simp) [])
  refine .ite (fun _ => modified fun _ _ => by simp) fun _ => ?_
  refine .ite (fun _ => single fun _ => by simp) fun _ => ?_
  refine .ite (fun _ => named fun _ => by simp) fun _ => ?_
  refine .ite (fun _ => named fun _ => by simp) fun _ => ?_
  refine .ite (fun _ => numbered fun _ => by simp) fun _ => ?_
  refine .ite (fun _ => numbered fun _ => by simp) fun _ => ?_
  refine .ite (fun _ => delimits_array htype) fun _ => ?_
  refine .ite (fun _ => delimits_generic htype) fun _ => ?_
  refine .ite (fun _ => (MethodSig.delimits_decodeWith htoken htype).map
    fun front m hm => ?_)
    fun _ => ?_
  · -- A function is one larger than its signature.
    rw [size]
    exact Nat.succ_le_succ hm
  refine .ite (fun _ => modified fun _ _ => by simp) fun _ => ?_
  exact .ite (fun _ => single fun _ => by simp) fun _ => .throw _

end TypeSig

end

/-- A type is delimited by its own bytes.  The induction is on the room that is
left: with none, nothing is read. -/
theorem TypeSig.delimits_decodeWithin {token : Decoder Token}
    (htoken : Delimits token HasBytes) (limit room : Nat) :
    Delimits (decodeWithin token limit room) fun front t =>
      t.size ≤ front.length := by
  induction room with
  | zero => exact .throw _
  | succ room ih =>
    refine Delimits.byte.bind fun front b hb => ?_
    obtain rfl := hb
    exact TypeSig.delimits_decodeAfter htoken ih b

/-! ### Signatures -/

theorem TypeSig.delimits_decode (limit : Nat) :
    Delimits (TypeSig.decode limit) fun front t => t.size ≤ front.length :=
  TypeSig.delimits_decodeWithin CodedToken.delimits_decode limit limit

theorem MethodSig.delimits_decode (limit : Nat) :
    Delimits (MethodSig.decode limit) fun front m => m.size ≤ front.length :=
  MethodSig.delimits_decodeWith CodedToken.delimits_decode
    (TypeSig.delimits_decode limit)

theorem FieldSig.delimits_decode (limit : Nat) :
    Delimits (FieldSig.decode limit) fun front f => f.size ≤ front.length := by
  refine Delimits.byte.bind fun lead head _ => .checked ?_
  refine Modifier.delimits_modified (TypeSig.delimits_decode limit)
    CodedToken.delimits_decode
    fun front modifiers t h => ?_
  rw [List.length_append]
  exact Nat.le_add_left_of_le h

/-- The bytes say where the signature ends that is read from them: it is read
from them whatever follows, they run out wherever they are cut short, and it has
no more parts than bytes. -/
structure Signature.IsDelimitedBy {α : Type} (read : Decoder α) (size : α → Nat)
    (front : List UInt8) (s : α) : Prop where
  takes : ∀ other, read.run (front ++ other) = .ok (s, other)
  runsOut : ∀ short, short <+: front → short ≠ front →
    read.run short = .error .outOfBounds
  size_le : size s ≤ front.length

/-- Whatever is read from some bytes with some limit is delimited by those that
were consumed. -/
def Signature.IsSelfDelimiting {α : Type} (decode : Nat → Decoder α)
    (size : α → Nat) : Prop :=
  ∀ limit bytes s rest, (decode limit).run bytes = .ok (s, rest) →
    ∃ front, bytes = front ++ rest ∧ IsDelimitedBy (decode limit) size front s

theorem Signature.isSelfDelimiting_of_delimits {α : Type}
    {decode : Nat → Decoder α} {size : α → Nat}
    (h : ∀ limit, Delimits (decode limit) fun front s =>
      size s ≤ front.length) :
    IsSelfDelimiting decode size := by
  intro limit bytes s rest hrun
  obtain ⟨front, hbytes, taken, cut, hsize⟩ := h limit bytes s rest hrun
  refine ⟨front, hbytes, taken, ?_, hsize⟩
  rintro short ⟨missing, hfront⟩ hne
  refine cut short missing hfront.symm ?_
  rintro rfl
  rw [List.append_nil] at hfront
  exact hne hfront

/-- **Signatures tell where they end.**  Whether a type, a method signature or a
field signature is read, with whatever limit and from whatever bytes: the bytes
that were consumed are read alike whatever follows them, every strict prefix of
them has too few bytes, and there are at least as many of them as types,
modifiers, sizes and lower bounds in what was read. -/
theorem Signature.isSelfDelimiting :
    IsSelfDelimiting TypeSig.decode TypeSig.size ∧
      IsSelfDelimiting MethodSig.decode MethodSig.size ∧
      IsSelfDelimiting FieldSig.decode FieldSig.size :=
  ⟨isSelfDelimiting_of_delimits TypeSig.delimits_decode,
    isSelfDelimiting_of_delimits MethodSig.delimits_decode,
    isSelfDelimiting_of_delimits FieldSig.delimits_decode⟩

/-- A type with types inside: pointers to functions that give a vector, with a
modifier in front, for an array of an applied type, of which a size and a lower
bound are told.  A byte follows. -/
def nestedSample : List UInt8 :=
  [0x1B, 0x00, 0x01, 0x1F, 0x09, 0x1D, 0x08, 0x14, 0x15, 0x12, 0x09, 0x01, 0x13,
    0x00, 0x02, 0x01,
    0x03, 0x01, 0x7F, 0xFF]

/-- The type ends before the byte that follows, and has ten parts at all
levels. -/
theorem nestedSample_isDelimited : ∃ t front,
    (TypeSig.decode 4).run nestedSample = .ok (t, [0xFF]) ∧
    nestedSample = front ++ [0xFF] ∧
      t.size = 10 ∧ Signature.IsDelimitedBy (TypeSig.decode 4) TypeSig.size
        front t := by
  obtain ⟨t, ht, hsize⟩ : ∃ t, (TypeSig.decode 4).run nestedSample
    = .ok (t, [0xFF]) ∧
      t.size = 10 := ⟨_, rfl, rfl⟩
  obtain ⟨front, hfront, delimited⟩ :=
    Signature.isSelfDelimiting.1 4 nestedSample t [0xFF] ht
  exact ⟨t, front, ht, hfront, hsize, delimited⟩

end CliMetadata
