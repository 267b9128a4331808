import CliMetadata.Proofs.Signature.Canonical

/-!
# Signatures survive being written and read

A canonical signature is read back from its bytes, whatever stands around them,
as long as its types nest no deeper than the limit.  The bytes carry no
delimiters, so the argument is about first bytes: modifiers end before a byte
that starts none, a managed reference shows by its mark, and no parameter starts
like the sentinel.  `TypeSig.takes_encode` and its companions are proved by one
induction on the nesting of signatures; the lemmas before it treat what does not
nest.
-/

namespace CliMetadata

open Decoder

/-! ### Numbers -/

theorem toNat_ofNat_of_isWritableLength {length : Nat}
    (h : IsWritableLength length) :
    (UInt32.ofNat length).toNat = length := by
  have : length < 2 ^ 32 := Nat.lt_of_le_of_lt h (by decide)
  rw [UInt32.toNat_ofNat', Nat.mod_eq_of_lt this]

/-- A length is read back. -/
theorem takes_encodeLength {α : Type} {items : List α}
    (h : IsWritableLength items.length) :
    Takes CompressedInteger.decode (CompressedInteger.encodeLength items)
      (UInt32.ofNat items.length) := by
  refine CompressedInteger.takes_encode (UInt32.le_iff_toNat_le.mpr ?_)
  rw [toNat_ofNat_of_isWritableLength h]
  exact h

/-- Numbers are read back. -/
theorem takes_encodeNumbers {numbers : List UInt32} (h : AreWritable numbers) :
    Takes decodeNumbers (encodeNumbers numbers) numbers := by
  refine (takes_encodeLength h.1).bind ?_
  rw [toNat_ofNat_of_isWritableLength h.1]
  exact Takes.times numbers fun n hn => CompressedInteger.takes_encode
    (h.2 n hn)

/-! ### Modifiers -/

namespace Modifier

/-- The byte that tells whether a modifier is required. -/
def lead (m : Modifier) : UInt8 :=
  if m.isRequired then ElementType.requiredModifier
    else ElementType.optionalModifier

theorem lead_isModifier (m : Modifier) : ElementType.IsModifier m.lead := by
  rw [lead]
  split
  exacts [Or.inl rfl, Or.inr rfl]

/-- A modifier is read back. -/
theorem takes_encode {m : Modifier} (h : m.type.NamesType) :
    ∃ tail, m.encode = .ok (m.lead :: tail) ∧
      Takes (decodeWith? CodedToken.decode) (m.lead :: tail) (some m) := by
  obtain ⟨tail, htail, htaken⟩ := CodedToken.takes_encodeBytes h
  refine ⟨tail, ?_, fun rest => ?_⟩
  · rw [encode, htail]
    rfl
  · show (if ElementType.IsModifier m.lead then
      (CodedToken.decode.run (tail ++ rest)).map _ else _) = _
    rw [if_pos m.lead_isModifier, htaken rest]
    obtain ⟨isRequired, type⟩ := m
    cases isRequired <;> rfl

@[simp]
theorem run_decodeWith?_of_not {token : Decoder Token} {b : UInt8}
    (h : ¬ ElementType.IsModifier b) (rest : List UInt8) :
    (decodeWith? token).run (b :: rest) = .ok (none, b :: rest) :=
  if_neg h

/-- Modifiers are read back up to a byte that starts none, if there is room for
all of them. -/
theorem run_decodeUpTo {modifiers : List Modifier}
    (h : ∀ m ∈ modifiers, m.type.NamesType) :
    ∃ bytes, encodeEach modifiers = .ok bytes ∧
      modifiers.length ≤ bytes.length ∧
      (∀ b ∈ bytes.head?, ElementType.IsModifier b) ∧
      ∀ bound b rest, modifiers.length ≤ bound → ¬ ElementType.IsModifier b →
        (decodeUpTo CodedToken.decode bound).run (bytes ++ b :: rest)
          = .ok (modifiers, b :: rest) := by
  induction modifiers with
  | nil =>
    refine ⟨[], rfl, Nat.le_refl 0, nofun, fun bound b rest _ hb => ?_⟩
    -- Where there is room for none, none is left; the byte that follows is no
    -- modifier either way.
    cases bound with
    | zero => rfl
    | succ bound =>
      rw [decodeUpTo, run_bind_eq_ok]
      exact ⟨none, b :: rest, run_decodeWith?_of_not hb rest, rfl⟩
  | cons m modifiers ih =>
    obtain ⟨tail, htail, htaken⟩ := takes_encode (h m List.mem_cons_self)
    obtain ⟨others, hothers, hlength, -, hrun⟩ :=
      ih fun n hn => h n (List.mem_cons_of_mem m hn)
    refine ⟨m.lead :: (tail ++ others), ?_, ?_, ?_,
      fun bound b rest hbound hb => ?_⟩
    · rw [encodeEach, htail, hothers]
      rfl
    · simp only [List.length_cons, List.length_append]
      omega
    · rintro b ⟨⟩
      exact m.lead_isModifier
    · cases bound with
      | zero => cases hbound
      | succ bound =>
        -- The first modifier is read, and the others with the room that is
        -- left.
        have first := htaken (others ++ b :: rest)
        have second := hrun bound b rest (Nat.le_of_succ_le_succ hbound) hb
        rw [decodeUpTo, run_bind_eq_ok]
        refine ⟨some m, others ++ b :: rest, ?_, ?_⟩
        · simp [← first]
        · rw [run_bind_eq_ok]
          exact ⟨modifiers, b :: rest, second, rfl⟩

/-- Modifiers are read back before what does not start like one. -/
theorem takes_encodeEach_bind {modifiers : List Modifier}
    (h : ∀ m ∈ modifiers, m.type.NamesType) :
    ∃ bytes, encodeEach modifiers = .ok bytes ∧
      (∀ b ∈ bytes.head?, ElementType.IsModifier b) ∧
      ∀ {β : Type} {f : List Modifier →
        Decoder β} {b : UInt8} {back : List UInt8} {value : β},
        ¬ ElementType.IsModifier b → Takes (f modifiers) (b :: back) value →
          Takes (decodeEachWith CodedToken.decode >>= f)
            (bytes ++ b :: back) value := by
  obtain ⟨bytes, hbytes, hlength, hhead, hrun⟩ := run_decodeUpTo h
  refine ⟨bytes, hbytes, hhead, fun {β f b back value} hb second rest => ?_⟩
  have room : modifiers.length ≤ (bytes ++ b :: (back ++ rest)).length := by
    rw [List.length_append]
    omega
  rw [List.append_assoc, List.cons_append, run_bind_eq_ok]
  exact ⟨modifiers, b :: (back ++ rest), hrun _ b (back ++ rest) room hb,
    second rest⟩

end Modifier

/-! ### Types and parameters, given how types inside them are read -/

/-- The type has bytes, and the decoder reads them back. -/
def TypeSig.IsTakenBy (type : Decoder TypeSig) (t : TypeSig) : Prop :=
  ∃ tail, t.encode = .ok (t.lead :: tail) ∧ Takes type (t.lead :: tail) t

/-- The parameter has bytes that do not start like the sentinel, and they are
read back where the decoder reads types. -/
def ParamSig.IsTakenBy (type : Decoder TypeSig) (p : ParamSig) : Prop :=
  ∃ b tail, p.encode = .ok (b :: tail) ∧ b ≠ ElementType.sentinel ∧
    Takes (ParamSig.decodeWith CodedToken.decode type) (b :: tail) p

/-- The method signature has bytes, and they are read back where the decoder
reads types. -/
def MethodSig.IsTakenBy (type : Decoder TypeSig) (m : MethodSig) : Prop :=
  ∃ bytes, m.encode = .ok bytes ∧
  Takes (MethodSig.decodeWith CodedToken.decode type) bytes m

section
variable {type : Decoder TypeSig}

/-- Several types are read back one after the other. -/
theorem TypeSig.takes_encodeEach {ts : List TypeSig}
    (h : ∀ t ∈ ts, t.IsTakenBy type) :
    ∃ bytes, TypeSig.encodeEach ts = .ok bytes ∧
    Takes (type.times ts.length) bytes ts := by
  induction ts with
  | nil => exact ⟨[], by rw [encodeEach]; rfl, Takes.pure []⟩
  | cons t ts ih =>
    obtain ⟨tail, htail, htaken⟩ := h t List.mem_cons_self
    obtain ⟨others, hothers, htakens⟩ :=
      ih fun u hu => h u (List.mem_cons_of_mem t hu)
    refine ⟨t.lead :: tail ++ others, ?_, htaken.bind (htakens.map (t :: ·))⟩
    rw [encodeEach, htail, hothers]
    rfl

/-- What follows the modifiers of a parameter starts like no modifier and like
no sentinel, and is read back. -/
theorem ParamSig.takes_decodeAfter {byRef : Bool} {t : TypeSig}
    {tail : List UInt8} (modifiers : List Modifier)
    (h : byRef = false → ¬ t.IsByRef) (taken : Takes type (t.lead :: tail) t) :
    ∃ b back, (if byRef then [ElementType.byRef] else []) ++ t.lead :: tail
      = b :: back ∧
      ¬ ElementType.IsModifier b ∧ b ≠ ElementType.sentinel ∧
      Takes (ParamSig.decodeAfter type modifiers) (b :: back)
        ⟨modifiers, byRef, t⟩ := by
  cases byRef with
  | true =>
    -- The byte of a reference is read before the type.
    refine ⟨ElementType.byRef, t.lead :: tail, rfl,
      by decide, by decide, Takes.peek_bind ?_⟩
    rw [if_pos rfl]
    exact (taken.map (ParamSig.mk modifiers true)).byte_bind
  | false =>
    -- No such byte is there, for the type does not begin with it.
    refine ⟨t.lead, tail, rfl, t.lead_not_isModifier, t.lead_ne_sentinel,
      Takes.peek_bind ?_⟩
    rw [if_neg fun hlead => h rfl (t.lead_eq_byRef_iff.mp hlead)]
    exact taken.map (ParamSig.mk modifiers false)

/-- A canonical parameter is read back if its type is. -/
theorem ParamSig.isTakenBy {modifiers : List Modifier} {byRef : Bool}
    {t : TypeSig} (h : (ParamSig.mk modifiers byRef t).IsCanonical)
    (taken : t.IsTakenBy type) :
    (ParamSig.mk modifiers byRef t).IsTakenBy type := by
  rw [IsCanonical] at h
  obtain ⟨front, hfront, hhead, htakes⟩ := Modifier.takes_encodeEach_bind h.1
  obtain ⟨tail, htail, htaken⟩ := taken
  obtain ⟨b, back, hb, hmodifier, hsentinel, hafter⟩ :=
    takes_decodeAfter modifiers h.2.1 htaken
  have whole := htakes hmodifier hafter
  have encodes :
      ParamSig.encode ⟨modifiers, byRef, t⟩ = .ok (front ++ b :: back) := by
    rw [ParamSig.encode, hfront, htail, ← hb]
    rfl
  -- The sentinel would have to come before all modifiers.
  cases front with
  | nil => exact ⟨b, back, encodes, hsentinel, whole⟩
  | cons c front =>
    refine ⟨c, front ++ b :: back, encodes, ?_, whole⟩
    rintro rfl
    exact absurd (hhead _ rfl) (by decide)

/-! ### Lists of parameters -/

namespace ParamSig

/-- One more parameter without a sentinel before it. -/
theorem takes_decodeList_succ {p : ParamSig} {b : UInt8}
    {tail back : List UInt8} (hb : b ≠ ElementType.sentinel)
    (taken : Takes (decodeWith CodedToken.decode type) (b :: tail) p)
    {count : Nat} {added : Bool} {others : List ParamSig × List ParamSig}
    (rest : Takes (decodeList CodedToken.decode type count added) back others) :
    Takes (decodeList CodedToken.decode type (count + 1) added)
      (b :: tail ++ back)
      (if added then (others.1, p :: others.2)
        else (p :: others.1, others.2)) := by
  refine Takes.peek_bind_bind ?_
  rw [if_neg hb]
  refine (Takes.pure added).bind ?_
  show Takes _ (b :: tail ++ back) _
  exact taken.bind (rest.map fun others =>
    if added then (others.1, p :: others.2) else (p :: others.1, others.2))

/-- One more parameter with a sentinel before it. -/
theorem takes_decodeList_sentinel {p : ParamSig} {front back : List UInt8}
    (taken : Takes (decodeWith CodedToken.decode type) front p)
    {count : Nat} {added : Bool} {others : List ParamSig × List ParamSig}
    (rest : Takes (decodeList CodedToken.decode type count true) back others) :
    Takes (decodeList CodedToken.decode type (count + 1) added)
      (ElementType.sentinel :: (front ++ back)) (others.1, p :: others.2) := by
  have mark : Takes (decodeSentinel added) [ElementType.sentinel] true :=
    Takes.peek_bind (Takes.pure true).byte_bind
  exact mark.bind
    (taken.bind (rest.map fun others => (others.1, p :: others.2)))

/-- Parameters behind the sentinel are read back as added ones. -/
theorem takes_encodeEach_added {varargs : List ParamSig}
    (h : ∀ p ∈ varargs, p.IsTakenBy type) :
    ∃ bytes, encodeEach varargs = .ok bytes ∧
      Takes (decodeList CodedToken.decode type varargs.length true) bytes
        ([], varargs) := by
  induction varargs with
  | nil => exact ⟨[], by rw [encodeEach]; rfl, Takes.pure _⟩
  | cons p varargs ih =>
    obtain ⟨b, tail, htail, hb, htaken⟩ := h p List.mem_cons_self
    obtain ⟨others, hothers, htakens⟩ :=
      ih fun q hq => h q (List.mem_cons_of_mem p hq)
    refine ⟨b :: tail ++ others, ?_, takes_decodeList_succ hb htaken htakens⟩
    rw [encodeEach, htail, hothers]
    rfl

/-- The bytes of added parameters, behind a sentinel if there are any. -/
def addedBytes (varargs : List ParamSig) (bytes : List UInt8) : List UInt8 :=
  if varargs.isEmpty then [] else ElementType.sentinel :: bytes

/-- Declared parameters are read back, and those added behind the sentinel. -/
theorem takes_encodeEach {params varargs : List ParamSig}
    (h : ∀ p ∈ params, p.IsTakenBy type)
    (h' : ∀ p ∈ varargs, p.IsTakenBy type) :
    ∃ front back, encodeEach params = .ok front ∧
      encodeEach varargs = .ok back ∧
      Takes (decodeList CodedToken.decode type
        (params.length + varargs.length) false)
        (front ++ addedBytes varargs back) (params, varargs) := by
  induction params with
  | nil =>
    cases varargs with
    | nil =>
      exact ⟨[], [],
        by rw [encodeEach]; rfl, by rw [encodeEach]; rfl, Takes.pure _⟩
    | cons p varargs =>
      obtain ⟨b, tail, htail, -, htaken⟩ := h' p List.mem_cons_self
      obtain ⟨others, hothers, htakens⟩ :=
        takes_encodeEach_added fun q hq => h' q (List.mem_cons_of_mem p hq)
      -- The sentinel stands before the first parameter that is added.
      refine ⟨[], b :: tail ++ others, by rw [encodeEach]; rfl, ?_, ?_⟩
      · rw [encodeEach, htail, hothers]
        rfl
      · rw [List.length_nil, Nat.zero_add]
        exact takes_decodeList_sentinel htaken htakens
  | cons p params ih =>
    obtain ⟨b, tail, htail, hb, htaken⟩ := h p List.mem_cons_self
    obtain ⟨front, back, hfront, hback, htakens⟩ :=
      ih fun q hq => h q (List.mem_cons_of_mem p hq)
    refine ⟨b :: tail ++ front, back, ?_, hback, ?_⟩
    · rw [encodeEach, htail, hfront]
      rfl
    · rw [List.length_cons, Nat.add_right_comm, List.append_assoc]
      exact takes_decodeList_succ hb htaken htakens

end ParamSig

/-! ### Heads of method signatures -/

/-- The four parts of a first byte do not overlap. -/
theorem head_bits : ∀ code < 6, ∀ generic this explicit : Bool,
    ∀ head : UInt8, head = UInt8.ofNat code ||| (if generic then 0x10 else 0)
      ||| (if this then 0x20 else 0) ||| (if explicit then 0x40 else 0) →
    head &&& 0x0F = UInt8.ofNat code ∧ decide (head &&& 0x10 ≠ 0) = generic ∧
      decide (head &&& 0x20 ≠ 0) = this ∧
        decide (head &&& 0x40 ≠ 0) = explicit := by
  intro code hcode generic this explicit head hhead
  subst hhead
  revert code generic this explicit
  decide +kernel

namespace Conventions

theorem code_toNat_lt (c : Conventions) : c.code.toNat < 6 := by
  rw [code]
  split_ifs <;> decide

/-- A single convention is what its code says. -/
@[simp]
theorem ofCode_code {c : Conventions} (h : c.IsSingle) : ofCode c.code = c := by
  obtain ⟨managed, vararg, cdecl, stdcall, thiscall, fastcall⟩ := c
  revert h
  cases managed <;> cases vararg <;> cases cdecl <;> cases stdcall <;>
    cases thiscall <;>
    cases fastcall <;> simp [IsSingle, ofCode, code]

end Conventions

/-- The parts of a method signature's first byte. -/
theorem MethodSig.head_parts (m : MethodSig) :
    m.head &&& 0x0F = m.conventions.code ∧
      decide (m.head &&& 0x10 ≠ 0) = decide (0 < m.genericCount) ∧
      decide (m.head &&& 0x20 ≠ 0) = m.hasThis ∧
      decide (m.head &&& 0x40 ≠ 0) = m.explicitThis := by
  have parts := head_bits m.conventions.code.toNat m.conventions.code_toNat_lt
    (decide (0 < m.genericCount)) m.hasThis m.explicitThis m.head
  rw [UInt8.ofNat_toNat] at parts
  refine parts ?_
  simp only [head, decide_eq_true_eq]

/-- The count of generic parameters is read back where there are any. -/
theorem MethodSig.takes_decodeGenericCount {m : MethodSig}
    (h : m.genericCount ≤ CompressedInteger.limit) :
    Takes (decodeGenericCount m.head)
      (if 0 < m.genericCount then CompressedInteger.encode m.genericCount
        else [])
      m.genericCount := by
  have bit := m.head_parts.2.1
  rw [decide_eq_decide] at bit
  rw [decodeGenericCount]
  -- The count is written exactly if the first byte announces it.
  by_cases hpos : 0 < m.genericCount
  · rw [if_pos hpos, if_pos (bit.mpr hpos)]
    exact CompressedInteger.takes_encode h
  · rw [if_neg hpos, if_neg fun hbit => hpos (bit.mp hbit)]
    have zero : m.genericCount = 0 := by
      rw [UInt32.not_lt] at hpos
      exact UInt32.le_antisymm hpos UInt32.zero_le
    rw [zero]
    exact Takes.pure 0

/-- The bytes of a method signature, given those of its result and its
parameters. -/
theorem MethodSig.encode_eq_ok {m : MethodSig} {tail front back : List UInt8}
    (result : m.result.encode = .ok tail)
    (params : ParamSig.encodeEach m.params = .ok front)
    (varargs : ParamSig.encodeEach m.varargs = .ok back) :
    m.encode = .ok (m.head :: ((if 0 < m.genericCount then
        CompressedInteger.encode m.genericCount else [])
      ++ (CompressedInteger.encodeLength (m.params ++ m.varargs)
        ++ (tail ++ (front ++ ParamSig.addedBytes m.varargs back))))) := by
  obtain ⟨this, explicit, conventions, genericCount, r, ps, vs⟩ := m
  rw [encode, result, params, varargs]
  simp only [List.append_assoc, ParamSig.addedBytes]
  rfl

/-- A canonical method signature is read back if its result and its parameters
are. -/
theorem MethodSig.isTakenBy {m : MethodSig} (h : m.IsCanonical)
    (result : m.result.IsTakenBy type)
    (params : ∀ p ∈ m.params, p.IsTakenBy type)
    (varargs : ∀ p ∈ m.varargs, p.IsTakenBy type) :
    m.IsTakenBy type := by
  obtain ⟨hcode, -, hthis, hexplicit⟩ := m.head_parts
  obtain ⟨hsingle, hgeneric, hlength, -⟩ := m.isCanonical_iff.mp h
  obtain ⟨b, tail, htail, -, hresult⟩ := result
  obtain ⟨front, back, hfront, hback, hparams⟩ :=
    ParamSig.takes_encodeEach params varargs
  rw [← List.length_append] at hlength hparams
  have hcount := takes_encodeLength hlength
  have hgeneric := takes_decodeGenericCount hgeneric
  refine ⟨_, encode_eq_ok htail hfront hback, Takes.byte_bind ?_⟩
  have known : ¬ 0x05 < m.head &&& 0x0F := by
    rw [hcode, UInt8.lt_iff_toNat_lt]
    exact Nat.not_lt.mpr (Nat.le_of_lt_succ m.conventions.code_toNat_lt)
  rw [if_neg known]
  -- The flags and the convention of the first byte are those of the signature.
  have whole : (⟨decide (m.head &&& 0x20 ≠ 0), decide (m.head &&& 0x40 ≠ 0),
      .ofCode (m.head &&& 0x0F), m.genericCount, m.result, m.params,
      m.varargs⟩ : MethodSig) = m := by
    rw [hcode, hthis, hexplicit, Conventions.ofCode_code hsingle]
    cases m
    rfl
  refine hgeneric.bind (hcount.bind (hresult.bind ?_))
  rw [toNat_ofNat_of_isWritableLength hlength]
  have last := hparams.map fun params => (⟨decide (m.head &&& 0x20 ≠ 0),
    decide (m.head &&& 0x40 ≠ 0), .ofCode (m.head &&& 0x0F), m.genericCount,
      m.result, params.1,
    params.2⟩ : MethodSig)
  rwa [whole] at last

end

/-! ### The induction on nesting -/

/-- Takes a type with room for a number of levels. -/
abbrev typeWithin (limit room : Nat) : Decoder TypeSig :=
  TypeSig.decodeWithin CodedToken.decode limit room

/-- A type is read back if what follows its first byte is. -/
theorem TypeSig.isTakenBy {limit room : Nat} {t : TypeSig} {tail : List UInt8}
    (encoded : t.encode = .ok (t.lead :: tail))
    (after : Takes (TypeSig.decodeAfter CodedToken.decode
      (typeWithin limit room) t.lead) tail t) :
    t.IsTakenBy (typeWithin limit (room + 1)) :=
  ⟨tail, encoded, after.byte_bind⟩

/-- A type by its token is read back. -/
theorem TypeSig.isTakenBy_named {limit room : Nat} {token : Token}
    (h : token.NamesType) :
    (valueType token).IsTakenBy (typeWithin limit (room + 1)) ∧
      (referenceType token).IsTakenBy (typeWithin limit (room + 1)) := by
  obtain ⟨bytes, hbytes, htaken⟩ := CodedToken.takes_encodeBytes h
  constructor
  · refine TypeSig.isTakenBy ?_ (htaken.map TypeSig.valueType)
    rw [encode, hbytes]
    rfl
  · refine TypeSig.isTakenBy ?_ (htaken.map TypeSig.referenceType)
    rw [encode, hbytes]
    rfl

/-- What is built from modifiers and a type is read back. -/
theorem TypeSig.takes_modified {α : Type} {type : Decoder TypeSig}
    {modifiers : List Modifier} {t : TypeSig}
    (h : ∀ m ∈ modifiers, m.type.NamesType) (taken : t.IsTakenBy type)
    (build : List Modifier → TypeSig → α) :
    ∃ front tail, Modifier.encodeEach modifiers = .ok front ∧
      t.encode = .ok (t.lead :: tail) ∧
      Takes (do
        let modifiers ← Modifier.decodeEachWith CodedToken.decode
        return build modifiers (← type)) (front ++ t.lead :: tail)
          (build modifiers t) := by
  obtain ⟨front, hfront, -, htakes⟩ := Modifier.takes_encodeEach_bind h
  obtain ⟨tail, htail, htaken⟩ := taken
  exact ⟨front, tail, hfront, htail,
    htakes t.lead_not_isModifier (htaken.map (build modifiers))⟩

/-- An array is read back if its element is. -/
theorem TypeSig.isTakenBy_array {limit room : Nat} {element : TypeSig}
    {rank : UInt32} {sizes lowerBounds : List UInt32}
    (h : (array element rank sizes lowerBounds).IsCanonical)
    (taken : element.IsTakenBy (typeWithin limit room)) :
    (array element rank sizes lowerBounds).IsTakenBy
      (typeWithin limit (room + 1)) := by
  rw [IsCanonical] at h
  obtain ⟨-, hpos, hrank, hsizes, hbounds⟩ := h
  obtain ⟨tail, htail, htaken⟩ := taken
  have positive : ¬ rank = 0 := by
    rintro rfl
    exact absurd hpos (by decide)
  -- The element comes first, and then the numbers.
  have encoded : (array element rank sizes lowerBounds).encode
      = .ok (ElementType.array :: (element.lead :: tail ++
        (CompressedInteger.encode rank ++
          (encodeNumbers sizes ++ encodeNumbers lowerBounds)))) := by
    rw [encode, htail]
    simp only [List.append_assoc]
    rfl
  refine TypeSig.isTakenBy encoded
    (htaken.bind ((CompressedInteger.takes_encode hrank).bind ?_))
  rw [if_neg positive]
  exact (takes_encodeNumbers hsizes).bind
    ((takes_encodeNumbers hbounds).map (array element rank sizes))

/-- An applied generic type is read back if its parts are. -/
theorem TypeSig.isTakenBy_generic {limit room : Nat} {definition : TypeSig}
    {arguments : List TypeSig} (h : (generic definition arguments).IsCanonical)
    (taken : definition.IsTakenBy (typeWithin limit room))
    (takens : ∀ t ∈ arguments, t.IsTakenBy (typeWithin limit room)) :
    (generic definition arguments).IsTakenBy (typeWithin limit (room + 1)) := by
  rw [IsCanonical] at h
  obtain ⟨hnamed, -, hpos, hlength, -⟩ := h
  obtain ⟨tail, htail, htaken⟩ := taken
  obtain ⟨back, hback, hargs⟩ := TypeSig.takes_encodeEach takens
  -- Only what names a type by a token may be applied, and that shows in its
  -- first byte.
  have head : ¬ (definition.lead ≠ ElementType.referenceType ∧
      definition.lead ≠ ElementType.valueType) := by
    rw [← not_or, not_not, definition.lead_isNamed_iff]
    exact hnamed
  have count := toNat_ofNat_of_isWritableLength hlength
  have positive : ¬ UInt32.ofNat arguments.length = 0 := by
    intro hzero
    rw [hzero] at count
    exact absurd hpos (by rw [← count]; decide)
  have encoded :
      (generic definition arguments).encode = .ok (ElementType.generic ::
        (definition.lead :: tail ++
          (CompressedInteger.encodeLength arguments ++ back))) := by
    rw [encode, htail, hback]
    simp only [← List.append_assoc]
    rfl
  refine TypeSig.isTakenBy encoded (Takes.peek_bind ?_)
  rw [if_neg head]
  refine htaken.bind ((takes_encodeLength hlength).bind ?_)
  rw [if_neg positive, count]
  exact hargs.map (generic definition)

mutual

/-- A canonical type is read back where there is room for its depth. -/
theorem TypeSig.takes_encode (limit : Nat) :
    (t : TypeSig) → t.IsCanonical → (room : Nat) →
    t.depth ≤ room → t.IsTakenBy (typeWithin limit room)
  -- No type fits where there is no room.
  | t, h, 0, hroom => by
    cases t <;> simp at hroom
  | .primitive kind, _, room + 1, _ => by
    have after : Takes (TypeSig.decodeAfter CodedToken.decode
        (typeWithin limit room) kind.code) []
        (.primitive kind) := by
      rw [TypeSig.decodeAfter, Primitive.ofCode?_code]
      exact Takes.pure _
    exact TypeSig.isTakenBy (by rw [TypeSig.encode]; rfl) after
  | .valueType token, h, room + 1, _ => by
    rw [TypeSig.IsCanonical] at h
    exact (TypeSig.isTakenBy_named h).1
  | .referenceType token, h, room + 1, _ => by
    rw [TypeSig.IsCanonical] at h
    exact (TypeSig.isTakenBy_named h).2
  | .typeVar index, h, room + 1, _ => by
    rw [TypeSig.IsCanonical] at h
    exact TypeSig.isTakenBy (by rw [TypeSig.encode]; rfl)
      ((CompressedInteger.takes_encode h).map TypeSig.typeVar)
  | .methodVar index, h, room + 1, _ => by
    rw [TypeSig.IsCanonical] at h
    exact TypeSig.isTakenBy (by rw [TypeSig.encode]; rfl)
      ((CompressedInteger.takes_encode h).map TypeSig.methodVar)
  | .pointer modifiers target, h, room + 1, hroom => by
    rw [TypeSig.IsCanonical] at h
    rw [TypeSig.depth] at hroom
    have inner := TypeSig.takes_encode limit target h.2 room
      (Nat.le_of_succ_le_succ hroom)
    obtain ⟨front, tail, hfront, htail, htaken⟩ :=
      TypeSig.takes_modified h.1 inner TypeSig.pointer
    refine TypeSig.isTakenBy ?_ htaken
    rw [TypeSig.encode, hfront, htail]
    rfl
  | .vector modifiers element, h, room + 1, hroom => by
    rw [TypeSig.IsCanonical] at h
    rw [TypeSig.depth] at hroom
    have inner := TypeSig.takes_encode limit element h.2 room
      (Nat.le_of_succ_le_succ hroom)
    obtain ⟨front, tail, hfront, htail, htaken⟩ :=
      TypeSig.takes_modified h.1 inner TypeSig.vector
    refine TypeSig.isTakenBy ?_ htaken
    rw [TypeSig.encode, hfront, htail]
    rfl
  | .byRef target, h, room + 1, hroom => by
    rw [TypeSig.IsCanonical] at h
    rw [TypeSig.depth] at hroom
    obtain ⟨tail, htail, htaken⟩ :=
      TypeSig.takes_encode limit target h room (Nat.le_of_succ_le_succ hroom)
    exact TypeSig.isTakenBy (by rw [TypeSig.encode, htail]; rfl)
      (htaken.map TypeSig.byRef)
  | .pinned target, h, room + 1, hroom => by
    rw [TypeSig.IsCanonical] at h
    rw [TypeSig.depth] at hroom
    obtain ⟨tail, htail, htaken⟩ :=
      TypeSig.takes_encode limit target h room (Nat.le_of_succ_le_succ hroom)
    exact TypeSig.isTakenBy (by rw [TypeSig.encode, htail]; rfl)
      (htaken.map TypeSig.pinned)
  | .array element rank sizes lowerBounds, h, room + 1, hroom => by
    have parts := h
    rw [TypeSig.IsCanonical] at parts
    rw [TypeSig.depth] at hroom
    exact TypeSig.isTakenBy_array h
      (TypeSig.takes_encode limit element parts.1 room
        (Nat.le_of_succ_le_succ hroom))
  | .generic definition arguments, h, room + 1, hroom => by
    have parts := h
    rw [TypeSig.IsCanonical] at parts
    rw [TypeSig.depth] at hroom
    obtain ⟨hdefinition, harguments⟩ :=
      Nat.max_le.mp (Nat.le_of_succ_le_succ hroom)
    exact TypeSig.isTakenBy_generic h
      (TypeSig.takes_encode limit definition parts.2.1 room hdefinition)
      (TypeSig.takes_encode_each limit arguments parts.2.2.2.2 room harguments)
  | .function method, h, room + 1, hroom => by
    rw [TypeSig.IsCanonical] at h
    rw [TypeSig.depth] at hroom
    obtain ⟨bytes, hbytes, htaken⟩ :=
      MethodSig.takes_encode limit method h room (Nat.le_of_succ_le_succ hroom)
    exact TypeSig.isTakenBy (by rw [TypeSig.encode, hbytes]; rfl)
      (htaken.map TypeSig.function)

/-- Canonical types are each read back. -/
theorem TypeSig.takes_encode_each (limit : Nat) :
    (ts : List TypeSig) → TypeSig.AreCanonical ts →
    (room : Nat) → TypeSig.depthEach ts ≤ room →
      ∀ t ∈ ts, t.IsTakenBy (typeWithin limit room)
  | [], _, _, _ => nofun
  | t :: ts, h, room, hroom => by
    rw [TypeSig.AreCanonical] at h
    rw [TypeSig.depthEach] at hroom
    obtain ⟨hfirst, hothers⟩ := Nat.max_le.mp hroom
    have first := TypeSig.takes_encode limit t h.1 room hfirst
    have others := TypeSig.takes_encode_each limit ts h.2 room hothers
    exact List.forall_mem_cons.mpr ⟨first, others⟩

/-- A canonical parameter is read back where there is room for its depth. -/
theorem ParamSig.takes_encode (limit : Nat) :
    (p : ParamSig) → p.IsCanonical → (room : Nat) →
    p.depth ≤ room → p.IsTakenBy (typeWithin limit room)
  | ⟨modifiers, byRef, t⟩, h, room, hroom => by
    have parts := h
    rw [ParamSig.IsCanonical] at parts
    rw [ParamSig.depth] at hroom
    exact ParamSig.isTakenBy h
      (TypeSig.takes_encode limit t parts.2.2 room hroom)

/-- Canonical parameters are each read back. -/
theorem ParamSig.takes_encode_each (limit : Nat) : (ps : List ParamSig) →
    ParamSig.AreCanonical ps → (room : Nat) → ParamSig.depthEach ps ≤ room →
      ∀ p ∈ ps, p.IsTakenBy (typeWithin limit room)
  | [], _, _, _ => nofun
  | p :: ps, h, room, hroom => by
    rw [ParamSig.AreCanonical] at h
    rw [ParamSig.depthEach] at hroom
    obtain ⟨hfirst, hothers⟩ := Nat.max_le.mp hroom
    have first := ParamSig.takes_encode limit p h.1 room hfirst
    have others := ParamSig.takes_encode_each limit ps h.2 room hothers
    exact List.forall_mem_cons.mpr ⟨first, others⟩

/-- A canonical method signature is read back where there is room for its
depth. -/
theorem MethodSig.takes_encode (limit : Nat) :
    (m : MethodSig) → m.IsCanonical → (room : Nat) →
    m.depth ≤ room → m.IsTakenBy (typeWithin limit room)
  | ⟨this, explicit, conventions, genericCount, result, params, varargs⟩, h,
    room, hroom => by
    have parts := h
    rw [MethodSig.IsCanonical] at parts
    rw [MethodSig.depth] at hroom
    obtain ⟨hresult, hlists⟩ := Nat.max_le.mp hroom
    obtain ⟨hparams, hvarargs⟩ := Nat.max_le.mp hlists
    exact MethodSig.isTakenBy h
      (ParamSig.takes_encode limit result parts.2.2.2.1 room hresult)
      (ParamSig.takes_encode_each limit params parts.2.2.2.2.1 room hparams)
      (ParamSig.takes_encode_each limit varargs parts.2.2.2.2.2 room hvarargs)

end

/-- A canonical field signature is read back where there is room for its
depth. -/
theorem FieldSig.takes_encode {limit : Nat} {f : FieldSig} (h : f.IsCanonical)
    (room : f.depth ≤ limit) :
    ∃ bytes, f.encode = .ok bytes ∧ Takes (FieldSig.decode limit) bytes f := by
  have inner := TypeSig.takes_encode limit f.type h.2 limit room
  obtain ⟨front, tail, hfront, htail, htaken⟩ :=
    TypeSig.takes_modified h.1 inner FieldSig.mk
  refine ⟨ElementType.field :: (front ++ f.type.lead :: tail), ?_,
    Takes.byte_bind ?_⟩
  · rw [encode, hfront, htail]
    rfl
  · rw [if_neg fun different => different rfl]
    exact htaken

/-! ### Whole signatures -/

/-- A type is read from its bytes. -/
theorem TypeSig.ofBytes_of_encode {limit : Nat} {t : TypeSig}
    (h : t.IsCanonical) (room : t.depth ≤ limit) {bytes : List UInt8}
    (encoded : t.encode = .ok bytes) :
    TypeSig.ofBytes limit bytes = .ok t := by
  obtain ⟨tail, hbytes, htaken⟩ := TypeSig.takes_encode limit t h limit room
  cases encoded.symm.trans hbytes
  exact htaken.run'

/-- A method signature is read from its bytes. -/
theorem MethodSig.ofBytes_of_encode {limit : Nat} {m : MethodSig}
    (h : m.IsCanonical) (room : m.depth ≤ limit) {bytes : List UInt8}
    (encoded : m.encode = .ok bytes) :
    MethodSig.ofBytes limit bytes = .ok m := by
  obtain ⟨_, hbytes, htaken⟩ := MethodSig.takes_encode limit m h limit room
  cases encoded.symm.trans hbytes
  exact htaken.run'

/-- A field signature is read from its bytes. -/
theorem FieldSig.ofBytes_of_encode {limit : Nat} {f : FieldSig}
    (h : f.IsCanonical) (room : f.depth ≤ limit) {bytes : List UInt8}
    (encoded : f.encode = .ok bytes) :
    FieldSig.ofBytes limit bytes = .ok f := by
  obtain ⟨_, hbytes, htaken⟩ := FieldSig.takes_encode h room
  cases encoded.symm.trans hbytes
  exact htaken.run'

namespace Signature

/-- The bytes go behind any others, and a reader that starts at them takes these
bytes and no more, for the signature that was written. -/
def IsReadBack {α : Type} (encoded : Except Error (List UInt8))
    (decode : Decoder α) (s : α) :
    Prop :=
  ∃ bytes, encoded = .ok bytes ∧ ∀ before after,
    appendTo before encoded = .ok (before ++ bytes) ∧
      decode.run ((before ++ bytes ++ after).drop before.length)
        = .ok (s, after)

theorem isReadBack_of_takes {α : Type} {encoded : Except Error (List UInt8)}
    {bytes : List UInt8} {decode : Decoder α} {s : α} (h : encoded = .ok bytes)
    (taken : Takes decode bytes s) :
    IsReadBack encoded decode s := by
  refine ⟨bytes, h, fun before after => ⟨?_, ?_⟩⟩
  · rw [appendTo, h]
    rfl
  · rw [List.append_assoc, List.drop_left]
    exact taken after

/-- Canonical signatures that nest no deeper than the limit are read back. -/
theorem isReadBack_of_isCanonical (limit : Nat) :
    (∀ m : MethodSig, m.IsCanonical → m.depth ≤ limit →
      IsReadBack m.encode (MethodSig.decode limit) m) ∧
    (∀ f : FieldSig, f.IsCanonical → f.depth ≤ limit →
      IsReadBack f.encode (FieldSig.decode limit) f) ∧
    ∀ t : TypeSig, t.IsCanonical → t.depth ≤ limit →
      IsReadBack t.encode (TypeSig.decode limit) t := by
  refine ⟨fun m h room => ?_, fun f h room => ?_, fun t h room => ?_⟩
  · obtain ⟨bytes, hbytes, htaken⟩ :=
      MethodSig.takes_encode limit m h limit room
    exact isReadBack_of_takes hbytes htaken
  · obtain ⟨bytes, hbytes, htaken⟩ := FieldSig.takes_encode h room
    exact isReadBack_of_takes hbytes htaken
  · obtain ⟨tail, hbytes, htaken⟩ := TypeSig.takes_encode limit t h limit room
    exact isReadBack_of_takes hbytes htaken

/-- A variadic method with an applied generic type as its result, a modified
parameter and, added at the call, a function pointer. -/
def variadicSample : MethodSig where
  hasThis := false
  explicitThis := false
  conventions := { vararg := true }
  genericCount := 0
  result := .plain (.generic (.referenceType ⟨0x01000002⟩)
    [.typeVar 0, .array (.primitive .i4) 2 [3, 0x4000] [0]])
  params :=
    [⟨[⟨true, ⟨0x01000003⟩⟩], true,
      .pointer [⟨false, ⟨0x02000001⟩⟩] (.primitive .void)⟩]
  varargs :=
    [.plain (.function (.static (.primitive .r8) [.valueType ⟨0x1B000004⟩]))]

theorem variadicSample_isReadBack :
    variadicSample.IsCanonical ∧ variadicSample.depth ≤ 3 ∧
    IsReadBack variadicSample.encode (MethodSig.decode 3) variadicSample := by
  have canonical : variadicSample.IsCanonical := by
    simp [variadicSample, MethodSig.static, ParamSig.plain,
      MethodSig.IsCanonical, ParamSig.IsCanonical, ParamSig.AreCanonical,
      TypeSig.IsCanonical, TypeSig.AreCanonical, TypeSig.IsNamed,
      TypeSig.IsByRef, AreWritable, IsWritableLength, Conventions.IsSingle]
    decide
  have depth : variadicSample.depth ≤ 3 := by decide
  exact ⟨canonical, depth,
    (isReadBack_of_isCanonical 3).1 variadicSample canonical depth⟩

end Signature

end CliMetadata
