import CliMetadata.Proofs.Signature.RoundTrip

/-!
# Reading a signature normalises it

Bytes that are accepted as a signature need not be the ones that are written for
it: numbers may be longer than they have to be, the first byte of a method may
announce generic parameters of which there are none, sentinels may be repeated.
What is read is canonical nevertheless and is written in no more bytes, so that
writing it and reading it again changes nothing.  Only a coded token with more
bits than a row has could be written as another one; the decoders here take
theirs below `CodedToken.rowBound`.
-/

namespace CliMetadata

open Decoder

/-- Bytes are written, and no more of them than were read. -/
def Fits (encoded : Except Error (List UInt8)) (front : List UInt8) : Prop :=
  ∃ bytes, encoded = .ok bytes ∧ bytes.length ≤ front.length

/-- Takes a type token whose row is not cut off by its coded form. -/
abbrev wholeToken : Decoder Token := CodedToken.decodeBelow CodedToken.rowBound

/-! ### Numbers -/

/-- A count is written as the length of what it counts. -/
theorem encodeLength_of_toNat_eq {α : Type} {items : List α} {count : UInt32}
    (h : items.length = count.toNat) :
    CompressedInteger.encodeLength items = CompressedInteger.encode count := by
  rw [CompressedInteger.encodeLength, h, UInt32.ofNat_toNat]

theorem isWritableLength_of_toNat_eq {length : Nat} {count : UInt32}
    (h : length = count.toNat) (bound : count ≤ CompressedInteger.limit) :
    IsWritableLength length := by
  rw [h]
  exact UInt32.le_iff_toNat_le.mp bound

/-- Numbers that are read can be written, in no more bytes. -/
theorem yields_decodeNumbers : Yields decodeNumbers fun front numbers =>
    AreWritable numbers ∧ (encodeNumbers numbers).length ≤ front.length := by
  refine CompressedInteger.yields_decode.bind fun front count hcount => ?_
  have items := CompressedInteger.yields_decode.times
    (Q := fun front numbers => (∀ n ∈ numbers, n ≤ CompressedInteger.limit) ∧
      (numbers.flatMap CompressedInteger.encode).length ≤ front.length)
    ⟨nofun, Nat.le_refl 0⟩
    (fun front n back numbers hn hnumbers => by
      refine ⟨List.forall_mem_cons.mpr ⟨hn.1, hnumbers.1⟩, ?_⟩
      rw [List.flatMap_cons, List.length_append, List.length_append]
      exact Nat.add_le_add hn.2 hnumbers.2) count.toNat
  refine items.mono fun back numbers ⟨⟨hwithin, hfits⟩, hlength⟩ =>
    ⟨⟨?_, hwithin⟩, ?_⟩
  · exact isWritableLength_of_toNat_eq hlength hcount.1
  · rw [encodeNumbers, encodeLength_of_toNat_eq hlength, List.length_append,
      List.length_append]
    exact Nat.add_le_add hcount.2 hfits

/-! ### Modifiers -/

namespace Modifier

/-- A modifier that is read names a type, and is written in no more bytes. -/
theorem yields_decodeWith? : Yields (decodeWith? wholeToken) fun front m? =>
    match m? with
    | some m => m.type.NamesType ∧ Fits m.encode front
    | none => front = [] := by
  intro bytes m? rest h
  cases bytes with
  | nil =>
    cases h
    exact ⟨[], rfl, rfl⟩
  | cons b bytes =>
    change (if _ then (wholeToken.run bytes).map _ else _) = _ at h
    -- A modifier is there if its first byte is.
    split at h
    · cases hrun : wholeToken.run bytes with
      | error e => rw [hrun] at h; cases h
      | ok out =>
        rw [hrun] at h
        cases h
        obtain ⟨front, rfl, hnames, tail, htail, hlength⟩ :=
          CodedToken.yields_decodeBelow _ _ _ hrun
        have encoded : encode ⟨decide (b = ElementType.requiredModifier), out.1⟩
            = .ok (lead ⟨decide (b = ElementType.requiredModifier),
              out.1⟩ :: tail) := by
          rw [encode, htail]
          rfl
        exact ⟨b :: front, rfl, hnames, _, encoded, Nat.succ_le_succ hlength⟩
    · cases h
      exact ⟨[], rfl, rfl⟩

/-- Modifiers that are read name types, and are written in no more bytes. -/
def AreNormal (front : List UInt8) (modifiers : List Modifier) : Prop :=
  (∀ m ∈ modifiers, m.type.NamesType) ∧ Fits (encodeEach modifiers) front

theorem yields_decodeUpTo (bound : Nat) :
    Yields (decodeUpTo wholeToken bound) AreNormal := by
  induction bound with
  | zero => exact Yields.pure ⟨nofun, [], rfl, Nat.le_refl 0⟩
  | succ bound ih =>
    refine yields_decodeWith?.bind fun front m? hm => ?_
    cases m? with
    | none =>
      -- No modifier was read.
      rw [show front = [] from hm]
      exact Yields.pure ⟨nofun, [], rfl, Nat.le_refl 0⟩
    | some m =>
      -- A modifier was read, and it takes no more bytes than before.
      obtain ⟨hnames, first, hfirst, hlength⟩ := hm
      refine ih.map fun back modifiers ⟨hall, others, hothers, hlengths⟩ =>
        ⟨?_, ?_⟩
      · exact List.forall_mem_cons.mpr ⟨hnames, hall⟩
      · refine ⟨first ++ others, ?_, ?_⟩
        · rw [encodeEach, hfirst, hothers]
          rfl
        · rw [List.length_append, List.length_append]
          exact Nat.add_le_add hlength hlengths

theorem yields_decodeEachWith :
    Yields (decodeEachWith wholeToken) AreNormal := by
  intro bytes modifiers rest h
  exact yields_decodeUpTo bytes.length bytes modifiers rest h

end Modifier

/-! ### What is read where types are read with some room -/

/-- A type that is read is canonical, nests no deeper than there is room, and is
written in no more bytes, with the same first byte. -/
structure TypeSig.IsNormal (room : Nat) (front : List UInt8) (t : TypeSig) :
    Prop where
  canonical : t.IsCanonical
  depth_le : t.depth ≤ room
  head? : front.head? = some t.lead
  fits : Fits t.encode front

/-- A parameter that is read is canonical, nests no deeper than there is room,
and is written in no more bytes. -/
structure ParamSig.IsNormal (room : Nat) (front : List UInt8) (p : ParamSig) :
    Prop where
  canonical : p.IsCanonical
  depth_le : p.depth ≤ room
  fits : Fits p.encode front

/-- A method signature that is read is canonical, nests no deeper than there is
room, and is written in no more bytes. -/
structure MethodSig.IsNormal (room : Nat) (front : List UInt8) (m : MethodSig) :
    Prop where
  canonical : m.IsCanonical
  depth_le : m.depth ≤ room
  fits : Fits m.encode front

/-- Parameters that are read are canonical and nest no deeper than there is
room; they are as many as were asked for, all of them added ones if a sentinel
has been read, and are written in no more bytes. -/
structure ParamSig.AreNormal (room count : Nat) (added : Bool)
    (front : List UInt8) (lists : List ParamSig × List ParamSig) : Prop where
  canonical : ParamSig.AreCanonical lists.1 ∧ ParamSig.AreCanonical lists.2
  depth_le : ParamSig.depthEach lists.1 ≤ room ∧
    ParamSig.depthEach lists.2 ≤ room
  length : lists.1.length + lists.2.length = count
  all_added : added = true → lists.1 = []
  fits : ∃ declared others, ParamSig.encodeEach lists.1 = .ok declared ∧
    ParamSig.encodeEach lists.2 = .ok others ∧
    declared.length
      + (if added then others else ParamSig.addedBytes lists.2 others).length
      ≤ front.length

section
variable {room : Nat} {type : Decoder TypeSig}

namespace ParamSig

/-- What follows the modifiers of a parameter. -/
theorem yields_decodeAfter (h : Yields type (TypeSig.IsNormal room))
    (modifiers : List Modifier) :
    Yields (decodeAfter type modifiers) fun front p =>
      p.modifiers = modifiers ∧ (p.byRef = false → ¬ p.type.IsByRef) ∧
      p.type.IsCanonical ∧
        p.type.depth ≤ room ∧
        ∃ bytes, p.type.encode = .ok bytes ∧
          ((if p.byRef then [ElementType.byRef] else []) ++ bytes).length
            ≤ front.length := by
  refine Yields.peek_bind fun b => ?_
  split
  · -- The byte of a reference comes before the type.
    refine Yields.byte.bind fun front _ hfront => ?_
    refine h.map fun back t ht => ?_
    obtain ⟨bytes, hbytes, hlength⟩ := ht.fits
    rw [hfront]
    refine ⟨List.cons_ne_nil _ _, fun _ => ⟨rfl, nofun, ht.canonical,
      ht.depth_le, bytes, hbytes, ?_⟩⟩
    exact Nat.succ_le_succ hlength
  · -- There is none, and the type begins with another byte.
    next hb =>
    refine h.map fun front t ht => ⟨?_, fun hhead => ?_⟩
    · rintro rfl
      cases ht.head?
    · have lead : t.lead = b := Option.some.inj (ht.head?.symm.trans hhead)
      refine ⟨rfl, fun _ hbyRef => hb ?_, ht.canonical, ht.depth_le, ht.fits⟩
      rw [← lead]
      exact t.lead_eq_byRef_iff.mpr hbyRef

theorem yields_decodeWith (h : Yields type (TypeSig.IsNormal room)) :
    Yields (decodeWith wholeToken type) (ParamSig.IsNormal room) := by
  refine Modifier.yields_decodeEachWith.bind
    fun front modifiers hmodifiers => ?_
  refine (yields_decodeAfter h modifiers).mono fun back p hp => ?_
  obtain ⟨own, byRef, t⟩ := p
  obtain ⟨rfl, hbyRef, hcanonical, hdepth, bytes, hbytes, hlength⟩ := hp
  obtain ⟨hnames, start, hstart, hfront⟩ := hmodifiers
  -- The modifiers are written first, then the byte of a reference.
  have encoded : encode ⟨own, byRef, t⟩ = .ok
      (start ++ ((if byRef then [ElementType.byRef] else []) ++ bytes)) := by
    rw [encode, hstart, hbytes]
    rfl
  refine ⟨?_, ?_, _, encoded, ?_⟩
  · rw [IsCanonical]
    exact ⟨hnames, hbyRef, hcanonical⟩
  · rw [depth]
    exact hdepth
  · have whole := Nat.add_le_add hfront hlength
    rwa [← List.length_append, ← List.length_append] at whole

/-- A sentinel takes a byte. -/
theorem yields_decodeSentinel (added : Bool) :
    Yields (decodeSentinel added) fun front now =>
    now = true ∧ front.length = 1 ∨ now = added ∧ front = [] := by
  refine Yields.peek.bind fun front b hfront => ?_
  rw [hfront]
  split
  · refine Yields.byte.bind fun back _ hback => Yields.pure (Or.inl ⟨rfl, ?_⟩)
    rw [hback]
    rfl
  · exact Yields.pure (Or.inr ⟨rfl, rfl⟩)

theorem AreNormal.cons_declared {count : Nat} {front back : List UInt8}
    {p : ParamSig} {lists : List ParamSig × List ParamSig}
    (hp : p.IsNormal room front) (h : AreNormal room count false back lists) :
    AreNormal room (count + 1) false (front ++ back)
      (p :: lists.1, lists.2) := by
  obtain ⟨first, hfirst, hlength⟩ := hp.fits
  obtain ⟨declared, others, hdeclared, hothers, hlengths⟩ := h.fits
  refine ⟨⟨?_, h.canonical.2⟩, ⟨?_, h.depth_le.2⟩, ?_, nofun, first ++ declared,
    others, ?_, hothers, ?_⟩
  · rw [AreCanonical]
    exact ⟨hp.canonical, h.canonical.1⟩
  · rw [depthEach]
    exact Nat.max_le.mpr ⟨hp.depth_le, h.depth_le.1⟩
  · simp [Nat.add_right_comm, h.length]
  · rw [encodeEach, hfirst, hdeclared]
    rfl
  · rw [List.length_append, List.length_append, Nat.add_assoc]
    exact Nat.add_le_add hlength hlengths

theorem AreNormal.cons_added {count : Nat} {mark front back : List UInt8}
    {p : ParamSig} {lists : List ParamSig × List ParamSig} {added : Bool}
    (hp : p.IsNormal room front) (hmark : mark.length = 1 ∨ added = true)
    (h : AreNormal room count true back lists) :
    AreNormal room (count + 1) added (mark ++ (front ++ back))
      (lists.1, p :: lists.2) := by
  obtain ⟨first, hfirst, hlength⟩ := hp.fits
  obtain ⟨declared, others, hdeclared, hothers, hlengths⟩ := h.fits
  refine ⟨⟨h.canonical.1, ?_⟩, ⟨h.depth_le.1, ?_⟩, ?_,
    fun _ => h.all_added rfl, declared,
    first ++ others, hdeclared, ?_, ?_⟩
  · rw [AreCanonical]
    exact ⟨hp.canonical, h.canonical.2⟩
  · rw [depthEach]
    exact Nat.max_le.mpr ⟨hp.depth_le, h.depth_le.2⟩
  · simp [← Nat.add_assoc, h.length]
  · rw [encodeEach, hfirst, hothers]
    rfl
  · rw [if_pos rfl] at hlengths
    simp only [List.length_append]
    -- Either the sentinel is read here, or it was read before and is not
    -- counted.
    rcases hmark with hmark | rfl
    · rw [hmark]
      split <;> simp [addedBytes] <;> omega
    · simp
      omega

theorem yields_decodeList (h : Yields type (TypeSig.IsNormal room))
    (count : Nat) (added : Bool) :
    Yields (decodeList wholeToken type count added)
      (AreNormal room count added) := by
  induction count generalizing added with
  | zero =>
    refine Yields.pure ⟨?_, ?_, rfl, fun _ => rfl, [], [], ?_, ?_, ?_⟩
    · exact ⟨by rw [AreCanonical]; trivial, by rw [AreCanonical]; trivial⟩
    · exact ⟨by rw [depthEach]; exact Nat.zero_le _,
        by rw [depthEach]; exact Nat.zero_le _⟩
    · rw [encodeEach]
      rfl
    · rw [encodeEach]
      rfl
    · cases added <;> exact Nat.le_refl 0
  | succ count ih =>
    refine (yields_decodeSentinel added).bind fun mark now hmark => ?_
    refine (yields_decodeWith h).bind fun front p hp => ?_
    refine (ih now).map fun back lists hlists => ?_
    -- Behind the sentinel, which may stand here, parameters are added.
    cases now with
    | true =>
      rw [if_pos rfl]
      refine AreNormal.cons_added hp ?_ hlists
      rcases hmark with ⟨-, hlength⟩ | ⟨hadded, -⟩
      exacts [Or.inl hlength, Or.inr hadded.symm]
    | false =>
      rcases hmark with ⟨hnow, -⟩ | ⟨rfl, rfl⟩
      · cases hnow
      · show AreNormal room (count + 1) false (front ++ back) _
        exact AreNormal.cons_declared hp hlists

end ParamSig

/-! ### Method signatures -/

/-- A code below six is a single convention. -/
theorem Conventions.isSingle_ofCode {code : UInt8} (h : ¬ 0x05 < code) :
    (ofCode code).IsSingle := by
  have codes : ∀ n < 6, (ofCode (UInt8.ofNat n)).IsSingle := by
    unfold IsSingle
    decide
  have known : code.toNat < 6 := Nat.lt_succ_of_le
    (Nat.not_lt.mp fun hlt => h (UInt8.lt_iff_toNat_lt.mpr hlt))
  have single := codes code.toNat known
  rwa [UInt8.ofNat_toNat] at single

/-- The count of generic parameters that is read is written in no more bytes,
and in none if it is zero. -/
theorem MethodSig.yields_decodeGenericCount (head : UInt8) :
    Yields (decodeGenericCount head) fun front count =>
      count ≤ CompressedInteger.limit ∧
        (if 0 < count then CompressedInteger.encode count else []).length
          ≤ front.length := by
  rw [decodeGenericCount]
  split
  · refine CompressedInteger.yields_decode.mono fun front count hcount =>
      ⟨hcount.1, ?_⟩
    split
    exacts [hcount.2, Nat.zero_le _]
  · exact Yields.pure ⟨by decide, Nat.le_refl 0⟩

theorem MethodSig.yields_decodeWith (h : Yields type (TypeSig.IsNormal room)) :
    Yields (decodeWith wholeToken type) (MethodSig.IsNormal room) := by
  refine Yields.byte.bind fun lead head hlead => ?_
  rw [hlead]
  split
  · exact (Yields.malformed _).bind fun _ _ => False.elim
  next known =>
  refine (yields_decodeGenericCount head).bind
    fun genericBytes genericCount hgeneric => ?_
  refine CompressedInteger.yields_decode.bind fun countBytes count hcount => ?_
  refine (ParamSig.yields_decodeWith h).bind
    fun resultBytes result hresult => ?_
  refine (ParamSig.yields_decodeList h count.toNat false).map
    fun paramBytes lists hlists => ?_
  obtain ⟨tail, htail, hlength⟩ := hresult.fits
  obtain ⟨declared, others, hdeclared, hothers, hlengths⟩ := hlists.fits
  -- Canonical are the head and the counts, and the parts are by themselves.
  refine ⟨?_, ?_, _, encode_eq_ok htail hdeclared hothers, ?_⟩
  · rw [isCanonical_iff]
    exact ⟨Conventions.isSingle_ofCode known, hgeneric.1,
      isWritableLength_of_toNat_eq hlists.length hcount.1, hresult.canonical,
      hlists.canonical⟩
  · rw [depth]
    exact Nat.max_le.mpr ⟨hresult.depth_le, Nat.max_le.mpr hlists.depth_le⟩
  · have total : (lists.1 ++ lists.2).length = count.toNat := by
      simp [hlists.length]
    rw [encodeLength_of_toNat_eq total]
    simp only [List.length_append, List.length_cons, List.length_nil]
      at hlengths ⊢
    have := hgeneric.2
    have := hcount.2
    rw [if_neg (by decide)] at hlengths
    omega

/-! ### Types -/

namespace TypeSig

/-- A type that wraps another one behind its first byte. -/
theorem IsNormal.wrap {front : List UInt8} {t whole : TypeSig} {b : UInt8}
    (h : t.IsNormal room front) (lead : whole.lead = b)
    (canonical : whole.IsCanonical = t.IsCanonical)
    (depth : whole.depth = t.depth + 1)
    (encode : whole.encode = do return b :: (← t.encode)) :
    whole.IsNormal (room + 1) (b :: front) := by
  obtain ⟨bytes, hbytes, hlength⟩ := h.fits
  refine ⟨by rw [canonical]; exact h.canonical, ?_, congrArg some lead.symm,
    b :: bytes, ?_, ?_⟩
  · rw [depth]
    exact Nat.succ_le_succ h.depth_le
  · rw [encode, hbytes]
    rfl
  · exact Nat.succ_le_succ hlength

/-- A type that wraps another one behind its first byte and modifiers. -/
theorem IsNormal.modified {front back : List UInt8} {modifiers : List Modifier}
    {t whole : TypeSig} {b : UInt8} (hm : Modifier.AreNormal front modifiers)
    (h : t.IsNormal room back) (lead : whole.lead = b)
    (canonical :
      whole.IsCanonical = ((∀ m ∈ modifiers, m.type.NamesType) ∧ t.IsCanonical))
    (depth : whole.depth = t.depth + 1)
    (encode : whole.encode = do
      let front ← Modifier.encodeEach modifiers
      return b :: (front ++ (← t.encode))) :
    whole.IsNormal (room + 1) (b :: (front ++ back)) := by
  obtain ⟨hnames, first, hfirst, hlength⟩ := hm
  obtain ⟨bytes, hbytes, hlengths⟩ := h.fits
  -- What is written is the modifiers and then what is inside.
  refine ⟨by rw [canonical]; exact ⟨hnames, h.canonical⟩, ?_,
    congrArg some lead.symm, b :: (first ++ bytes), ?_, ?_⟩
  · rw [depth]
    exact Nat.succ_le_succ h.depth_le
  · rw [encode, hfirst, hbytes]
    rfl
  · rw [List.length_cons, List.length_cons, List.length_append,
      List.length_append]
    exact Nat.succ_le_succ (Nat.add_le_add hlength hlengths)

/-- A type whose first byte is followed by a token. -/
theorem IsNormal.named {front : List UInt8} {token : Token} {whole : TypeSig}
    {b : UInt8}
    (h : token.NamesType ∧ Fits (CodedToken.encodeBytes token) front)
    (lead : whole.lead = b) (canonical : whole.IsCanonical = token.NamesType)
    (depth : whole.depth = 1)
    (encode : whole.encode = do return b :: (← CodedToken.encodeBytes token)) :
    whole.IsNormal (room + 1) (b :: front) := by
  obtain ⟨hnames, bytes, hbytes, hlength⟩ := h
  refine ⟨by rw [canonical]; exact hnames, ?_, congrArg some lead.symm,
    b :: bytes, ?_, ?_⟩
  · rw [depth]
    exact Nat.succ_le_succ (Nat.zero_le room)
  · rw [encode, hbytes]
    rfl
  · exact Nat.succ_le_succ hlength

/-- A type whose first byte is followed by a number. -/
theorem IsNormal.numbered {front : List UInt8} {index : UInt32}
    {whole : TypeSig} {b : UInt8}
    (h : index ≤ CompressedInteger.limit ∧
      (CompressedInteger.encode index).length ≤ front.length)
    (lead : whole.lead = b)
    (canonical : whole.IsCanonical = (index ≤ CompressedInteger.limit))
    (depth : whole.depth = 1)
    (encode : whole.encode = .ok (b :: CompressedInteger.encode index)) :
    whole.IsNormal (room + 1) (b :: front) := by
  refine ⟨by rw [canonical]; exact h.1, ?_, congrArg some lead.symm, _, encode,
    Nat.succ_le_succ h.2⟩
  rw [depth]
  exact Nat.succ_le_succ (Nat.zero_le room)

/-- Types that are read are canonical, nest no deeper than there is room, and
are written in no more bytes. -/
structure AreNormal (room : Nat) (front : List UInt8) (ts : List TypeSig) :
    Prop where
  canonical : AreCanonical ts
  depth_le : depthEach ts ≤ room
  fits : Fits (encodeEach ts) front

theorem AreNormal.nil : AreNormal room [] [] := by
  refine ⟨?_, ?_, [], ?_, Nat.le_refl 0⟩
  · rw [AreCanonical]
    trivial
  · rw [depthEach]
    exact Nat.zero_le room
  · rw [encodeEach]
    rfl

theorem AreNormal.cons {front back : List UInt8} {t : TypeSig}
    {ts : List TypeSig} (h : t.IsNormal room front)
    (h' : AreNormal room back ts) :
    AreNormal room (front ++ back) (t :: ts) := by
  obtain ⟨bytes, hbytes, hlength⟩ := h.fits
  obtain ⟨others, hothers, hlengths⟩ := h'.fits
  refine ⟨?_, ?_, bytes ++ others, ?_, ?_⟩
  · rw [AreCanonical]
    exact ⟨h.canonical, h'.canonical⟩
  · rw [depthEach]
    exact Nat.max_le.mpr ⟨h.depth_le, h'.depth_le⟩
  · rw [encodeEach, hbytes, hothers]
    rfl
  · rw [List.length_append, List.length_append]
    exact Nat.add_le_add hlength hlengths

theorem yields_times (h : Yields type (IsNormal room)) (count : Nat) :
    Yields (type.times count) fun front ts => AreNormal room front ts ∧
      ts.length = count :=
  h.times AreNormal.nil (fun _ _ _ _ => AreNormal.cons) count

/-- What follows the first byte of an array. -/
theorem yields_array (h : Yields type (IsNormal room)) :
    Yields (do
      let element ← type
      let rank ← CompressedInteger.decode
      if rank = 0 then
        Decoder.malformed .arrayOfRankZero
      let sizes ← decodeNumbers
      return .array element rank sizes (← decodeNumbers))
    fun front t => IsNormal (room + 1) (ElementType.array :: front) t := by
  refine h.bind fun front element helement => ?_
  refine CompressedInteger.yields_decode.bind fun rankBytes rank hrank => ?_
  split
  · exact (Yields.malformed _).bind fun _ _ => False.elim
  next positive =>
  refine yields_decodeNumbers.bind fun sizeBytes sizes hsizes => ?_
  refine yields_decodeNumbers.map fun boundBytes bounds hbounds => ?_
  obtain ⟨bytes, hbytes, hlength⟩ := helement.fits
  refine ⟨?_, ?_, rfl, ElementType.array :: (bytes ++
    CompressedInteger.encode rank ++ encodeNumbers sizes ++
    encodeNumbers bounds), ?_, ?_⟩
  · -- A rank of zero was refused.
    rw [IsCanonical]
    refine ⟨helement.canonical, ?_, hrank.1, hsizes.1, hbounds.1⟩
    rw [UInt32.le_iff_toNat_le]
    exact Nat.one_le_iff_ne_zero.mpr fun hzero => positive
      (UInt32.toNat_inj.mp hzero)
  · rw [depth]
    exact Nat.succ_le_succ helement.depth_le
  · rw [encode, hbytes]
    rfl
  · -- Each part is written in no more bytes than it was read from.
    simp only [List.length_cons, List.length_append]
    have := hrank.2
    have := hsizes.2
    have := hbounds.2
    omega

/-- What follows the first byte of an applied generic type. -/
theorem yields_generic (h : Yields type (IsNormal room)) :
    Yields (do
      let next ← Decoder.peek
      if next ≠ ElementType.referenceType ∧ next ≠ ElementType.valueType then
        Decoder.malformed (.genericHead next)
      let definition ← type
      let count ← CompressedInteger.decode
      if count = 0 then
        Decoder.malformed .noTypeArguments
      return .generic definition (← Decoder.times type count.toNat))
    fun front t => IsNormal (room + 1) (ElementType.generic :: front) t := by
  refine Yields.peek_bind fun next => ?_
  split
  · exact (Yields.malformed _).bind fun _ _ => False.elim
  next known =>
  refine h.bind fun front definition hdefinition => ?_
  refine CompressedInteger.yields_decode.bind fun countBytes count hcount => ?_
  split
  · exact (Yields.malformed _).bind fun _ _ => False.elim
  next positive =>
  refine (yields_times h count.toNat).map
    fun back arguments ⟨hall, hlength⟩ => ?_
  -- What was looked at is the first byte of the definition.
  have lead : (front ++ (countBytes ++ back)).head? = some definition.lead := by
    rw [List.head?_append, hdefinition.head?]
    rfl
  refine ⟨?_, fun hhead => ?_⟩
  · intro hnil
    rw [hnil] at lead
    cases lead
  obtain ⟨bytes, hbytes, hbytesLength⟩ := hdefinition.fits
  obtain ⟨others, hothers, hothersLength⟩ := hall.fits
  refine ⟨?_, ?_, rfl, ElementType.generic ::
    (bytes ++ CompressedInteger.encodeLength arguments
    ++ others), ?_, ?_⟩
  · rw [IsCanonical]
    refine ⟨?_, hdefinition.canonical, ?_,
      isWritableLength_of_toNat_eq hlength hcount.1, hall.canonical⟩
    · rw [← definition.lead_isNamed_iff,
        Option.some.inj (lead.symm.trans hhead)]
      rwa [← not_or, not_not] at known
    · rw [hlength]
      exact Nat.one_le_iff_ne_zero.mpr fun hzero => positive
        (UInt32.toNat_inj.mp hzero)
  · rw [depth]
    exact Nat.succ_le_succ
      (Nat.max_le.mpr ⟨hdefinition.depth_le, hall.depth_le⟩)
  · rw [encode, hbytes, hothers]
    rfl
  · rw [encodeLength_of_toNat_eq hlength]
    simp only [List.length_cons, List.length_append]
    have := hcount.2
    omega

/-- What follows the first byte of a pointer to a function. -/
theorem yields_function (h : Yields type (IsNormal room)) :
    Yields (do return .function (← MethodSig.decodeWith wholeToken type))
      fun front t => IsNormal (room + 1) (ElementType.function :: front) t := by
  refine (MethodSig.yields_decodeWith h).map fun front m hm => ?_
  obtain ⟨bytes, hbytes, hlength⟩ := hm.fits
  refine ⟨?_, ?_, rfl, ElementType.function :: bytes, ?_,
    Nat.succ_le_succ hlength⟩
  · rw [IsCanonical]
    exact hm.canonical
  · rw [depth]
    exact Nat.succ_le_succ hm.depth_le
  · rw [encode, hbytes]
    rfl

/-- A primitive type is normal. -/
theorem isNormal_primitive (kind : Primitive) :
    IsNormal (room + 1) [kind.code] (.primitive kind) := by
  refine ⟨?_, ?_, rfl, [kind.code], ?_, Nat.le_refl 1⟩
  · rw [IsCanonical]
    trivial
  · rw [depth]
    exact Nat.succ_le_succ (Nat.zero_le room)
  · rw [encode]
    rfl

/-- What follows the first byte of a type. -/
theorem yields_decodeAfter (h : Yields type (IsNormal room)) (lead : UInt8) :
    Yields (decodeAfter wholeToken type lead) fun front t => IsNormal (room + 1)
      (lead :: front) t := by
  rw [decodeAfter]
  split
  · next kind hkind =>
    rw [← Primitive.code_of_ofCode? hkind]
    exact Yields.pure (isNormal_primitive kind)
  -- Each first byte decides what follows it.
  refine Yields.ite (fun hlead => ?_) fun _ => ?_
  · subst hlead
    refine Modifier.yields_decodeEachWith.bind fun front modifiers hm => ?_
    refine h.map fun back t ht => IsNormal.modified hm ht rfl ?_ ?_ ?_
    · rw [IsCanonical]
    · simp
    · rw [encode]
  refine Yields.ite (fun hlead => ?_) fun _ => ?_
  · subst hlead
    exact h.map fun front t ht => ht.wrap rfl (by rw [IsCanonical]) (by simp)
      (by rw [encode])
  refine Yields.ite (fun hlead => ?_) fun _ => ?_
  · subst hlead
    exact CodedToken.yields_decodeBelow.map fun front token htoken =>
      IsNormal.named htoken rfl (by rw [IsCanonical]) (by simp) (by rw [encode])
  refine Yields.ite (fun hlead => ?_) fun _ => ?_
  · subst hlead
    exact CodedToken.yields_decodeBelow.map fun front token htoken =>
      IsNormal.named htoken rfl (by rw [IsCanonical]) (by simp) (by rw [encode])
  refine Yields.ite (fun hlead => ?_) fun _ => ?_
  · subst hlead
    exact CompressedInteger.yields_decode.map fun front index hindex =>
      IsNormal.numbered hindex rfl (by rw [IsCanonical]) (by simp)
        (by rw [encode]; rfl)
  refine Yields.ite (fun hlead => ?_) fun _ => ?_
  · subst hlead
    exact CompressedInteger.yields_decode.map fun front index hindex =>
      IsNormal.numbered hindex rfl (by rw [IsCanonical]) (by simp)
        (by rw [encode]; rfl)
  refine Yields.ite (fun hlead => ?_) fun _ => ?_
  · subst hlead
    exact yields_array h
  refine Yields.ite (fun hlead => ?_) fun _ => ?_
  · subst hlead
    exact yields_generic h
  refine Yields.ite (fun hlead => ?_) fun _ => ?_
  · subst hlead
    exact yields_function h
  refine Yields.ite (fun hlead => ?_) fun _ => ?_
  · subst hlead
    refine Modifier.yields_decodeEachWith.bind fun front modifiers hm => ?_
    refine h.map fun back t ht => IsNormal.modified hm ht rfl ?_ ?_ ?_
    · rw [IsCanonical]
    · simp
    · rw [encode]
  refine Yields.ite (fun hlead => ?_) fun _ => ?_
  · subst hlead
    exact h.map fun front t ht => ht.wrap rfl (by rw [IsCanonical]) (by simp)
      (by rw [encode])
  · exact Yields.malformed _

end TypeSig

end

/-! ### The induction on nesting -/

/-- With room for some levels, what is read is normal. -/
theorem TypeSig.yields_decodeWithin (limit room : Nat) :
    Yields (decodeWithin wholeToken limit room) (IsNormal room) := by
  induction room with
  | zero => exact fun _ _ _ => nofun
  | succ room ih =>
    refine Yields.byte.bind fun front lead hlead => ?_
    rw [hlead]
    exact yields_decodeAfter ih lead

/-- What is read of a field is canonical, nests within the limit, and is written
in no more bytes. -/
theorem FieldSig.yields_decodeUsing (limit : Nat) :
    Yields (decodeUsing wholeToken limit) fun front f =>
      (f.IsCanonical ∧ f.depth ≤ limit) ∧ Fits f.encode front := by
  refine Yields.byte.bind fun lead head hlead => ?_
  rw [hlead]
  refine Yields.ite (fun _ => (Yields.malformed _).bind fun _ _ => False.elim)
    fun _ => ?_
  refine Modifier.yields_decodeEachWith.bind fun front modifiers hm => ?_
  refine (TypeSig.yields_decodeWithin limit limit).map fun back t ht => ?_
  obtain ⟨hnames, first, hfirst, hlength⟩ := hm
  obtain ⟨bytes, hbytes, hlengths⟩ := ht.fits
  refine ⟨⟨⟨hnames, ht.canonical⟩, ht.depth_le⟩,
    ElementType.field :: (first ++ bytes), ?_, ?_⟩
  · rw [encode, hfirst, hbytes]
    rfl
  · simp only [List.length_append, List.length_cons, List.length_nil]
    omega

/-! ### Reading tokens of any size -/

section
variable {token token' : Decoder Token} {type type' : Decoder TypeSig}

theorem Modifier.refines_decodeEachWith (h : Refines token token') :
    Refines (decodeEachWith token) (decodeEachWith token') := by
  have one : Refines (decodeWith? token) (decodeWith? token') := by
    intro bytes result hrun
    cases bytes with
    | nil => exact hrun
    | cons b bytes =>
      change (if _ then (token.run bytes).map _ else _) = _ at hrun
      show (if _ then (token'.run bytes).map _ else _) = _
      split at hrun
      · next hb =>
        rw [if_pos hb]
        cases htoken : token.run bytes with
        | error e => rw [htoken] at hrun; cases hrun
        | ok out => rwa [htoken, ← h _ _ htoken] at hrun
      · next hb => rwa [if_neg hb]
  -- The room for modifiers is the same for both.
  have upTo : ∀ bound, Refines (decodeUpTo token bound)
      (decodeUpTo token' bound) := by
    intro bound
    induction bound with
    | zero => exact Refines.rfl _
    | succ bound ih =>
      refine one.bind fun m? => ?_
      cases m? with
      | none => exact Refines.rfl _
      | some m => exact ih.bind fun _ => Refines.rfl _
  exact fun bytes => upTo bytes.length bytes

theorem ParamSig.refines_decodeWith (h : Refines token token')
    (h' : Refines type type') :
    Refines (decodeWith token type) (decodeWith token' type') := by
  refine (Modifier.refines_decodeEachWith h).bind
    fun modifiers => (Refines.rfl _).bind fun b => ?_
  refine Refines.ite (fun _ => ?_) fun _ => ?_
  · exact (Refines.rfl _).bind fun _ => h'.bind fun _ => Refines.rfl _
  · exact h'.bind fun _ => Refines.rfl _

theorem ParamSig.refines_decodeList (h : Refines token token')
    (h' : Refines type type') (count : Nat) (added : Bool) :
    Refines (decodeList token type count added)
      (decodeList token' type' count added) := by
  induction count generalizing added with
  | zero => exact Refines.rfl _
  | succ count ih =>
    exact (Refines.rfl _).bind fun now => (refines_decodeWith h h').bind
      fun _ =>
      (ih now).bind fun _ => Refines.rfl _

theorem MethodSig.refines_decodeWith (h : Refines token token')
    (h' : Refines type type') :
    Refines (decodeWith token type) (decodeWith token' type') := by
  refine (Refines.rfl _).bind fun head => ?_
  have after : Refines (decodeAfter token type head)
      (decodeAfter token' type' head) := by
    refine (Refines.rfl _).bind fun genericCount => (Refines.rfl _).bind
      fun count => ?_
    exact (ParamSig.refines_decodeWith h h').bind fun _ =>
      (ParamSig.refines_decodeList h h' count.toNat false).bind
        fun _ => Refines.rfl _
  exact Refines.ite (fun _ => (Refines.rfl _).bind fun _ => after)
    fun _ => after

theorem TypeSig.refines_decodeAfter (h : Refines token token')
    (h' : Refines type type') (lead : UInt8) :
    Refines (decodeAfter token type lead) (decodeAfter token' type' lead) := by
  rw [decodeAfter, decodeAfter]
  split
  · exact Refines.rfl _
  -- There are few shapes of what follows a first byte.
  have modified {build : List Modifier → TypeSig → TypeSig} : Refines
      (do let modifiers ← Modifier.decodeEachWith token
          return build modifiers (← type))
      (do let modifiers ← Modifier.decodeEachWith token'
          return build modifiers (← type')) :=
    (Modifier.refines_decodeEachWith h).bind fun _ => h'.bind
      fun _ => Refines.rfl _
  have single {build : TypeSig → TypeSig} :
      Refines (do return build (← type)) (do return build (← type')) :=
    h'.bind fun _ => Refines.rfl _
  have named {build : Token → TypeSig} :
      Refines (do return build (← token)) (do return build (← token')) :=
    h.bind fun _ => Refines.rfl _
  refine Refines.ite (fun _ => modified) fun _ => ?_
  refine Refines.ite (fun _ => single) fun _ => ?_
  refine Refines.ite (fun _ => named) fun _ => ?_
  refine Refines.ite (fun _ => named) fun _ => ?_
  refine Refines.ite (fun _ => Refines.rfl _) fun _ => ?_
  refine Refines.ite (fun _ => Refines.rfl _) fun _ => ?_
  refine Refines.ite (fun _ => h'.bind fun _ => Refines.rfl _) fun _ => ?_
  refine Refines.ite (fun _ => ?_) fun _ => ?_
  · refine (Refines.rfl _).bind fun next => ?_
    have after : Refines
        (do
          let definition ← type
          let count ← CompressedInteger.decode
          if count = 0 then
            Decoder.malformed .noTypeArguments
          return TypeSig.generic definition (← Decoder.times type count.toNat))
        (do
          let definition ← type'
          let count ← CompressedInteger.decode
          if count = 0 then
            Decoder.malformed .noTypeArguments
          return TypeSig.generic definition
            (← Decoder.times type' count.toNat)) := by
      refine h'.bind fun definition => (Refines.rfl _).bind fun count => ?_
      refine Refines.ite (fun _ => Refines.rfl _) fun _ => ?_
      exact (h'.times count.toNat).bind fun _ => Refines.rfl _
    exact Refines.ite (fun _ => (Refines.rfl _).bind fun _ => after)
      fun _ => after
  refine Refines.ite (fun _ => ?_) fun _ => ?_
  · exact (MethodSig.refines_decodeWith h h').bind fun _ => Refines.rfl _
  refine Refines.ite (fun _ => modified) fun _ => ?_
  exact Refines.ite (fun _ => single) fun _ => Refines.rfl _

theorem TypeSig.refines_decodeWithin (h : Refines token token')
    (limit room : Nat) :
    Refines (decodeWithin token limit room)
      (decodeWithin token' limit room) := by
  induction room with
  | zero => exact Refines.rfl _
  | succ room ih =>
    exact (Refines.rfl _).bind fun lead => refines_decodeAfter h ih lead

end

/-! ### Reading, writing and reading again -/

namespace Signature

/-- If the bytes are read as a signature, and still are where a coded token
above the bound is malformed, then the signature is written in no more bytes
than were read, and read back from them. -/
def IsNormalised {α : Type} (encode : α → Except Error (List UInt8))
    (decode whole : Decoder α) :
    Prop :=
  ∀ bytes s rest, decode.run bytes = .ok (s, rest) →
    (∃ result, whole.run bytes = .ok result) →
    ∃ written, encode s = .ok written ∧
      written.length + rest.length ≤ bytes.length ∧
      decode.run written = .ok (s, [])

theorem isNormalised_of_yields {α : Type}
    {encode : α → Except Error (List UInt8)} {decode whole : Decoder α}
    (P : α → Prop) (refines : Refines whole decode)
    (yields : Yields whole fun front s => P s ∧ Fits (encode s) front)
    (back : ∀ s, P s → IsReadBack (encode s) decode s) :
    IsNormalised encode decode whole := by
  intro bytes s rest hrun ⟨result, hwhole⟩
  -- The bytes are read alike by both.
  have same := refines bytes result hwhole
  rw [hrun, Except.ok.injEq] at same
  rw [← same] at hwhole
  obtain ⟨front, rfl, hs, written, hwritten, hlength⟩ :=
    yields bytes s rest hwhole
  refine ⟨written, hwritten, ?_, ?_⟩
  · rw [List.length_append]
    exact Nat.add_le_add_right hlength rest.length
  · obtain ⟨written', hwritten', hback⟩ := back s hs
    rw [hwritten, Except.ok.injEq] at hwritten'
    have read := (hback [] []).2
    rwa [List.append_nil, List.nil_append, List.length_nil, List.drop_zero,
      ← hwritten'] at read

/-- A signature that is read is written in no more bytes and read again as the
same signature. -/
theorem isNormalised_of_decode (limit : Nat) :
    IsNormalised MethodSig.encode (MethodSig.decode limit)
      (MethodSig.decodeUsing (CodedToken.decodeBelow CodedToken.rowBound)
        limit) ∧
    IsNormalised FieldSig.encode (FieldSig.decode limit)
      (FieldSig.decodeUsing (CodedToken.decodeBelow CodedToken.rowBound)
        limit) ∧
    IsNormalised TypeSig.encode (TypeSig.decode limit)
      (TypeSig.decodeUsing (CodedToken.decodeBelow CodedToken.rowBound)
        limit) := by
  have token := CodedToken.refines_decodeBelow CodedToken.rowBound
  have type := TypeSig.refines_decodeWithin token limit limit
  have normal := TypeSig.yields_decodeWithin limit limit
  obtain ⟨methods, fields, types⟩ := isReadBack_of_isCanonical limit
  refine ⟨?_, ?_, ?_⟩
  · -- Methods.
    refine isNormalised_of_yields (fun m => m.IsCanonical ∧ m.depth ≤ limit)
      (MethodSig.refines_decodeWith token type)
      ((MethodSig.yields_decodeWith normal).mono fun front m hm =>
        ⟨⟨hm.canonical, hm.depth_le⟩, hm.fits⟩) fun m hm => methods m hm.1 hm.2
  · -- Fields, where the bytes may begin with the mark of a field or not.
    have refines : Refines (FieldSig.decodeUsing wholeToken limit)
        (FieldSig.decode limit) := by
      refine (Refines.rfl _).bind fun head => ?_
      have after := (Modifier.refines_decodeEachWith token).bind
        fun modifiers => type.bind
          fun t => Refines.rfl (Pure.pure (FieldSig.mk modifiers t))
      exact Refines.ite (fun _ => (Refines.rfl _).bind fun _ => after)
        fun _ => after
    exact isNormalised_of_yields (fun f => f.IsCanonical ∧ f.depth ≤ limit)
      refines (FieldSig.yields_decodeUsing limit)
      fun f hf => fields f hf.1 hf.2
  · -- Types.
    exact isNormalised_of_yields (fun t => t.IsCanonical ∧ t.depth ≤ limit) type
      (normal.mono fun front t ht => ⟨⟨ht.canonical, ht.depth_le⟩, ht.fits⟩)
      fun t ht => types t ht.1 ht.2

/-- Method bytes that could be shorter: an unused bit and a count of no generic
parameters, long forms of numbers, and a sentinel before each of two added
parameters.  A byte follows them. -/
def looseSample : List UInt8 :=
  [0x90, 0x80, 0x00, 0xC0, 0x00, 0x00, 0x02, 0x01, 0x41, 0x08, 0x41, 0x12,
    0x80, 0x09, 0xFF]

theorem looseSample_isNormalised : ∃ m written,
    (MethodSig.decode 1).run looseSample = .ok (m, [0xFF]) ∧
    m.encode = .ok written ∧
      written.length + 1 ≤ looseSample.length ∧
      (MethodSig.decode 1).run written = .ok (m, []) := by
  obtain ⟨m, hm⟩ : ∃ m, (MethodSig.decode 1).run looseSample
    = .ok (m, [0xFF]) := ⟨_, rfl⟩
  have whole : ∃ result,
      (MethodSig.decodeUsing (CodedToken.decodeBelow CodedToken.rowBound) 1).run
        looseSample = .ok result := ⟨_, rfl⟩
  obtain ⟨written, hwritten, hlength, hback⟩ :=
    (isNormalised_of_decode 1).1 looseSample m [0xFF] hm whole
  exact ⟨m, written, hm, hwritten, hlength, hback⟩

end Signature

end CliMetadata
