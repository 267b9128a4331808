import CliMetadata.Text.Utf8
import Mathlib.Data.Char
import Mathlib.Tactic.Common

/-!
# Texts are read back

A character is written in one to four bytes.  The decoder takes the first of
them for the range that it lies in, and then one byte after the other as its
share of the bits, so that it ends between characters with the character that
was written (`decodeFrom_utf8EncodeChar`).  Whatever text was written is
therefore read back (`decode_encode`).

The bounds on second bytes refuse what no character is written as.  That a
character passes them is a matter of its number alone: three bytes are used
above U+07FF and never for surrogates, and four above U+FFFF and up to U+10FFFF.
What passes them is the number of a character in its only form, so that nothing
is read but what was written (`encode_of_decode`).

No byte of a text is zero unless the text has the character zero
(`zero_notMem_encode`), so that a zero byte can close it.
-/

namespace CliMetadata.Utf8

/-! ### One byte -/

theorem toNat_byte {n : Nat} (h : n < 256) : (UInt8.ofNat n).toNat = n := by
  rw [UInt8.toNat_ofNat', Nat.mod_eq_of_lt h]

section
variable {position seen bits n : Nat} {low high : UInt8} {rest : List UInt8}
  {state : State}

/-- A byte that starts a character of several bytes. -/
theorem decodeFrom_lead {b : UInt8} (large : ¬ b < 0x80)
    (lead : State.ofLead? b = some state) :
    decodeFrom .between position (b :: rest)
      = decodeFrom state position rest := by
  simp [decodeFrom, large, lead]

/-- A byte inside a character that more bytes follow. -/
theorem decodeFrom_next {owed : Nat} (small : n < 256) (above : low.toNat ≤ n)
    (below : n ≤ high.toNat) :
    decodeFrom (.inside (owed + 1) seen low high bits) position
      (UInt8.ofNat n :: rest)
      = decodeFrom (.inside owed (seen + 1) 0x80 0xBF (bits * 64 + n % 64))
        position rest := by
  have within : low ≤ UInt8.ofNat n ∧ UInt8.ofNat n ≤ high := by
    rw [UInt8.le_iff_toNat_le, UInt8.le_iff_toNat_le, toNat_byte small]
    exact ⟨above, below⟩
  simp [decodeFrom, within, toNat_byte small]

/-- The last byte of a character. -/
theorem decodeFrom_last (small : n < 256) (above : low.toNat ≤ n)
    (below : n ≤ high.toNat) :
    decodeFrom (.inside 0 seen low high bits) position (UInt8.ofNat n :: rest)
      = (decodeFrom .between (position + seen + 1) rest).map
          (Char.ofNat (bits * 64 + n % 64) :: ·) := by
  have within : low ≤ UInt8.ofNat n ∧ UInt8.ofNat n ≤ high := by
    rw [UInt8.le_iff_toNat_le, UInt8.le_iff_toNat_le, toNat_byte small]
    exact ⟨above, below⟩
  rw [decodeFrom, if_pos within, toNat_byte small]
  rfl

end

/-! ### First bytes -/

theorem ofLead?_two {n : Nat} (above : 2 ≤ n) (below : n < 32) :
    State.ofLead? (UInt8.ofNat (n + 192)) = some (.inside 0 1 0x80 0xBF n) := by
  have byte := toNat_byte (n := n + 192) (by omega)
  have first : 0xC2 ≤ UInt8.ofNat (n + 192) ∧ UInt8.ofNat (n + 192) ≤ 0xDF := by
    rw [UInt8.le_iff_toNat_le, UInt8.le_iff_toNat_le, byte]
    exact ⟨by simp; omega, by simp; omega⟩
  rw [State.ofLead?, if_pos first, byte]
  congr
  omega

/-- The second of three bytes has bounds of its own where the form would be too
long for the character, or the character a surrogate. -/
theorem ofLead?_three : ∀ n < 16, State.ofLead? (UInt8.ofNat (n + 224))
    = some (.inside 1 1 (if n = 0 then 0xA0 else 0x80)
      (if n = 13 then 0x9F else 0xBF) n) := by
  decide

/-- The second of four bytes has bounds of its own where the form would be too
long for the character, or the character out of range. -/
theorem ofLead?_four : ∀ n < 5, State.ofLead? (UInt8.ofNat (n + 240))
    = some (.inside 2 1 (if n = 0 then 0x90 else 0x80)
      (if n = 4 then 0x8F else 0xBF) n) := by
  decide

/-- Only a character of one byte starts with a small byte. -/
theorem not_lt_of_le {n : Nat} (above : 128 ≤ n) (small : n < 256) :
    ¬ UInt8.ofNat n < 0x80 := by
  rw [UInt8.lt_iff_toNat_lt, toNat_byte small]
  exact Nat.not_lt.mpr above

/-! ### One character -/

/-- A character is read back from its bytes, whatever follows them. -/
@[simp]
theorem decodeFrom_utf8EncodeChar (c : Char) (position : Nat)
    (rest : List UInt8) :
    decodeFrom .between position (String.utf8EncodeChar c ++ rest)
      = (decodeFrom .between (position + c.utf8Size) rest).map (c :: ·) := by
  have whole : Char.ofNat c.val.toNat = c := c.ofNat_toNat
  have valid : c.val.toNat < 0xD800 ∨ 0xDFFF < c.val.toNat ∧
      c.val.toNat < 0x110000 := c.valid
  have size : c.utf8Size = (String.utf8EncodeChar c).length :=
    (String.length_utf8EncodeChar c).symm
  rw [size, String.utf8EncodeChar]
  generalize c.val.toNat = v at whole valid
  split
  -- One byte is the character's number.
  · next one =>
    have byte := toNat_byte (n := v) (by omega)
    have small : UInt8.ofNat v < 0x80 := by
      rw [UInt8.lt_iff_toNat_lt, byte]
      exact Nat.lt_succ_of_le one
    rw [List.singleton_append, decodeFrom, if_pos small, byte, whole]
    rfl
  split
  · next above below =>
    have lead := ofLead?_two (n := v / 64 % 32) (by omega) (by omega)
    simp only [List.cons_append, List.nil_append]
    rw [decodeFrom_lead (not_lt_of_le (by omega) (by omega)) lead,
      decodeFrom_last (by omega) (by simp) (by simp; omega)]
    have bits : v / 64 % 32 * 64 + (v % 64 + 128) % 64 = v := by omega
    rw [bits, whole]
    rfl
  split
  · next above below =>
    have lead := ofLead?_three (v / 4096 % 16) (by omega)
    simp only [List.cons_append, List.nil_append]
    rw [decodeFrom_lead (not_lt_of_le (by omega) (by omega)) lead]
    -- A number above U+07FF that is no surrogate passes the bounds on the
    -- second byte.
    rw [decodeFrom_next (by omega) (by split <;> simp; omega)
      (by split <;> simp <;> omega),
      decodeFrom_last (by omega) (by simp) (by simp; omega)]
    have bits : (v / 4096 % 16 * 64 + (v / 64 % 64 + 128) % 64) * 64
        + (v % 64 + 128) % 64 = v := by
      omega
    rw [bits, whole]
    rfl
  · next above below =>
    have lead := ofLead?_four (v / 262144 % 8) (by omega)
    simp only [List.cons_append, List.nil_append]
    rw [decodeFrom_lead (not_lt_of_le (by omega) (by omega)) lead]
    -- A number above U+FFFF that is no greater than U+10FFFF passes the bounds
    -- on the second byte.
    rw [decodeFrom_next (by omega) (by split <;> simp; omega)
      (by split <;> simp <;> omega),
      decodeFrom_next (by omega) (by simp) (by simp; omega),
      decodeFrom_last (by omega) (by simp) (by simp; omega)]
    have bits : ((v / 262144 % 8 * 64 + (v / 4096 % 64 + 128) % 64) * 64
        + (v / 64 % 64 + 128) % 64)
        * 64 + (v % 64 + 128) % 64 = v := by
      omega
    rw [bits, whole]
    rfl

/-! ### Texts -/

@[simp]
theorem decodeFrom_flatMap (chars : List Char) (position : Nat) :
    decodeFrom .between position (chars.flatMap String.utf8EncodeChar)
      = .ok chars := by
  induction chars generalizing position with
  | nil => rw [List.flatMap_nil, decodeFrom]
  | cons c chars ih =>
    rw [List.flatMap_cons, decodeFrom_utf8EncodeChar, ih]
    rfl

/-- A text is read back from its bytes. -/
@[simp]
theorem decode_encode (text : String) : decode (encode text) = .ok text := by
  rw [decode, encode, decodeFrom_flatMap]
  show Except.ok (String.ofList text.toList) = _
  rw [String.ofList_toList]

/-- A byte of a character is zero only if the character is. -/
theorem zero_notMem_utf8EncodeChar {c : Char} (h : c ≠ '\x00') :
    0 ∉ String.utf8EncodeChar c := by
  have positive : c.val.toNat ≠ 0 := by
    intro zero
    apply h
    exact Char.ext (UInt32.toNat_inj.mp zero)
  have byte {n : Nat} (small : n < 256) (positive : n ≠ 0) :
      0 ≠ UInt8.ofNat n := by
    intro same
    have := congrArg UInt8.toNat same
    rw [toNat_byte small] at this
    exact positive this.symm
  intro zero
  rw [String.utf8EncodeChar] at zero
  generalize c.val.toNat = v at positive zero
  split at zero
  · rw [List.mem_singleton] at zero
    exact byte (by omega) positive zero
  -- In every longer form, all bytes are at least `80`.
  split at zero
  · simp only [List.mem_cons, List.not_mem_nil, or_false] at zero
    rcases zero with zero | zero
    all_goals exact byte (by omega) (by omega) zero
  split at zero
  · simp only [List.mem_cons, List.not_mem_nil, or_false] at zero
    rcases zero with zero | zero | zero
    all_goals exact byte (by omega) (by omega) zero
  · simp only [List.mem_cons, List.not_mem_nil, or_false] at zero
    rcases zero with zero | zero | zero | zero
    all_goals exact byte (by omega) (by omega) zero

/-- The bytes of a text without the character zero hold no zero. -/
theorem zero_notMem_encode {text : String} (h : '\x00' ∉ text.toList) :
    0 ∉ encode text := by
  rw [encode, List.mem_flatMap]
  rintro ⟨c, hc, zero⟩
  refine zero_notMem_utf8EncodeChar ?_ zero
  rintro rfl
  exact h hc

/-! ### Nothing else is read -/

theorem toNat_ofNat_char {n : Nat} (valid : n.isValidChar) :
    (Char.ofNat n).val.toNat = n := by
  rw [Char.ofNat, dif_pos valid]
  rfl

/-- The lead bytes of two, three and four bytes, and the bounds on the byte
behind them. -/
theorem ofLead?_ofNat : ∀ n < 256, State.ofLead? (UInt8.ofNat n) =
    if n < 0xC2 then none
    else if n < 0xE0 then some (.inside 0 1 0x80 0xBF (n % 32))
    else if n < 0xF0 then
      some (.inside 1 1 (if n % 16 = 0 then 0xA0 else 0x80)
        (if n % 16 = 13 then 0x9F else 0xBF) (n % 16))
    else if n < 0xF5 then
      some (.inside 2 1 (if n % 8 = 0 then 0x90 else 0x80)
        (if n % 8 = 4 then 0x8F else 0xBF) (n % 8))
    else none := by
  decide +kernel

section
variable {b c d e : UInt8}

theorem ofNat_eq_of_toNat {n : Nat} (h : n = b.toNat) : UInt8.ofNat n = b := by
  rw [h, UInt8.ofNat_toNat]

@[simp]
theorem utf8EncodeChar_one (small : b < 0x80) :
    String.utf8EncodeChar (Char.ofNat b.toNat) = [b] := by
  have bound : b.toNat < 128 := UInt8.lt_iff_toNat_lt.mp small
  have number := toNat_ofNat_char (n := b.toNat) (.inl (by omega))
  simp only [String.utf8EncodeChar, number]
  rw [if_pos (by omega), UInt8.ofNat_toNat]

theorem utf8EncodeChar_two (lead : 0xC2 ≤ b.toNat ∧ b.toNat < 0xE0)
    (second : 0x80 ≤ c.toNat ∧ c.toNat ≤ 0xBF) :
    String.utf8EncodeChar (Char.ofNat (b.toNat % 32 * 64 + c.toNat % 64))
      = [b, c] := by
  have number := toNat_ofNat_char (n := b.toNat % 32 * 64 + c.toNat % 64)
    (.inl (by omega))
  simp only [String.utf8EncodeChar, number]
  rw [if_neg (by omega), if_pos (by omega),
    ofNat_eq_of_toNat (b := b) (by omega),
    ofNat_eq_of_toNat (b := c) (by omega)]

/-- Three bytes within their bounds are those of a character above U+07FF that
is no surrogate. -/
theorem utf8EncodeChar_three (lead : 0xE0 ≤ b.toNat ∧ b.toNat < 0xF0)
    (second : (if b.toNat % 16 = 0 then 0xA0 else 0x80) ≤ c.toNat ∧
      c.toNat ≤ if b.toNat % 16 = 13 then 0x9F else 0xBF)
    (third : 0x80 ≤ d.toNat ∧ d.toNat ≤ 0xBF) :
    String.utf8EncodeChar
        (Char.ofNat ((b.toNat % 16 * 64 + c.toNat % 64) * 64 + d.toNat % 64))
          = [b, c, d] := by
  -- The bounds of the second byte rule out long forms and surrogates.
  have bounds : 0x80 ≤ c.toNat ∧ c.toNat ≤ 0xBF ∧
      (b.toNat % 16 = 0 → 0xA0 ≤ c.toNat) ∧
      (b.toNat % 16 = 13 → c.toNat ≤ 0x9F) := by
    obtain ⟨above, below⟩ := second
    split at above <;> split at below <;> omega
  have valid :
      ((b.toNat % 16 * 64 + c.toNat % 64) * 64 + d.toNat % 64).isValidChar := by
    show _ < 0xD800 ∨ 0xDFFF < _ ∧ _ < 0x110000
    omega
  simp only [String.utf8EncodeChar, toNat_ofNat_char valid]
  rw [if_neg (by omega), if_neg (by omega), if_pos (by omega),
    ofNat_eq_of_toNat (b := b) (by omega),
    ofNat_eq_of_toNat (b := c) (by omega),
    ofNat_eq_of_toNat (b := d) (by omega)]

/-- Four bytes within their bounds are those of a character above U+FFFF up to
U+10FFFF. -/
theorem utf8EncodeChar_four (lead : 0xF0 ≤ b.toNat ∧ b.toNat < 0xF5)
    (second : (if b.toNat % 8 = 0 then 0x90 else 0x80) ≤ c.toNat ∧
      c.toNat ≤ if b.toNat % 8 = 4 then 0x8F else 0xBF)
    (third : 0x80 ≤ d.toNat ∧ d.toNat ≤ 0xBF)
    (fourth : 0x80 ≤ e.toNat ∧ e.toNat ≤ 0xBF) :
    String.utf8EncodeChar (Char.ofNat
        (((b.toNat % 8 * 64 + c.toNat % 64) * 64 + d.toNat % 64) * 64
          + e.toNat % 64)) =
      [b, c, d, e] := by
  -- The bounds of the second byte rule out long forms and what is too large.
  have bounds : 0x80 ≤ c.toNat ∧ c.toNat ≤ 0xBF ∧
      (b.toNat % 8 = 0 → 0x90 ≤ c.toNat) ∧
      (b.toNat % 8 = 4 → c.toNat ≤ 0x8F) := by
    obtain ⟨above, below⟩ := second
    split at above <;> split at below <;> omega
  have valid : (((b.toNat % 8 * 64 + c.toNat % 64) * 64 + d.toNat % 64) * 64
      + e.toNat % 64).isValidChar := by
    show _ < 0xD800 ∨ 0xDFFF < _ ∧ _ < 0x110000
    omega
  simp only [String.utf8EncodeChar, toNat_ofNat_char valid]
  rw [if_neg (by omega), if_neg (by omega), if_neg (by omega),
    ofNat_eq_of_toNat (b := b) (by omega),
    ofNat_eq_of_toNat (b := c) (by omega),
    ofNat_eq_of_toNat (b := d) (by omega),
    ofNat_eq_of_toNat (b := e) (by omega)]

end

section
variable {position seen bits : Nat} {low high : UInt8} {bytes : List UInt8}
  {chars : List Char}

/-- Where one byte of a character is owed, it is there and within its bounds. -/
theorem exists_last
    (h : decodeFrom (.inside 0 seen low high bits) position bytes = .ok chars) :
    ∃ b rest others, bytes = b :: rest ∧
      (low.toNat ≤ b.toNat ∧ b.toNat ≤ high.toNat) ∧
      decodeFrom .between (position + seen + 1) rest = .ok others ∧
      chars = Char.ofNat (bits * 64 + b.toNat % 64) :: others := by
  cases bytes with
  | nil => cases h
  | cons b rest =>
    rw [decodeFrom] at h
    split at h
    · next within =>
      -- The byte is within its bounds, and the rest is read from its own
      -- beginning.
      rw [UInt8.le_iff_toNat_le, UInt8.le_iff_toNat_le] at within
      cases hrest : decodeFrom .between (position + seen + 1) rest with
      | error fault =>
        simp only [hrest] at h
        cases h
      | ok others =>
        simp only [hrest] at h
        cases h
        exact ⟨b, rest, others, rfl, within, hrest, rfl⟩
    · cases h

/-- Where more bytes of a character are owed, one is there and within its
bounds. -/
theorem exists_next {owed : Nat}
    (h : decodeFrom (.inside (owed + 1) seen low high bits) position bytes
      = .ok chars) :
    ∃ b rest, bytes = b :: rest ∧ (low.toNat ≤ b.toNat ∧ b.toNat ≤ high.toNat) ∧
      decodeFrom (.inside owed (seen + 1) 0x80 0xBF (bits * 64 + b.toNat % 64))
        position rest =
        .ok chars := by
  cases bytes with
  | nil => cases h
  | cons b rest =>
    rw [decodeFrom] at h
    split at h
    · next within =>
      rw [UInt8.le_iff_toNat_le, UInt8.le_iff_toNat_le] at within
      exact ⟨b, rest, rfl, within, h⟩
    · cases h

/-- A first byte is followed by those that are owed after it, and all of them
are those of the character that is read. -/
theorem exists_char_of_lead {b : UInt8} {state : State}
    (lead : State.ofLead? b = some state)
    (h : decodeFrom state position bytes = .ok chars) :
    ∃ c front rest next others, bytes = front ++ rest ∧
      String.utf8EncodeChar c = b :: front ∧
      decodeFrom .between next rest = .ok others ∧ chars = c :: others := by
  have leads := ofLead?_ofNat b.toNat b.toNat_lt
  rw [UInt8.ofNat_toNat, lead] at leads
  split at leads
  · cases leads
  split at leads
  · next above below =>
    -- Two bytes.
    obtain rfl := Option.some.inj leads
    obtain ⟨c, rest, others, rfl, second, hrest, rfl⟩ := exists_last h
    exact ⟨_, [c], rest, _, others, rfl,
      utf8EncodeChar_two ⟨by omega, below⟩ second, hrest, rfl⟩
  split at leads
  · next above below =>
    -- Three bytes.
    obtain rfl := Option.some.inj leads
    obtain ⟨c, _, rfl, second, h⟩ := exists_next h
    obtain ⟨d, rest, others, rfl, third, hrest, rfl⟩ := exists_last h
    rw [apply_ite UInt8.toNat, apply_ite UInt8.toNat] at second
    have written := utf8EncodeChar_three ⟨by omega, below⟩ second third
    exact ⟨_, [c, d], rest, _, others, rfl, written, hrest, rfl⟩
  split at leads
  · next above below =>
    -- Four bytes.
    obtain rfl := Option.some.inj leads
    obtain ⟨c, _, rfl, second, h⟩ := exists_next h
    obtain ⟨d, _, rfl, third, h⟩ := exists_next h
    obtain ⟨e, rest, others, rfl, fourth, hrest, rfl⟩ := exists_last h
    rw [apply_ite UInt8.toNat, apply_ite UInt8.toNat] at second
    have written := utf8EncodeChar_four ⟨by omega, below⟩ second third fourth
    exact ⟨_, [c, d, e], rest, _, others, rfl, written, hrest, rfl⟩
  · cases leads

end

/-- What is read between characters was written of them.  The induction is on
the number of bytes: one to four of them are those of the first character. -/
theorem flatMap_of_decodeFrom {length position : Nat} {bytes : List UInt8}
    {chars : List Char} (hlength : bytes.length ≤ length)
    (h : decodeFrom .between position bytes = .ok chars) :
    chars.flatMap String.utf8EncodeChar = bytes := by
  induction length generalizing position bytes chars with
  | zero =>
    obtain rfl := List.length_eq_zero_iff.mp (Nat.le_zero.mp hlength)
    cases h
    rfl
  | succ length ih =>
    cases bytes with
    | nil =>
      cases h
      rfl
    | cons b bytes =>
      rw [decodeFrom] at h
      split at h
      · -- One byte.
        next small =>
        cases hrest : decodeFrom .between (position + 1) bytes with
        | error fault =>
          simp only [hrest] at h
          cases h
        | ok others =>
          simp only [hrest] at h
          cases h
          rw [List.flatMap_cons, utf8EncodeChar_one small,
            ih (Nat.le_of_succ_le_succ hlength) hrest]
          rfl
      · split at h
        · -- A byte that announces others.
          next state lead =>
          obtain ⟨c, front, rest, next, others, rfl, written, hrest, rfl⟩ :=
            exists_char_of_lead lead h
          rw [List.length_cons, List.length_append] at hlength
          rw [List.flatMap_cons, written, ih (by omega) hrest]
          rfl
        · cases h

/-- **Only what was written is read.**  Bytes that are read as a text are those
of the text. -/
theorem encode_of_decode {bytes : List UInt8} {text : String}
    (h : decode bytes = .ok text) :
    encode text = bytes := by
  rw [decode] at h
  cases hchars : decodeFrom .between 0 bytes with
  | error fault =>
    rw [hchars] at h
    cases h
  | ok chars =>
    rw [hchars] at h
    cases h
    rw [encode, String.toList_ofList]
    exact flatMap_of_decodeFrom (Nat.le_refl _) hchars

end CliMetadata.Utf8
