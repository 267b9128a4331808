import CliMetadata.CompressedInteger
import CliMetadata.Proofs.Decoder

/-!
# Compressed integers survive being written and read

`decode` reads every number up to the limit back from its bytes
(`takes_encode`), and any other one without the bits above the limit
(`takes_encode_mod`).  Whatever bytes it reads stand for a number up to the
limit, and `encode` writes the number in no more bytes (`yields_decode`).  So
the bytes of several numbers can be written one behind the other
(`isPrefixCode`).
-/

namespace CliMetadata.CompressedInteger

open Decoder

/-! ### The first byte -/

/-- The high bits of a first byte as a range, and its low bits as a
remainder. -/
theorem lead_bits : ∀ n < 256,
    (n &&& 0x80 = 0 ↔ n < 128) ∧ (n &&& 0xC0 = 0x80 ↔ 128 ≤ n ∧ n < 192) ∧
      (n &&& 0xE0 = 0xC0 ↔ 192 ≤ n ∧ n < 224) ∧ n &&& 0x3F = n % 64 ∧
      n &&& 0x1F = n % 32 := by
  decide +kernel

variable (b : UInt8)

@[simp]
theorem and_80_eq_zero_iff : b &&& 0x80 = 0 ↔ b.toNat < 128 := by
  rw [← UInt8.toNat_inj, UInt8.toNat_and]
  exact (lead_bits _ b.toNat_lt).1

@[simp]
theorem and_c0_eq_80_iff :
    b &&& 0xC0 = 0x80 ↔ 128 ≤ b.toNat ∧ b.toNat < 192 := by
  rw [← UInt8.toNat_inj, UInt8.toNat_and]
  exact (lead_bits _ b.toNat_lt).2.1

@[simp]
theorem and_e0_eq_c0_iff :
    b &&& 0xE0 = 0xC0 ↔ 192 ≤ b.toNat ∧ b.toNat < 224 := by
  rw [← UInt8.toNat_inj, UInt8.toNat_and]
  exact (lead_bits _ b.toNat_lt).2.2.1

theorem toNat_and_3f : (b.toUInt32 &&& 0x3F).toNat = b.toNat % 64 := by
  rw [UInt32.toNat_and, UInt8.toNat_toUInt32]
  exact (lead_bits _ b.toNat_lt).2.2.2.1

theorem toNat_and_1f : (b.toUInt32 &&& 0x1F).toNat = b.toNat % 32 := by
  rw [UInt32.toNat_and, UInt8.toNat_toUInt32]
  exact (lead_bits _ b.toNat_lt).2.2.2.2

/-! ### Numbers put together from bytes -/

/-- Bits that do not overlap add up. -/
theorem mul_or_eq_add {i low : Nat} (h : low < 2 ^ i) (high : Nat) :
    (high * 2 ^ i) ||| low = high * 2 ^ i + low := by
  rw [Nat.mul_comm, Nat.two_pow_add_eq_or_of_lt h]

variable {b} {c d e : UInt8}

/-- The number of two bytes. -/
theorem toNat_two :
    (((b.toUInt32 &&& 0x3F) <<< 8) ||| c.toUInt32).toNat
      = b.toNat % 64 * 256 + c.toNat := by
  have hc := c.toNat_lt
  have high : ((b.toUInt32 &&& 0x3F) <<< 8).toNat = b.toNat % 64 * 2 ^ 8 := by
    rw [UInt32.toNat_shiftLeft, toNat_and_3f]
    simp only [UInt32.reduceToNat, Nat.reduceMod, Nat.shiftLeft_eq]
    omega
  rw [UInt32.toNat_or, high, UInt8.toNat_toUInt32]
  exact (mul_or_eq_add hc _).trans (by omega)

/-- The number of four bytes. -/
theorem toNat_four :
    (((b.toUInt32 &&& 0x1F) <<< 24) ||| (c.toUInt32 <<< 16) |||
      (d.toUInt32 <<< 8)
        ||| e.toUInt32).toNat =
      ((b.toNat % 32 * 256 + c.toNat) * 256 + d.toNat) * 256 + e.toNat := by
  have hc := c.toNat_lt
  have hd := d.toNat_lt
  have he := e.toNat_lt
  have first :
      ((b.toUInt32 &&& 0x1F) <<< 24).toNat = b.toNat % 32 * 2 ^ 24 := by
    rw [UInt32.toNat_shiftLeft, toNat_and_1f]
    simp only [UInt32.reduceToNat, Nat.reduceMod, Nat.shiftLeft_eq]
    omega
  have second : (c.toUInt32 <<< 16).toNat = c.toNat * 2 ^ 16 := by
    rw [UInt32.toNat_shiftLeft, UInt8.toNat_toUInt32]
    simp only [UInt32.reduceToNat, Nat.reduceMod, Nat.shiftLeft_eq]
    omega
  have third : (d.toUInt32 <<< 8).toNat = d.toNat * 2 ^ 8 := by
    rw [UInt32.toNat_shiftLeft, UInt8.toNat_toUInt32]
    simp only [UInt32.reduceToNat, Nat.reduceMod, Nat.shiftLeft_eq]
    omega
  rw [UInt32.toNat_or, UInt32.toNat_or, UInt32.toNat_or, first, second, third,
    UInt8.toNat_toUInt32]
  -- each byte in turn lies below the bits of those before it
  rw [mul_or_eq_add (by omega),
    show b.toNat % 32 * 2 ^ 24 + c.toNat * 2 ^ 16
        = (b.toNat % 32 * 256 + c.toNat) * 2 ^ 16 by omega,
    mul_or_eq_add (by omega),
    show (b.toNat % 32 * 256 + c.toNat) * 2 ^ 16 + d.toNat * 2 ^ 8 =
      ((b.toNat % 32 * 256 + c.toNat) * 256 + d.toNat) * 2 ^ 8 by omega]
  exact (mul_or_eq_add he _).trans (by omega)

/-! ### Reading the three forms -/

@[simp]
theorem run_decode_one (h : b.toNat < 128) (rest : List UInt8) :
    decode.run (b :: rest) = .ok (b.toUInt32, rest) := by
  rw [decode, run_bind_eq_ok]
  refine ⟨b, rest, rfl, ?_⟩
  rw [if_pos ((and_80_eq_zero_iff b).mpr h)]
  rfl

theorem run_decode_two (h : 128 ≤ b.toNat) (h' : b.toNat < 192)
    (bytes : List UInt8) :
    decode.run (b :: bytes) =
      (do
        let low ← byte
        return ((b.toUInt32 &&& 0x3F) <<< 8) ||| low.toUInt32 :
          Decoder UInt32).run bytes := by
  have hb : ¬ b &&& 0x80 = 0 := by
    rw [and_80_eq_zero_iff]
    omega
  show (if b &&& 0x80 = 0 then _ else _ : Decoder UInt32).run bytes = _
  simp [hb, (and_c0_eq_80_iff b).mpr ⟨h, h'⟩]

theorem run_decode_four (h : 192 ≤ b.toNat) (h' : b.toNat < 224)
    (bytes : List UInt8) :
    decode.run (b :: bytes) =
      (do
        let b₁ ← byte
        let b₂ ← byte
        let b₃ ← byte
        return ((b.toUInt32 &&& 0x1F) <<< 24) ||| (b₁.toUInt32 <<< 16) |||
          (b₂.toUInt32 <<< 8)
          ||| b₃.toUInt32 : Decoder UInt32).run bytes := by
  -- The first byte announces neither one byte nor two.
  have hb : ¬ b &&& 0x80 = 0 := by
    rw [and_80_eq_zero_iff]
    omega
  have hb' : ¬ b &&& 0xC0 = 0x80 := by
    rw [and_c0_eq_80_iff]
    omega
  show (if b &&& 0x80 = 0 then _ else _ : Decoder UInt32).run bytes = _
  simp [hb, hb', (and_e0_eq_c0_iff b).mpr ⟨h, h'⟩]

@[simp]
theorem run_decode_malformed (h : 224 ≤ b.toNat) (bytes : List UInt8) :
    decode.run (b :: bytes) = .error (.malformed (.compressedInteger b)) := by
  have hb : ¬ b &&& 0x80 = 0 := by
    rw [and_80_eq_zero_iff]
    omega
  have hb' : ¬ b &&& 0xC0 = 0x80 := by
    rw [and_c0_eq_80_iff]
    omega
  have hb'' : ¬ b &&& 0xE0 = 0xC0 := by
    rw [and_e0_eq_c0_iff]
    omega
  show (if b &&& 0x80 = 0 then _ else _ : Decoder UInt32).run bytes = _
  rw [if_neg hb, if_neg hb', if_neg hb'']
  rfl

/-! ### Writing -/

theorem encode_one {value : UInt32} (h : value.toNat < 2 ^ 7) :
    encode value = [value.toUInt8] := by
  have : value ≤ 0x7F := UInt32.le_iff_toNat_le.mpr (Nat.le_of_lt_succ h)
  simp [encode, this]

theorem encode_two {value : UInt32} (h : 2 ^ 7 ≤ value.toNat)
    (h' : value.toNat < 2 ^ 14) :
    encode value = [(0x80 : UInt8) ||| (value >>> 8).toUInt8,
      value.toUInt8] := by
  have short : ¬ value ≤ 0x7F := fun hle =>
    absurd (UInt32.le_iff_toNat_le.mp hle) (Nat.not_le.mpr h)
  have long : value ≤ 0x3FFF := UInt32.le_iff_toNat_le.mpr
    (Nat.le_of_lt_succ h')
  simp [encode, short, long]

theorem encode_four {value : UInt32} (h : 2 ^ 14 ≤ value.toNat) :
    encode value = [(0xC0 : UInt8) ||| ((value >>> 24).toUInt8 &&& 0x1F),
      (value >>> 16).toUInt8, (value >>> 8).toUInt8, value.toUInt8] := by
  have short : ¬ value ≤ 0x7F := fun hle =>
    absurd (UInt32.le_iff_toNat_le.mp hle)
      (Nat.not_le.mpr (Nat.lt_of_lt_of_le (by decide) h))
  have long : ¬ value ≤ 0x3FFF := fun hle =>
    absurd (UInt32.le_iff_toNat_le.mp hle) (Nat.not_le.mpr h)
  simp [encode, short, long]

/-- A number is written in the fewest bytes that have room for it. -/
@[simp]
theorem length_encode (value : UInt32) :
    (encode value).length =
      if value.toNat < 2 ^ 7 then 1 else if value.toNat
        < 2 ^ 14 then 2 else 4 := by
  split
  · next h => rw [encode_one h]; rfl
  · next h =>
    split
    · next h' => rw [encode_two (by omega) h']; rfl
    · next h' => rw [encode_four (by omega)]; rfl

theorem encode_ne_nil (value : UInt32) : encode value ≠ [] := by
  rw [← List.length_pos_iff, length_encode]
  split
  · decide
  · split <;> decide

/-! ### The bytes of a number as numbers -/

/-- The byte that starts at a place of a number. -/
theorem toNat_byteAt (value place : UInt32) (h : place.toNat < 32) :
    (value >>> place).toUInt8.toNat = value.toNat / 2 ^ place.toNat % 256 := by
  rw [UInt32.toNat_toUInt8, UInt32.toNat_shiftRight, Nat.mod_eq_of_lt h,
    Nat.shiftRight_eq_div_pow]

theorem toNat_80_or {low : UInt8} (h : low.toNat < 64) :
    ((0x80 : UInt8) ||| low).toNat = 128 + low.toNat := by
  rw [UInt8.toNat_or]
  exact mul_or_eq_add (i := 6) h 2

theorem toNat_c0_or_and (low : UInt8) :
    ((0xC0 : UInt8) ||| (low &&& 0x1F)).toNat = 192 + low.toNat % 32 := by
  have bits : (low &&& 0x1F).toNat = low.toNat % 32 := by
    rw [UInt8.toNat_and]
    exact (lead_bits _ low.toNat_lt).2.2.2.2
  rw [UInt8.toNat_or, bits]
  exact mul_or_eq_add (i := 6) (by omega) 3

/-! ### A number is read back -/

variable {value : UInt32}

theorem takes_encode_one (h : value.toNat < 2 ^ 7) :
    Takes decode (encode value) value := by
  have low : value.toUInt8.toNat = value.toNat := by
    rw [UInt32.toNat_toUInt8]
    omega
  have same : value.toUInt8.toUInt32 = value := by
    rw [← UInt32.toNat_inj, UInt8.toNat_toUInt32, low]
  intro rest
  rw [encode_one h, List.singleton_append, run_decode_one (by omega), same]

theorem takes_encode_two (h : 2 ^ 7 ≤ value.toNat) (h' : value.toNat < 2 ^ 14) :
    Takes decode (encode value) value := by
  have second := toNat_byteAt value 8 (by decide)
  have low := UInt32.toNat_toUInt8 value
  rw [show (8 : UInt32).toNat = 8 from rfl] at second
  have lead := @toNat_80_or (value >>> 8).toUInt8 (by omega)
  have same :
      ((((0x80 : UInt8) ||| (value >>> 8).toUInt8).toUInt32 &&& 0x3F) <<< 8) |||
        value.toUInt8.toUInt32 = value := by
    rw [← UInt32.toNat_inj, toNat_two]
    omega
  intro rest
  rw [encode_two h h', List.cons_append, run_decode_two (by omega) (by omega)]
  exact congrArg (fun v => Except.ok (v, rest)) same

/-- Four bytes have room for 29 bits, and what is above these is lost. -/
theorem takes_encode_four (h : 2 ^ 14 ≤ value.toNat) :
    Takes decode (encode value) (UInt32.ofNat (value.toNat % 2 ^ 29)) := by
  have fourth := toNat_byteAt value 24 (by decide)
  have third := toNat_byteAt value 16 (by decide)
  have second := toNat_byteAt value 8 (by decide)
  have low := UInt32.toNat_toUInt8 value
  rw [show (24 : UInt32).toNat = 24 from rfl] at fourth
  rw [show (16 : UInt32).toNat = 16 from rfl] at third
  rw [show (8 : UInt32).toNat = 8 from rfl] at second
  have lead := toNat_c0_or_and (value >>> 24).toUInt8
  -- The marks on the first byte are cut off, and the four bytes make the number
  -- again.
  have same :
      ((((0xC0 : UInt8) ||| ((value >>> 24).toUInt8 &&& 0x1F)).toUInt32 &&&
        0x1F) <<< 24)
      ||| ((value >>> 16).toUInt8.toUInt32 <<< 16) |||
        ((value >>> 8).toUInt8.toUInt32 <<< 8)
      ||| value.toUInt8.toUInt32 = UInt32.ofNat (value.toNat % 2 ^ 29) := by
    rw [← UInt32.toNat_inj, toNat_four, UInt32.toNat_ofNat']
    omega
  intro rest
  rw [encode_four h, List.cons_append, run_decode_four (by omega) (by omega)]
  exact congrArg (fun v => Except.ok (v, rest)) same

theorem ofNat_mod_of_lt (h : value.toNat < 2 ^ 29) :
    UInt32.ofNat (value.toNat % 2 ^ 29) = value := by
  rw [Nat.mod_eq_of_lt h, UInt32.ofNat_toNat]

/-- Any number is read back, but for the bits that have no room. -/
theorem takes_encode_mod (value : UInt32) :
    Takes decode (encode value) (UInt32.ofNat (value.toNat % 2 ^ 29)) := by
  by_cases four : 2 ^ 14 ≤ value.toNat
  · exact takes_encode_four four
  rw [ofNat_mod_of_lt (by omega)]
  by_cases one : value.toNat < 2 ^ 7
  · exact takes_encode_one one
  · exact takes_encode_two (Nat.not_lt.mp one) (Nat.not_le.mp four)

/-- A number up to the limit is read back from its bytes. -/
theorem takes_encode (h : value ≤ limit) :
    Takes decode (encode value) value := by
  have bound : value.toNat < 2 ^ 29 :=
    Nat.lt_succ_of_le (UInt32.le_iff_toNat_le.mp h)
  have taken := takes_encode_mod value
  rwa [ofNat_mod_of_lt bound] at taken

/-! ### What is read was written as short as can be -/

theorem le_limit_of_toNat_lt (h : value.toNat < 2 ^ 29) : value ≤ limit :=
  UInt32.le_iff_toNat_le.mpr (Nat.le_of_lt_succ h)

/-- A number that is read is within the limit, and would be written in no more
bytes. -/
theorem yields_decode :
    Yields decode fun front value => value ≤ limit ∧
      (encode value).length ≤ front.length := by
  intro bytes value rest h
  cases bytes with
  | nil => cases h
  | cons b tail =>
    -- The first byte tells how many there are.
    by_cases one : b.toNat < 128
    · rw [run_decode_one one] at h
      cases h
      have bound : b.toUInt32.toNat < 2 ^ 7 := by rwa [UInt8.toNat_toUInt32]
      refine ⟨[b], rfl, le_limit_of_toNat_lt (by omega), ?_⟩
      rw [encode_one bound]
      exact Nat.le_refl 1
    by_cases two : b.toNat < 192
    · rw [run_decode_two (Nat.not_lt.mp one) two] at h
      obtain ⟨c, _, hc, ha⟩ := run_bind_eq_ok.mp h
      obtain rfl := run_byte_eq_ok.mp hc
      cases ha
      have bound := toNat_two (b := b) (c := c)
      have hc := c.toNat_lt
      refine ⟨[b, c], rfl, le_limit_of_toNat_lt (by omega), ?_⟩
      rw [length_encode, List.length_cons, List.length_singleton]
      split
      · decide
      · exact Nat.le_of_eq (if_pos (by omega))
    by_cases four : b.toNat < 224
    · rw [run_decode_four (Nat.not_lt.mp two) four] at h
      obtain ⟨c, _, hc, h₁⟩ := run_bind_eq_ok.mp h
      obtain ⟨d, _, hd, h₂⟩ := run_bind_eq_ok.mp h₁
      obtain ⟨e, _, he, h₃⟩ := run_bind_eq_ok.mp h₂
      obtain rfl := run_byte_eq_ok.mp hc
      obtain rfl := run_byte_eq_ok.mp hd
      obtain rfl := run_byte_eq_ok.mp he
      cases h₃
      have bound := toNat_four (b := b) (c := c) (d := d) (e := e)
      have hc := c.toNat_lt
      have hd := d.toNat_lt
      have he := e.toNat_lt
      refine ⟨[b, c, d, e], rfl, le_limit_of_toNat_lt (by omega), ?_⟩
      rw [length_encode]
      split
      · exact Nat.succ_le_succ (Nat.zero_le 3)
      · split
        · exact Nat.le_add_right 2 2
        · exact Nat.le_refl 4
    · rw [run_decode_malformed (Nat.not_lt.mp four)] at h
      cases h

/-! ### Numbers one behind the other -/

/-- Written numbers need nothing between them: as many as were written are read
back in order, each modulo `2 ^ 29`, and what follows them is left.  Whatever
bytes are read as a number, the number is below that bound and is written in no
more bytes. -/
theorem isPrefixCode (values : List UInt32) (trailing bytes : List UInt8) :
    (times decode values.length).run (values.flatMap encode ++ trailing)
        = .ok (values.map fun value => UInt32.ofNat (value.toNat % 2 ^ 29),
          trailing) ∧
      ∀ value rest, decode.run bytes = .ok (value, rest) →
        value.toNat < 2 ^ 29 ∧
          ∃ front, bytes = front ++ rest ∧
            (encode value).length ≤ front.length := by
  constructor
  · exact Takes.times_map values
      (fun value _ => takes_encode_mod value) trailing
  · intro value rest read
    obtain ⟨front, taken, bound, short⟩ := yields_decode bytes value rest read
    exact ⟨Nat.lt_succ_of_le (UInt32.le_iff_toNat_le.mp bound), front,
      taken, short⟩

/-- The last number that has room in each number of bytes, the first that has
not, and a number in more bytes than it takes to write. -/
theorem edges_isPrefixCode :
    (times decode 5).run
      ([0x7F, 0x80, 0x3FFF, 0x4000, 0x2000002A].flatMap encode ++ [0xE0])
        = .ok ([0x7F, 0x80, 0x3FFF, 0x4000, 0x2A], [0xE0]) ∧
      decode.run [0xC0, 0x00, 0x00, 0x01, 0xE0] = .ok (1, [0xE0]) ∧
        ∃ front, ([0xC0, 0x00, 0x00, 0x01, 0xE0] : List UInt8)
          = front ++ [0xE0] ∧
          (encode 1).length ≤ front.length := by
  have read : decode.run [0xC0, 0x00, 0x00, 0x01, 0xE0] = .ok (1, [0xE0]) := rfl
  obtain ⟨inOrder, short⟩ :=
    isPrefixCode [0x7F, 0x80, 0x3FFF, 0x4000, 0x2000002A] [0xE0]
      [0xC0, 0x00, 0x00, 0x01, 0xE0]
  exact ⟨inOrder, read, (short 1 [0xE0] read).2⟩

end CliMetadata.CompressedInteger
