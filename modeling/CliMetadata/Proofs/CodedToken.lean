import CliMetadata.CodedToken
import CliMetadata.Proofs.CompressedInteger

/-!
# Coded tokens survive being written and read

A type token is the byte of its table and 24 bits of row number, so that its
coded form is below `rowBound` and is read back as the token
(`takes_encodeBytes`).  The decoder also reads larger numbers, for rows that no
token has; `decodeBelow` is the decoder that stops at these, and what it reads
is written again in no more bytes (`yields_decodeBelow`).

The bound is sharp.  From it on the row runs over into the byte of the table, so
that the token lies in another table, has another row and is written as another
number (`exact_iff_of_decode`).
-/

namespace CliMetadata

/-- The token lies in one of the tables that have a coded form. -/
def Token.NamesType (token : Token) : Prop :=
  token.isIn .typeDef ∨ token.isIn .typeRef ∨ token.isIn .typeSpec

instance (token : Token) : Decidable token.NamesType := by
  unfold Token.NamesType
  infer_instance

namespace Token

theorem kind?_of_isIn {token : Token} {kind : TableKind} (h : token.isIn kind) :
    token.kind? = some kind := by
  rw [kind?, show token.table = kind.code from beq_iff_eq.mp h,
    TableKind.ofCode?_code]

theorem isIn_of_kind? {token : Token} {kind : TableKind}
    (h : token.kind? = some kind) :
    token.isIn kind :=
  beq_iff_eq.mpr (TableKind.code_of_ofCode? h).symm

theorem toNat_row (token : Token) :
    token.row.toNat = token.value.toNat % 2 ^ 24 := by
  rw [row, UInt32.toNat_and]
  exact Nat.and_two_pow_sub_one_eq_mod token.value.toNat 24

@[simp]
theorem toNat_table (token : Token) :
    token.table.toNat = token.value.toNat / 2 ^ 24 := by
  have := token.value.toNat_lt
  rw [table, UInt32.toNat_toUInt8, UInt32.toNat_shiftRight]
  simp only [UInt32.reduceToNat, Nat.reduceMod, Nat.shiftRight_eq_div_pow]
  omega

/-- A number that starts with a table's byte is a token of the table. -/
theorem toNat_ofTable (code : UInt8) {row : UInt32} (h : row.toNat < 2 ^ 24) :
    ((code.toUInt32 <<< 24) + row).toNat = code.toNat * 2 ^ 24 + row.toNat := by
  have := code.toNat_lt
  rw [UInt32.toNat_add, UInt32.toNat_shiftLeft, UInt8.toNat_toUInt32]
  simp only [UInt32.reduceToNat, Nat.reduceMod, Nat.shiftLeft_eq]
  omega

/-- A token is put together from its table's byte and its row. -/
@[simp]
theorem eq_table_row (token : Token) :
    (⟨(token.table.toUInt32 <<< 24) + token.row⟩ : Token) = token := by
  have hrow := token.toNat_row
  have htable := token.toNat_table
  rw [Token.mk.injEq, ← UInt32.toNat_inj, toNat_ofTable _ (by omega)]
  omega

@[simp]
theorem table_ofTable (code : UInt8) {row : UInt32} (h : row.toNat < 2 ^ 24) :
    (⟨(code.toUInt32 <<< 24) + row⟩ : Token).table = code := by
  rw [← UInt8.toNat_inj, toNat_table, toNat_ofTable code h]
  omega

theorem row_ofTable (code : UInt8) {row : UInt32} (h : row.toNat < 2 ^ 24) :
    (⟨(code.toUInt32 <<< 24) + row⟩ : Token).row = row := by
  rw [← UInt32.toNat_inj, toNat_row, toNat_ofTable code h]
  omega

end Token

namespace CodedToken

open Decoder

/-- The coded forms of tokens are the numbers below this one. -/
def rowBound : UInt32 := 0x04000000

/-- Takes a type token whose coded form is below a bound. -/
def decodeBelow (bound : UInt32) : Decoder Token := do
  let coded ← CompressedInteger.decode
  if coded < bound then ofCoded coded else Decoder.malformed (.codedToken coded)

theorem refines_decodeBelow (bound : UInt32) :
    Refines (decodeBelow bound) decode := by
  refine (Refines.rfl _).bind fun coded => ?_
  split
  · exact Refines.rfl _
  · intro bytes result h
    cases h

/-! ### Coded forms as numbers -/

/-- The number in the low two bits for each table that has a coded form. -/
def tag? : TableKind → Option UInt32
  | .typeDef => some 0
  | .typeRef => some 1
  | .typeSpec => some 2
  | _ => none

theorem encode_of_tag {token : Token} {kind : TableKind} {tag : UInt32}
    (h : tag? kind = some tag) (hk : token.kind? = some kind) :
    encode token = .ok ((token.row <<< 2) ||| tag) := by
  rw [encode, hk]
  cases kind <;> simp only [tag?, reduceCtorEq, Option.some.injEq]
    at h <;> subst h <;> simp

theorem exists_tag {token : Token} (h : token.NamesType) :
    ∃ kind tag, token.isIn kind ∧ tag? kind = some tag := by
  rcases h with h | h | h
  exacts [⟨_, _, h, rfl⟩, ⟨_, _, h, rfl⟩, ⟨_, _, h, rfl⟩]

theorem tag_lt {kind : TableKind} {tag : UInt32} (h : tag? kind = some tag) :
    tag.toNat < 3 := by
  cases kind <;> simp only [tag?, reduceCtorEq, Option.some.injEq]
    at h <;> subst h <;> decide

theorem toNat_coded {row tag : UInt32} (hr : row.toNat < 2 ^ 24)
    (ht : tag.toNat < 3) :
    ((row <<< 2) ||| tag).toNat = row.toNat * 4 + tag.toNat := by
  have shifted : (row <<< 2).toNat = row.toNat * 2 ^ 2 := by
    rw [UInt32.toNat_shiftLeft]
    simp only [UInt32.reduceToNat, Nat.reduceMod, Nat.shiftLeft_eq]
    omega
  rw [UInt32.toNat_or, shifted]
  exact (CompressedInteger.mul_or_eq_add (by omega) _).trans (by omega)

theorem toNat_low (coded : UInt32) : (coded &&& 3).toNat = coded.toNat % 4 := by
  rw [UInt32.toNat_and]
  exact Nat.and_two_pow_sub_one_eq_mod coded.toNat 2

theorem toNat_high (coded : UInt32) :
    (coded >>> 2).toNat = coded.toNat / 4 := by
  rw [UInt32.toNat_shiftRight]
  simp [Nat.shiftRight_eq_div_pow]

theorem tableOf?_of_tag {coded tag : UInt32} {kind : TableKind}
    (ht : tag? kind = some tag) (hc : coded.toNat % 4 = tag.toNat) :
    tableOf? coded = some kind := by
  rw [tableOf?, toNat_low, hc]
  cases kind <;> simp only [tag?, reduceCtorEq, Option.some.injEq]
    at ht <;> subst ht <;> rfl

theorem exists_tag_of_tableOf? {coded : UInt32} {kind : TableKind}
    (h : tableOf? coded = some kind) :
    ∃ tag, tag? kind = some tag ∧ coded.toNat % 4 = tag.toNat := by
  rw [tableOf?, toNat_low] at h
  split at h
  · next hc => cases h; exact ⟨0, rfl, hc⟩
  · next hc => cases h; exact ⟨1, rfl, hc⟩
  · next hc => cases h; exact ⟨2, rfl, hc⟩
  · cases h

/-! ### What a coded form stands for -/

/-- The token that a number is read as where its low two bits select a table. -/
def tokenOf (kind : TableKind) (coded : UInt32) : Token :=
  ⟨(kind.code.toUInt32 <<< 24) + (coded >>> 2)⟩

section
variable {coded : UInt32} {kind : TableKind}

/-- Below the bound the row has 24 bits. -/
theorem toNat_high_lt_iff :
    (coded >>> 2).toNat < 2 ^ 24 ↔ coded < rowBound := by
  rw [toNat_high, UInt32.lt_iff_toNat_lt, show rowBound.toNat = 2 ^ 26 from rfl]
  omega

@[simp]
theorem row_tokenOf_iff :
    (tokenOf kind coded).row = coded >>> 2 ↔ coded < rowBound := by
  rw [← toNat_high_lt_iff]
  constructor
  · intro same
    rw [← same, Token.toNat_row]
    exact Nat.mod_lt _ (by decide)
  · intro below
    exact Token.row_ofTable kind.code below

/-- A number that some token is written as is below the bound. -/
theorem lt_rowBound_of_encode {token : Token} (h : encode token = .ok coded) :
    coded < rowBound := by
  have hrow : token.row.toNat < 2 ^ 24 := by
    rw [Token.toNat_row]
    exact Nat.mod_lt _ (by decide)
  -- Rows have 24 bits and tags two, so that codes have 26.
  have below {tag : UInt32} (htag : tag.toNat < 3) :
      token.row <<< 2 ||| tag < rowBound := by
    rw [UInt32.lt_iff_toNat_lt, toNat_coded hrow htag,
      show rowBound.toNat = 2 ^ 26 from rfl]
    omega
  rw [encode] at h
  split at h
  · cases h
    rw [← UInt32.or_zero (a := token.row <<< 2)]
    exact below (by decide)
  · cases h
    exact below (by decide)
  · cases h
    exact below (by decide)
  · cases h

variable (selects : tableOf? coded = some kind)
include selects

/-- What the row has in more than 24 bits is added to the byte of the table. -/
theorem toNat_table_tokenOf (within : coded ≤ CompressedInteger.limit) :
    (tokenOf kind coded).table.toNat
      = kind.code.toNat + coded.toNat / 2 ^ 26 := by
  have small : kind.code.toNat < 2 ^ 5 := by
    obtain ⟨tag, htag, -⟩ := exists_tag_of_tableOf? selects
    cases kind <;> first
      | decide
      | cases htag
  have bound : coded.toNat < 2 ^ 29 :=
    Nat.lt_succ_of_le (UInt32.le_iff_toNat_le.mp within)
  rw [tokenOf, Token.toNat_table, UInt32.toNat_add, UInt32.toNat_shiftLeft,
    UInt8.toNat_toUInt32, toNat_high]
  simp only [UInt32.reduceToNat, Nat.reduceMod, Nat.shiftLeft_eq]
  omega

theorem isIn_tokenOf_iff (within : coded ≤ CompressedInteger.limit) :
    (tokenOf kind coded).isIn kind ↔ coded < rowBound := by
  have table := toNat_table_tokenOf selects within
  rw [Token.isIn, beq_iff_eq, ← UInt8.toNat_inj, table, UInt32.lt_iff_toNat_lt,
    show rowBound.toNat = 2 ^ 26 from rfl]
  omega

@[simp]
theorem encode_tokenOf_iff :
    encode (tokenOf kind coded) = .ok coded ↔ coded < rowBound := by
  refine ⟨lt_rowBound_of_encode, fun below => ?_⟩
  obtain ⟨tag, htag, hmod⟩ := exists_tag_of_tableOf? selects
  have hrow := toNat_high_lt_iff.mpr below
  have isIn : (tokenOf kind coded).isIn kind :=
    beq_iff_eq.mpr (Token.table_ofTable kind.code hrow)
  -- No bit of the row is lost, so that the same coded form is written.
  have same : ((coded >>> 2) <<< 2) ||| tag = coded := by
    rw [← UInt32.toNat_inj, toNat_coded hrow (tag_lt htag), toNat_high]
    omega
  rw [encode_of_tag htag (Token.kind?_of_isIn isIn),
    row_tokenOf_iff.mpr below, same]

end

/-! ### Main results -/

/-- A type token is read back from its bytes. -/
theorem takes_encodeBytes {token : Token} (h : token.NamesType) :
    ∃ bytes, encodeBytes token = .ok bytes ∧ Takes decode bytes token := by
  obtain ⟨kind, tag, hkind, htag⟩ := exists_tag h
  have hrow : token.row.toNat < 2 ^ 24 := by
    rw [Token.toNat_row]
    exact Nat.mod_lt _ (by decide)
  have htag' := tag_lt htag
  have coded := toNat_coded hrow htag'
  have within : (token.row <<< 2) ||| tag ≤ CompressedInteger.limit :=
    CompressedInteger.le_limit_of_toNat_lt (by omega)
  refine ⟨CompressedInteger.encode ((token.row <<< 2) ||| tag), ?_, ?_⟩
  · rw [encodeBytes, encode_of_tag htag (Token.kind?_of_isIn hkind)]
    rfl
  -- The row stands above the tag, and the tag tells the table.
  · have back : ((token.row <<< 2) ||| tag) >>> 2 = token.row := by
      rw [← UInt32.toNat_inj, toNat_high, coded]
      omega
    have same : (⟨(kind.code.toUInt32 <<< 24) + token.row⟩ : Token)
        = token := by
      rw [← show token.table = kind.code from beq_iff_eq.mp hkind,
        token.eq_table_row]
    have second : Takes (ofCoded ((token.row <<< 2) ||| tag)) [] token := by
      rw [ofCoded, tableOf?_of_tag htag (by omega)]
      show Takes (pure _) [] token
      rw [back, same]
      exact Takes.pure token
    have whole := (CompressedInteger.takes_encode within).bind
      (f := ofCoded) second
    rwa [List.append_nil] at whole

/-- A token that is read from a coded form below the bound names a type, and is
written in no more bytes than it was read from. -/
theorem yields_decodeBelow :
    Yields (decodeBelow rowBound) fun front token =>
      token.NamesType ∧ ∃ bytes, encodeBytes token = .ok bytes ∧
        bytes.length ≤ front.length := by
  refine CompressedInteger.yields_decode.bind fun front coded hcoded => ?_
  split
  case isFalse => exact Yields.malformed _
  case isTrue below =>
    rw [ofCoded]
    split
    case h_2 => exact Yields.malformed _
    case h_1 kind selects =>
      have isIn := (isIn_tokenOf_iff selects hcoded.1).mpr below
      refine Yields.pure ⟨?_, CompressedInteger.encode coded, ?_, ?_⟩
      · -- Each table that a tag selects is one that names types.
        obtain ⟨tag, htag, -⟩ := exists_tag_of_tableOf? selects
        cases kind <;> first
          | exact Or.inl isIn
          | exact Or.inr (Or.inl isIn)
          | exact Or.inr (Or.inr isIn)
          | cases htag
      · -- The code that was read is the code of the token.
        show (encode (tokenOf kind coded)).map _ = _
        rw [(encode_tokenOf_iff selects).mpr below]
        rfl
      · rw [List.append_nil]
        exact hcoded.2

/-- A token that is read lies in the table that the low bits of its coded form
select, has the row that stands above them and is written as the same number,
each if and only if the coded form is below the bound. -/
theorem exact_iff_of_decode {bytes rest : List UInt8} {token : Token}
    (h : decode.run bytes = .ok (token, rest)) :
    ∃ coded kind, CompressedInteger.decode.run bytes = .ok (coded, rest) ∧
      tableOf? coded = some kind ∧ (token.isIn kind ↔ coded < rowBound) ∧
      (token.row = coded >>> 2 ↔ coded < rowBound) ∧
      (encode token = .ok coded ↔ coded < rowBound) := by
  obtain ⟨coded, middle, read, stands⟩ := run_bind_eq_ok.mp h
  obtain ⟨-, -, within, -⟩ := CompressedInteger.yields_decode bytes
    coded middle read
  rw [ofCoded] at stands
  split at stands
  case h_2 => cases stands
  case h_1 kind selects =>
    cases stands
    refine ⟨coded, kind, read, selects, isIn_tokenOf_iff selects within,
      row_tokenOf_iff, ?_⟩
    exact encode_tokenOf_iff selects

/-- A reference to a row beyond the bound is read as the first definition. -/
example : decode.run [0xC4, 0x00, 0x00, 0x05] = .ok (⟨0x02000001⟩, []) := rfl

end CodedToken

end CliMetadata
