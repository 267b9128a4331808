/-!
# Hexadecimal numerals of a fixed width

Tokens, blobs and a few diagnostics print numbers in base sixteen, padded with
zeros to the width of the word they come from.  `lower` and `upper` write such a
numeral, `ofBytes` writes two digits a byte, and `toBytes?` reads that back.
-/

namespace CliMetadata.Hexadecimal

/-- The digit for a value below sixteen, counted on from `ten` for the values
ten to fifteen. -/
def digit (ten : Char) (value : Nat) : Char :=
  if value < 10 then Char.ofNat ('0'.toNat + value)
    else Char.ofNat (ten.toNat + (value - 10))

/-- The last `width` digits of `value`, most significant first. -/
def digits (ten : Char) : (width : Nat) → (value : Nat) → List Char
  | 0, _ => []
  | width + 1, value =>
    digits ten width (value / 16) ++ [digit ten (value % 16)]

/-- A numeral of `width` digits with letters in lower case. -/
def lower (width value : Nat) : String := String.ofList (digits 'a' width value)

/-- A numeral of `width` digits with letters in upper case. -/
def upper (width value : Nat) : String := String.ofList (digits 'A' width value)

/-- Two digits for each byte. -/
def ofBytes (bytes : List UInt8) : String :=
  String.ofList (bytes.flatMap fun b => digits 'a' 2 b.toNat)

/-- The value of a digit, in either case. -/
def digit? (c : Char) : Option Nat :=
  if '0' ≤ c ∧ c ≤ '9' then some (c.toNat - '0'.toNat)
  else if 'a' ≤ c ∧ c ≤ 'f' then some (c.toNat - 'a'.toNat + 10)
  else if 'A' ≤ c ∧ c ≤ 'F' then some (c.toNat - 'A'.toNat + 10)
  else none

/-- The bytes that pairs of digits stand for. -/
def bytesOfDigits? : List Char → Option (List UInt8)
  | [] => some []
  | [_] => none
  | high :: low :: rest => do
      let h ← digit? high
      let l ← digit? low
      return UInt8.ofNat (16 * h + l) :: (← bytesOfDigits? rest)

/-- The bytes that a text of digit pairs stands for. -/
def toBytes? (text : String) : Option (List UInt8) := bytesOfDigits? text.toList

/-- The number that a text of digits stands for; the empty text stands for
none. -/
def toNat? (text : String) : Option Nat :=
  if text.isEmpty then none
  else text.toList.foldlM (fun n c => (digit? c).map (16 * n + ·)) 0

@[simp]
theorem length_digits (ten : Char) (width value : Nat) :
    (digits ten width value).length = width := by
  induction width generalizing value with
  | zero => rfl
  | succ width ih => simp [digits, ih]

end CliMetadata.Hexadecimal
