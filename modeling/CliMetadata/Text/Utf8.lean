/-!
# UTF-8

Names and attribute texts are stored as UTF-8.  `encode` writes a string's bytes
and `decode` reads them back.  The decoder looks at one byte at a time: between
characters it expects a first byte, inside a character it knows how many bytes
are owed and in which range the next one must lie.  A sequence that leaves its
range is invalid at once, and one that the text cuts short is incomplete; either
way the fault carries the number of bytes before the character it concerns.
-/

namespace CliMetadata.Utf8

/-- Why bytes are not UTF-8. -/
inductive Fault where
  /-- After `position` good bytes stand `length` bytes that no character starts
  with once the next byte is seen. -/
  | invalid (length position : Nat)
  /-- After `position` good bytes the text ends inside a character. -/
  | incomplete (position : Nat)
deriving DecidableEq, Repr

/-- The wording of a fault. -/
def Fault.message : Fault → String
  | .invalid length position =>
      s!"invalid utf-8 sequence of {length} bytes from index {position}"
  | .incomplete position =>
    s!"incomplete utf-8 byte sequence from index {position}"

/-- The bytes of a text. -/
def encode (text : String) :
    List UInt8 := text.toList.flatMap String.utf8EncodeChar

/-- Where the decoder stands: between characters, or after `seen` bytes of one
that owes `owed + 1` more, the next of them between `low` and `high`, with
`bits` collected so far. -/
inductive State where
  | between
  | inside (owed seen : Nat) (low high : UInt8) (bits : Nat)
deriving DecidableEq, Repr

/-- The state after the first byte of a character of several bytes.  The range
of the second byte excludes overlong forms, surrogates and values above
U+10FFFF. -/
def State.ofLead? (b : UInt8) : Option State :=
  if 0xC2 ≤ b ∧ b ≤ 0xDF then some (.inside 0 1 0x80 0xBF (b.toNat % 32))
  else if b = 0xE0 then some (.inside 1 1 0xA0 0xBF 0)
  else if b = 0xED then some (.inside 1 1 0x80 0x9F 13)
  else if 0xE1 ≤ b ∧ b ≤ 0xEF then some (.inside 1 1 0x80 0xBF (b.toNat % 16))
  else if b = 0xF0 then some (.inside 2 1 0x90 0xBF 0)
  else if 0xF1 ≤ b ∧ b ≤ 0xF3 then some (.inside 2 1 0x80 0xBF (b.toNat % 8))
  else if b = 0xF4 then some (.inside 2 1 0x80 0x8F 4)
  else none

/-- The characters of the bytes that follow `position` good ones. -/
def decodeFrom :
    State → (position : Nat) → List UInt8 → Except Fault (List Char)
  | .between, _, [] => .ok []
  | .inside .., position, [] => .error (.incomplete position)
  | .between, position, b :: rest =>
      if b < 0x80 then do
        let chars ← decodeFrom .between (position + 1) rest
        return Char.ofNat b.toNat :: chars
      else
        match State.ofLead? b with
        | some state => decodeFrom state position rest
        | none => .error (.invalid 1 position)
  | .inside owed seen low high bits, position, b :: rest =>
      if low ≤ b ∧ b ≤ high then
        let value := bits * 64 + b.toNat % 64
        match owed with
        | 0 => do
            let chars ← decodeFrom .between (position + seen + 1) rest
            return Char.ofNat value :: chars
        | owed + 1 =>
          decodeFrom (.inside owed (seen + 1) 0x80 0xBF value) position rest
      else .error (.invalid seen position)

/-- The text of the bytes. -/
def decode (bytes : List UInt8) : Except Fault String :=
  (decodeFrom .between 0 bytes).map String.ofList

end CliMetadata.Utf8
