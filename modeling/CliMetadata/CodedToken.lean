import CliMetadata.CompressedInteger

/-!
# Coded tokens

Signatures name types by a compressed integer: the low two bits select the table
of type definitions, references or specifications, and the bits above them are
the row number.
-/

namespace CliMetadata.CodedToken

/-- The number that stands for a type token. -/
def encode (token : Token) : Except Error UInt32 :=
  match token.kind? with
  | some .typeDef => .ok (token.row <<< 2)
  | some .typeRef => .ok ((token.row <<< 2) ||| 1)
  | some .typeSpec => .ok ((token.row <<< 2) ||| 2)
  | _ => .error (.malformed (.unencodableToken token))

/-- The bytes that stand for a type token. -/
def encodeBytes (token : Token) : Except Error (List UInt8) :=
  (encode token).map CompressedInteger.encode

/-- The table that the low bits of a number select. -/
def tableOf? (coded : UInt32) : Option TableKind :=
  match (coded &&& 3).toNat with
  | 0 => some .typeDef
  | 1 => some .typeRef
  | 2 => some .typeSpec
  | _ => none

/-- The type token that a number stands for.  The row is added to the first
token of the table, so a row that needs more than 24 bits runs over into the
byte that selects the table. -/
def ofCoded (coded : UInt32) : Decoder Token :=
  match tableOf? coded with
  | some table => return ⟨(table.code.toUInt32 <<< 24) + (coded >>> 2)⟩
  | none => Decoder.malformed (.codedToken coded)

/-- Takes a type token. -/
def decode : Decoder Token := do ofCoded (← CompressedInteger.decode)

end CliMetadata.CodedToken
