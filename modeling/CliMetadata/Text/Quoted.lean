import CliMetadata.Text.Printable

/-!
# Quoted texts

Diagnostics show a name between double quotes, so that a reader sees where it
starts and ends and what is in it.  Quotes and backslashes are escaped, and so
is every character that cannot be shown.
-/

namespace CliMetadata.Quoted

/-- How a character is written between quotes. -/
def encodeChar (c : Char) : String :=
  match c with
  | '"' => "\\\""
  | '\\' => "\\\\"
  | '\t' => "\\t"
  | '\n' => "\\n"
  | '\r' => "\\r"
  | '\x00' => "\\0"
  | _ =>
      if Printable.isShown c then c.toString
      else "\\u\x7b" ++ String.ofList (Nat.toDigits 16 c.toNat) ++ "\x7d"

/-- A text between quotes. -/
def encode (text : String) :
    String := "\"" ++ String.join (text.toList.map encodeChar) ++ "\""

end CliMetadata.Quoted
