/-!
# Hashes of names and of types

A name is hashed over its UTF-16 code units.  Units at even positions feed one
lane and units at odd positions the other, and finishing mixes the two lanes, so
a hash can be taken piece by piece.  Types built from others mix the hashes of
their parts, each construction with a rotation of its own.  All arithmetic is
modulo 2^32.
-/

namespace CliMetadata

/-- The UTF-16 code units of a character: one, or a surrogate pair above
U+FFFF. -/
def utf16OfChar (c : Char) : List UInt32 :=
  if c.val < 0x10000 then [c.val]
  else
    let rest := c.val - 0x10000
    [(0xD800 : UInt32) + (rest >>> 10), (0xDC00 : UInt32) + (rest &&& 0x3FF)]

/-- The UTF-16 code units of a text. -/
def utf16 (text : String) : List UInt32 := text.toList.flatMap utf16OfChar

/-- Rotates a word to the left by fewer than 32 bits. -/
def rotateLeft (word amount : UInt32) :
    UInt32 := (word <<< amount) ||| (word >>> (32 - amount))

/-- Adds to a word its own rotation. -/
def mix (word amount : UInt32) : UInt32 := word + rotateLeft word amount

/-- A name hash in progress. -/
structure NameHash where
  /-- The lane of the units at even positions. -/
  even : UInt32 := 0x6DA3B944
  /-- The lane of the units at odd positions. -/
  odd : UInt32 := 0
  /-- Whether the next unit stands at an odd position. -/
  atOdd : Bool := false
deriving DecidableEq, Repr

namespace NameHash

/-- Feeds one code unit. -/
def feed (hash : NameHash) (unit : UInt32) : NameHash :=
  if hash.atOdd then { hash with odd := mix hash.odd 5 ^^^ unit, atOdd := false }
  else { hash with even := mix hash.even 5 ^^^ unit, atOdd := true }

/-- Feeds a text. -/
def append (hash : NameHash) (text : String) :
    NameHash := (utf16 text).foldl feed hash

/-- The hash in progress after a text. -/
def start (text : String) : NameHash := ({} : NameHash).append text

/-- The finished hash. -/
def finish (hash : NameHash) : UInt32 := mix hash.even 8 ^^^ mix hash.odd 8

/-- The hash of a name. -/
def ofName (name : String) : UInt32 := (start name).finish

/-- The hash of a type nested in another. -/
def nested (enclosing name : UInt32) : UInt32 := mix enclosing 11 ^^^ name

/-- Mixes the hash of a type argument into that of what it is applied to. -/
def argument (hash argument : UInt32) : UInt32 := mix hash 13 ^^^ argument

/-- The hash of a generic type applied to arguments. -/
def generic (definition : UInt32) (arguments : List UInt32) : UInt32 :=
  mix (arguments.foldl argument definition) 15

/-- The hash of an array, which is hashed like a generic type over its element.
An array of one dimension that starts at zero has no rank. -/
def array (element : UInt32) (rank : Option UInt32) : UInt32 :=
  let definition :=
    match rank with
    | none => "System.Array`1"
    | some rank => s!"System.MDArrayRank{rank.toNat}`1"
  generic (ofName definition) [element]

/-- The hash of a pointer. -/
def pointer (target : UInt32) : UInt32 := mix target 5 ^^^ 0x12D0

/-- The hash of a managed reference. -/
def byRef (target : UInt32) : UInt32 := mix target 7 ^^^ 0x4C85

/-- The hash of a generic parameter that a signature names by its number. -/
def signatureVariable (index : UInt32) (isMethod : Bool) : UInt32 :=
  index * 0x07822381 + (if isMethod then 0x54872645 else 0x2A8F6C51)

end NameHash

end CliMetadata
