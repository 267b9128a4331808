import CliMetadata.NameHash

/-!
# Hashing a name in pieces

A name hash in progress knows its two lanes and which of them takes the next
code unit.  The hash of a name as a whole needs no such memory: its code units
are taken in pairs, the first of each pair for the one lane and the second for
the other (`NameHash.ofUnits`).

A piece of a name may end within a pair, after any number of units, and a
character above U+FFFF is two of them.  What is carried from piece to piece is
that the lanes are those of the pairs so far and that an odd number of units
leaves a pair open (`NameHash.foldl_feed_eq`).  So the pieces do not show: the
hash is that of the code units of the whole (`NameHash.finish_foldl_append`).
-/

namespace CliMetadata.NameHash

/-! ### Units in pairs -/

/-- The lanes after code units that are taken in pairs: the first unit of a pair
is for the first lane and the second for the second.  The last unit may stand
alone. -/
def pairwise (even odd : UInt32) : List UInt32 → UInt32 × UInt32
  | [] => (even, odd)
  | [unit] => (mix even 5 ^^^ unit, odd)
  | unit :: unit' :: rest =>
    pairwise (mix even 5 ^^^ unit) (mix odd 5 ^^^ unit') rest

/-- The hash of code units, taken in pairs. -/
def ofUnits (units : List UInt32) : UInt32 :=
  let lanes := pairwise 0x6DA3B944 0 units
  mix lanes.1 8 ^^^ mix lanes.2 8

/-- To feed units one by one is to take them in pairs, and an odd number of them
leaves a pair open. -/
theorem foldl_feed_eq (even odd : UInt32) (units : List UInt32) :
    units.foldl feed ⟨even, odd, false⟩ =
      ⟨(pairwise even odd units).1, (pairwise even odd units).2,
        units.length % 2 == 1⟩ := by
  fun_induction pairwise even odd units with
  | case1 => rfl
  | case2 => rfl
  | case3 even odd unit unit' rest ih =>
    have parity : (unit :: unit' :: rest).length % 2 = rest.length % 2 :=
      Nat.add_mod_right _ 2
    rw [parity]
    exact ih

/-! ### Pieces -/

@[simp]
theorem append_append (hash : NameHash) (first second : String) :
    (hash.append first).append second = hash.append (first ++ second) := by
  simp only [append, utf16, String.toList_append, List.flatMap_append,
    List.foldl_append]

/-- To append pieces one after the other is to append them in one. -/
theorem foldl_append_eq (hash : NameHash) (first : String)
    (rest : List String) :
    rest.foldl append (hash.append first)
      = hash.append (String.join (first :: rest)) := by
  induction rest generalizing first with
  | nil => simp [String.append_empty]
  | cons second rest ih =>
    simp [ih, String.append_assoc]

/-- **The hash of a name in pieces is that of the whole**: of its code units,
taken in pairs, and of the name in one piece, wherever it was split. -/
theorem finish_foldl_append (first : String) (rest : List String) :
    (rest.foldl append (start first)).finish
      = ofUnits (utf16 (String.join (first :: rest))) ∧
      (rest.foldl append (start first)).finish
        = ofName (String.join (first :: rest)) := by
  have whole :
      rest.foldl append (start first) = start (String.join (first :: rest)) :=
    foldl_append_eq {} first rest
  refine ⟨?_, congrArg finish whole⟩
  rw [whole, start, append, foldl_feed_eq]
  rfl

/-- A piece that ends within a pair, an empty one, and one that starts with a
character of two units, which are in different pairs. -/
example : utf16 "a😀b" = [0x61, 0xD83D, 0xDE00, 0x62] ∧
    ["", "😀b"].foldl append (start "a") = start "a😀b" := by decide

end CliMetadata.NameHash
