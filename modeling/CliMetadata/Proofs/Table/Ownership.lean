import CliMetadata.Proofs.Table.Steps

/-!
# Owners of members

A builder gives each method and each field to one type.  Tokens have 24 bits for
the number of a row, so that in a module with as many rows two members may have
one token; in smaller modules the type that a member is found to belong to is
the type that lists it (`Image.OwnsMembers`).

One invariant serves both sorts of members: the tokens that types list are those
of the first `count` rows, and no token is in two lists (`AreListedOnce`).
-/

namespace CliMetadata

/-- The members that a type lists are those that it declares. -/
structure Image.OwnsMembers (image : Image) : Prop where
  methods : ∀ {token : Token} {row : TypeDefRow},
    image.typeDef? token = some row →
    ∀ method ∈ row.methods, image.methodOwner? method = some token
  fields : ∀ {token : Token} {row : TypeDefRow},
    image.typeDef? token = some row →
    ∀ field ∈ row.fields, image.fieldOwner? field = some token

/-! ### Lists of members -/

/-- The members in the lists of types are the first `count` rows of a table, and
as long as tokens tell these apart, no two types list one member. -/
structure AreListedOnce (kind : TableKind) (members : TypeDefRow → List Token)
    (types : Array TypeDefRow) (count : Nat) : Prop where
  numbered : ∀ (i : Nat) (type : TypeDefRow),
    types[i]? = some type →
      ∀ token ∈ members type, ∃ number, 1 ≤ number ∧ number ≤ count ∧
        token = Token.ofParts kind (UInt32.ofNat number)
  once : count < 2 ^ 24 → ∀ (i j : Nat) (first second : TypeDefRow),
    types[i]? = some first →
    types[j]? = some second → ∀ token, token ∈ members first →
    token ∈ members second → i = j

/-- Tokens tell rows apart. -/
theorem Token.ofParts_inj {kind : TableKind} {m n : Nat} (hm : m < 2 ^ 24)
    (hn : n < 2 ^ 24)
    (h : ofParts kind (UInt32.ofNat m) = ofParts kind (UInt32.ofNat n)) :
    m = n := by
  have small {k : Nat} (hk : k < 2 ^ 24) : (UInt32.ofNat k).toNat = k := by
    rw [UInt32.toNat_ofNat', Nat.mod_eq_of_lt (by omega)]
  have value {k : Nat} (hk : k < 2 ^ 24) :
      (ofParts kind (UInt32.ofNat k)).value.toNat
        = kind.code.toNat * 2 ^ 24 + k := by
    rw [value_toNat_ofParts kind (by rw [small hk]; exact hk), small hk]
  have same := value hm
  rw [h, value hn] at same
  omega

namespace AreListedOnce

variable {kind : TableKind} {members : TypeDefRow → List Token}
  {types : Array TypeDefRow} {count : Nat}

theorem empty : AreListedOnce kind members #[] 0 where
  numbered := by simp
  once := by simp

/-- A type that lists nothing can be added. -/
theorem push (h : AreListedOnce kind members types count) {type : TypeDefRow}
    (none : members type = []) :
    AreListedOnce kind members (types.push type) count where
  numbered i other hother token htoken := by
    rw [Array.getElem?_push] at hother
    -- The new type lists nothing.
    split at hother
    · cases hother
      simp [none] at htoken
    · exact h.numbered i other hother token htoken
  once small i j first second hfirst hsecond token inFirst inSecond := by
    rw [Array.getElem?_push] at hfirst hsecond
    split at hfirst
    · -- Neither of the two is the new type.
      cases hfirst
      simp [none] at inFirst
    · split at hsecond
      · cases hsecond
        simp [none] at inSecond
      · exact h.once small i j first second hfirst hsecond token
          inFirst inSecond

/-- A type may change in all but its members. -/
theorem modify (h : AreListedOnce kind members types count) (index : Nat)
    {change : TypeDefRow → TypeDefRow}
    (kept : ∀ type, members (change type) = members type) :
    AreListedOnce kind members (types.modify index change) count := by
  -- A changed type lists what it listed before.
  have unchanged (i : Nat) (type : TypeDefRow)
      (htype : (types.modify index change)[i]? = some type) :
      ∃ old, types[i]? = some old ∧ members type = members old := by
    rw [Array.getElem?_modify] at htype
    split at htype
    · obtain ⟨old, hold, rfl⟩ := Option.map_eq_some_iff.mp htype
      exact ⟨old, hold, kept old⟩
    · exact ⟨type, htype, rfl⟩
  constructor
  · intro i type htype token htoken
    obtain ⟨old, hold, same⟩ := unchanged i type htype
    exact h.numbered i old hold token (same ▸ htoken)
  · intro small i j first second hfirst hsecond token inFirst inSecond
    obtain ⟨old, hold, same⟩ := unchanged i first hfirst
    obtain ⟨old', hold', same'⟩ := unchanged j second hsecond
    exact h.once small i j old old' hold hold' token (same ▸ inFirst)
      (same' ▸ inSecond)

/-- The member of the next row can be added to the list of a type. -/
theorem add (h : AreListedOnce kind members types count) (index : Nat)
    {change : TypeDefRow → TypeDefRow}
    (added : ∀ type, members (change type)
      = members type ++ [Token.ofParts kind (UInt32.ofNat (count + 1))]) :
    AreListedOnce kind members (types.modify index change) (count + 1) := by
  -- What a type lists was in its list before, or is the new member of the
  -- changed type.
  have listed (i : Nat) (type : TypeDefRow)
      (htype : (types.modify index change)[i]? = some type)
      (token : Token) (htoken : token ∈ members type) :
      (∃ old, types[i]? = some old ∧ token ∈ members old) ∨
        (i = index ∧
          token = Token.ofParts kind (UInt32.ofNat (count + 1))) := by
    rw [Array.getElem?_modify] at htype
    split at htype
    · next same =>
      obtain ⟨old, hold, rfl⟩ := Option.map_eq_some_iff.mp htype
      rw [added, List.mem_append, List.mem_singleton] at htoken
      rcases htoken with htoken | rfl
      · exact .inl ⟨old, hold, htoken⟩
      · exact .inr ⟨same.symm, rfl⟩
    · exact .inl ⟨type, htype, htoken⟩
  -- The new member is in no list yet.
  have fresh (small : count + 1 < 2 ^ 24) (i : Nat) (type : TypeDefRow)
      (htype : types[i]? = some type)
      (htoken : Token.ofParts kind (UInt32.ofNat (count + 1)) ∈ members type) :
        False := by
    obtain ⟨number, _, hcount, same⟩ := h.numbered i type htype _ htoken
    have := Token.ofParts_inj small (by omega) same
    omega
  constructor
  · intro i type htype token htoken
    rcases listed i type htype token htoken with ⟨old, hold, htoken⟩ | ⟨-, rfl⟩
    · obtain ⟨number, positive, hcount, same⟩ :=
        h.numbered i old hold token htoken
      exact ⟨number, positive, by omega, same⟩
    · exact ⟨count + 1, by omega, Nat.le_refl _, rfl⟩
  · intro small i j first second hfirst hsecond token inFirst inSecond
    rcases listed i first hfirst token inFirst
      with ⟨old, hold, inOld⟩ | ⟨rfl, rfl⟩
    · rcases listed j second hsecond token inSecond
        with ⟨old', hold', inOld'⟩ | ⟨rfl, rfl⟩
      · exact h.once (by omega) i j old old' hold hold' token inOld inOld'
      · exact (fresh small i old hold inOld).elim
    · rcases listed j second hsecond _ inSecond
        with ⟨old', hold', inOld'⟩ | ⟨rfl, -⟩
      · exact (fresh small j old' hold' inOld').elim
      · rfl

/-- The type that is found to own a member is the type that lists it. -/
theorem find?_eq (h : AreListedOnce kind members types count)
    (small : count < 2 ^ 24) {i : Nat} {type : TypeDefRow}
    (htype : types[i]? = some type) {token : Token}
    (htoken : token ∈ members type) :
    types.find? (fun type => (members type).contains token) = some type := by
  cases found : types.find? fun type => (members type).contains token with
  | none =>
    have mem : type ∈ types := Array.mem_of_getElem? htype
    have := Array.find?_eq_none.mp found type mem
    simp [htoken] at this
  | some other =>
    -- The type that is found lists the member too, so that it is this one.
    obtain ⟨j, hj⟩ := Array.mem_iff_getElem?.mp
      (Array.mem_of_find?_eq_some found)
    have listed : token ∈ members other := by simpa using Array.find?_some found
    obtain rfl := h.once small i j type other htype hj token htoken listed
    exact hj.symm.trans htype

end AreListedOnce

/-! ### Everything that is built -/

namespace Tables

/-- The types list each of their members once. -/
structure ListsOnce (t : Tables) : Prop where
  methods : AreListedOnce .methodDef TypeDefRow.methods t.typeDefs
    t.methodDefs.size
  fields : AreListedOnce .field TypeDefRow.fields t.typeDefs t.fields.size

theorem ListsOnce.step {t later : Tables} {call : ModuleBuilder.Call}
    {token : Token} (h : t.ListsOnce) (step : t.Step call token later) :
    later.ListsOnce := by
  cases step with
  | typeDef next methods fields =>
    exact ⟨h.methods.push methods, h.fields.push fields⟩
  | nestedTypeDef next methods fields =>
    exact ⟨h.methods.push methods, h.fields.push fields⟩
  | methodDef next place =>
    -- The method is listed by its owner, and no field is.
    constructor <;> dsimp only
    · rw [Array.size_push]
      exact h.methods.add _ fun _ => rfl
    · exact h.fields.modify _ fun _ => rfl
  | field next place =>
    -- The field is listed by its owner, and no method is.
    constructor <;> dsimp only
    · exact h.methods.modify _ fun _ => rfl
    · rw [Array.size_push]
      exact h.fields.add _ fun _ => rfl
  | _ => exact { h with }

end Tables

namespace ModuleBuilder

theorem IsBuilt.listsOnce {b : ModuleBuilder} (h : b.IsBuilt) :
    b.tables.ListsOnce :=
  h.tables_induction ⟨.empty, .empty⟩ Tables.ListsOnce.step

/-- As long as tokens tell its members apart, a module that was built owns them
as it lists them. -/
theorem IsBuilt.ownsMembers {b : ModuleBuilder} (h : b.IsBuilt)
    (methods : b.tables.methodDefs.size < 2 ^ 24)
    (fields : b.tables.fields.size < 2 ^ 24) :
    b.image.OwnsMembers := by
  -- Only what was built is found, since nothing is amended.
  have listed {token : Token} {row : TypeDefRow}
      (found : b.image.typeDef? token = some row) :
      b.tables.typeDefs[token.row.toNat - 1]? = some row ∧
      row.token = token := by
    refine ⟨?_, h.findsOwnRows.typeDef found⟩
    obtain ⟨isIn, hnull⟩ := h.findsOwnRows.isTypeDef found
    exact (if_pos ⟨isIn, hnull⟩).symm.trans found
  constructor
  · intro token row found method hmethod
    obtain ⟨place, same⟩ := listed found
    have owner := h.listsOnce.methods.find?_eq methods place hmethod
    rw [← same]
    exact congrArg (Option.map TypeDefRow.token) owner
  · intro token row found field hfield
    obtain ⟨place, same⟩ := listed found
    have owner := h.listsOnce.fields.find?_eq fields place hfield
    rw [← same]
    exact congrArg (Option.map TypeDefRow.token) owner

end ModuleBuilder

end CliMetadata
