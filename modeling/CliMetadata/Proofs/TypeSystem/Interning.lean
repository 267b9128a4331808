import CliMetadata.TypeSystem.Nodes

/-!
# One node for each type

Nodes are made by `Nodes.intern` alone.  As long as every node is the one that
the tables keep for what it tells (`Nodes.AreKept`), a type that has a node is
answered with it, and one that has none gets its first.  Thus the nodes stay as
they should be (`Nodes.AreKept.intern`), and no type has two of them
(`Nodes.AreKept.eq`).

It takes an induction on what was made before to see this: a key tells the types
that a type is built from by their nodes, so that a second node for one of them
would be followed by second nodes for whatever is built from it.
-/

namespace CliMetadata.Nodes

variable {nodes later last : Nodes} {t u : Ty} {address address' : Address}

/-- What was made is still there. -/
def GrowsInto (nodes later : Nodes) : Prop :=
  ∀ (address : Address) (t : Ty), nodes.types[address]? = some t →
    later.types[address]? = some t

@[refl]
theorem GrowsInto.refl (nodes : Nodes) : nodes.GrowsInto nodes := fun _ _ => id

theorem GrowsInto.trans (h : nodes.GrowsInto later)
    (h' : later.GrowsInto last) :
    nodes.GrowsInto last :=
  fun address t made => h' address t (h address t made)

/-- Every node is the one that was made for what it tells, and is kept. -/
structure AreKept (nodes : Nodes) : Prop where
  addresses : ∀ (address : Address) (t : Ty), nodes.types[address]? = some t →
    nodes.addresses[t]? = some address
  tables : ∀ (address : Address) (t : Ty), nodes.types[address]? = some t →
    ∃ key, t.key? nodes.addresses = some key ∧ nodes.tables[key]? = some address

theorem areKept_empty : empty.AreKept := ⟨by simp [empty], by simp [empty]⟩

/-- No type has two nodes. -/
theorem AreKept.eq (h : nodes.AreKept) (ht : nodes.types[address]? = some t)
    (ht' : nodes.types[address']? = some t) : address = address' := by
  have first := h.addresses address t ht
  rw [h.addresses address' t ht'] at first
  exact (Option.some.inj first).symm

/-- A type that has a node is answered with it. -/
theorem AreKept.intern_eq (h : nodes.AreKept)
    (ht : nodes.types[address]? = some t) :
    nodes.intern t = (address, nodes) := by
  obtain ⟨key, told, kept⟩ := h.tables address t ht
  exact intern_of_kept told kept

/-- What is there after a type was asked for was there before, or is its
node. -/
theorem eq_or_of_types_intern
    (h : (nodes.intern t).2.types[address]? = some u) :
    nodes.types[address]? = some u ∨ address = nodes.types.size ∧ u = t := by
  have pushed (h : (nodes.types.push t)[address]? = some u) :
      nodes.types[address]? = some u ∨ address = nodes.types.size ∧ u = t := by
    rw [Array.getElem?_push] at h
    split at h
    · next new => exact .inr ⟨new, (Option.some.inj h).symm⟩
    · exact .inl h
  rw [intern] at h
  split at h
  · exact pushed h
  · split at h
    · exact .inl h
    · exact pushed h

/-- To ask for a type takes no node away. -/
theorem growsInto_intern (nodes : Nodes) (t : Ty) :
    nodes.GrowsInto (nodes.intern t).2 := by
  intro address u made
  rw [intern]
  split
  · exact nodes.types_push t made
  · split
    · exact made
    · exact nodes.types_push t made

/-- To ask for a type makes no second node of any, if the types that it is built
from have nodes. -/
theorem AreKept.intern (h : nodes.AreKept)
    (known : (t.key? nodes.addresses).isSome) :
    (nodes.intern t).2.AreKept := by
  obtain ⟨key, told⟩ := Option.isSome_iff_exists.mp known
  cases kept : nodes.tables[key]? with
  | some address =>
    rw [intern_of_kept told kept]
    exact h
  | none =>
    obtain ⟨-, types, addresses, tables⟩ := intern_of_not_kept told kept
    -- The type had no node, since it would have been kept under this key.
    have new : nodes.addresses[t]? = none := by
      refine Option.eq_none_iff_forall_ne_some.mpr fun address found => ?_
      obtain ⟨key', told', kept'⟩ :=
        h.tables address t (nodes.types_addresses t address found)
      obtain rfl := Option.some.inj (told.symm.trans told')
      rw [kept] at kept'
      cases kept'
    have more (u : Ty) (address : Address)
        (found : nodes.addresses[u]? = some address) :
        (nodes.intern t).2.addresses[u]? = some address := by
      rw [addresses]
      exact nodes.addresses_insertIfNew t found
    constructor
    · intro address u made
      obtain made | ⟨rfl, rfl⟩ := eq_or_of_types_intern made
      · exact more u address (h.addresses address u made)
      · rw [addresses, Std.HashMap.getElem?_insertIfNew,
          if_pos ⟨beq_self_eq_true u, (getElem?_eq_none_iff _ u).mp new⟩]
    · intro address u made
      obtain made | ⟨rfl, rfl⟩ := eq_or_of_types_intern made
      · -- What is kept under another key is still kept.
        obtain ⟨other, told', kept'⟩ := h.tables address u made
        refine ⟨other, Ty.key?_mono more told', ?_⟩
        rw [tables, Std.HashMap.getElem?_insert]
        split
        · next same =>
          rw [← eq_of_beq same, kept] at kept'
          cases kept'
        · exact kept'
      · exact ⟨key, Ty.key?_mono more told,
          by rw [tables]; exact Std.HashMap.getElem?_insert_self⟩

end CliMetadata.Nodes
