import Std.Data.HashMap
import CliMetadata.TypeSystem.Ty

/-!
# Nodes

A `Ty` tells what a type is.  What a type system hands out is a *node*, which
has an address besides, and two nodes that tell the same are two all the same.
So that this does not happen, nodes are kept in tables.  `Nodes.intern` looks
for the node of a type under its key, and makes a node, and keeps it, only where
there is none.

The key of a type tells the types that it is built from by the addresses of
their nodes.  Two nodes of one element are therefore two keys for an array of
it: tables alone do not make sure that there is one node for each type.
-/

namespace CliMetadata

/-- Where a node lies. -/
abbrev Address := Nat

/-- What a type is, apart from the types that it is built from. -/
inductive Head where
  | definition (definition : TypeDefinition)
  | applied
  | parameter (parameter : GenericParameter)
  | var (index : UInt32) (isMethod : Bool)
  | shaped (shape : Shape)
deriving DecidableEq, Hashable, Repr

/-- What the tables keep a node under. -/
structure NodeKey where
  head : Head
  /-- The nodes that it is built from. -/
  components : List Address
deriving DecidableEq, Hashable, Repr

namespace Ty

/-- What a type is, apart from the types that it is built from. -/
@[simp]
def head : Ty → Head
  | .definition d => .definition d
  | .applied _ _ => .applied
  | .parameter p => .parameter p
  | .var index isMethod => .var index isMethod
  | .shaped shape _ => .shaped shape

/-- The types that a type is built from. -/
@[simp]
def components : Ty → List Ty
  | .applied d arguments => .definition d :: arguments
  | .shaped _ element => [element]
  | .definition _ | .parameter _ | .var .. => []

/-- A type is its head and what it is built from. -/
theorem eq_of_head_eq {t u : Ty} (head : t.head = u.head)
    (components : t.components = u.components) : t = u := by
  cases t with
  | applied =>
    cases u with
    | applied => simpa [Ty.components] using components
    | _ => cases head
  | shaped =>
    cases u with
    | shaped => simp_all [Ty.components, Ty.head]
    | _ => cases head
  | definition | parameter | var =>
    cases u with
    | _ => cases head <;> rfl

/-- No type is built from itself. -/
theorem notMem_components (t : Ty) : t ∉ t.components := by
  intro built
  have smaller : sizeOf t < sizeOf t := by
    cases t with
    | applied d arguments =>
      rcases List.mem_cons.mp built with same | among
      · cases same
      · have := List.sizeOf_lt_of_mem among
        simp only [applied.sizeOf_spec] at this ⊢
        omega
    | shaped shape element =>
      have := congrArg sizeOf (List.mem_singleton.mp built)
      simp only [shaped.sizeOf_spec] at this ⊢
      omega
    | definition | parameter | var => cases built
  exact Nat.lt_irrefl _ smaller

/-- What a type is kept under, if the types that it is built from have nodes. -/
def key? (addresses : Std.HashMap Ty Address) (t : Ty) : Option NodeKey :=
  (t.components.mapM (addresses[·]?)).map (NodeKey.mk t.head)

section
variable {addresses later : Std.HashMap Ty Address}

/-- Types that have a node keep it where more types have nodes. -/
theorem mapM_addresses_mono (more : ∀ (t : Ty) (address : Address),
      addresses[t]? = some address → later[t]? = some address) {ts : List Ty}
    {found : List Address} (h : ts.mapM (addresses[·]?) = some found) :
    ts.mapM (later[·]?) = some found := by
  induction ts generalizing found with
  | nil => exact h
  | cons t ts ih =>
    simp only [List.mapM_cons, Option.bind_eq_bind, Option.bind_eq_some_iff]
      at h ⊢
    obtain ⟨address, first, rest, others, same⟩ := h
    exact ⟨address, more t address first, rest, ih others, same⟩

/-- Types of the same nodes are the same, if types of one node are. -/
theorem eq_of_mapM_addresses
    (inj : ∀ (t u : Ty) (address : Address), addresses[t]? = some address →
      addresses[u]? = some address → t = u)
    {ts us : List Ty} {found : List Address}
    (hts : ts.mapM (addresses[·]?) = some found)
    (hus : us.mapM (addresses[·]?) = some found) : ts = us := by
  induction ts generalizing us found with
  | nil =>
    cases hts
    cases us with
    | nil => rfl
    | cons u us => simp [Option.bind_eq_some_iff] at hus
  | cons t ts ih =>
    simp only [List.mapM_cons, Option.bind_eq_bind, Option.bind_eq_some_iff]
      at hts
    obtain ⟨address, first, rest, others, ⟨⟩⟩ := hts
    cases us with
    | nil => cases hus
    | cons u us =>
      simp only [List.mapM_cons, Option.bind_eq_bind, Option.bind_eq_some_iff]
        at hus
      obtain ⟨address', first', rest', others', ⟨⟩⟩ := hus
      rw [inj t u address first first', ih others others']

theorem key?_mono
    (more : ∀ (t : Ty) (address : Address), addresses[t]? = some address →
      later[t]? = some address)
    {t : Ty} {key : NodeKey} (h : t.key? addresses = some key) :
    t.key? later = some key := by
  obtain ⟨found, components, rfl⟩ := Option.map_eq_some_iff.mp h
  exact Option.map_eq_some_iff.mpr
    ⟨found, mapM_addresses_mono more components, rfl⟩

/-- Types of one key are the same, if types of one node are. -/
theorem eq_of_key?_eq
    (inj : ∀ (t u : Ty) (address : Address), addresses[t]? = some address →
      addresses[u]? = some address → t = u)
    {t u : Ty} {key : NodeKey} (ht : t.key? addresses = some key)
    (hu : u.key? addresses = some key) :
    t = u := by
  obtain ⟨found, components, rfl⟩ := Option.map_eq_some_iff.mp ht
  obtain ⟨found', components', same⟩ := Option.map_eq_some_iff.mp hu
  obtain ⟨head, rfl⟩ := NodeKey.mk.inj same
  exact eq_of_head_eq head.symm
    (eq_of_mapM_addresses inj components components')

/-- A type has a key if the types that it is built from have nodes. -/
theorem isSome_key? {t : Ty} (h : ∀ u ∈ t.components, (addresses[u]?).isSome) :
    (t.key? addresses).isSome := by
  have found {ts : List Ty} (h : ∀ u ∈ ts, (addresses[u]?).isSome) :
      (ts.mapM (addresses[·]?)).isSome := by
    induction ts with
    | nil => rfl
    | cons t ts ih =>
      obtain ⟨first, others⟩ := List.forall_mem_cons.mp h
      obtain ⟨address, first⟩ := Option.isSome_iff_exists.mp first
      obtain ⟨rest, others⟩ := Option.isSome_iff_exists.mp (ih others)
      simp [first, others]
  rw [key?, Option.isSome_map]
  exact found h

end

end Ty

/-- The nodes of a type system.  The tables answer with nodes that tell what was
asked for; that these are all the nodes is for the theory to show. -/
structure Nodes where
  /-- What the nodes tell, in the order in which they were made.  The address of
  a node is its position. -/
  types : Array Ty
  /-- The node that was made for a type, the first one if there are several. -/
  addresses : Std.HashMap Ty Address
  /-- The nodes that are kept. -/
  tables : Std.HashMap NodeKey Address
  types_addresses : ∀ (t : Ty) (address : Address),
    addresses[t]? = some address → types[address]? = some t
  key?_tables : ∀ (key : NodeKey) (address : Address),
    tables[key]? = some address →
      ∃ t, types[address]? = some t ∧ t.key? addresses = some key

namespace Nodes

/-- No nodes. -/
def empty : Nodes where
  types := #[]
  addresses := {}
  tables := {}
  types_addresses := by simp
  key?_tables := by simp

/-- A node is a node of one type. -/
theorem eq_of_addresses (nodes : Nodes) (t u : Ty) (address : Address)
    (ht : nodes.addresses[t]? = some address)
    (hu : nodes.addresses[u]? = some address) :
    t = u := by
  have first := nodes.types_addresses t address ht
  rw [nodes.types_addresses u address hu] at first
  exact (Option.some.inj first).symm

section
variable (nodes : Nodes) (t : Ty)

/-- A node that was made stays what it is. -/
theorem types_push {address : Address} {u : Ty}
    (h : nodes.types[address]? = some u) :
    (nodes.types.push t)[address]? = some u := by
  obtain ⟨inside, -⟩ := Array.getElem?_eq_some_iff.mp h
  simp [Array.getElem?_push, Nat.ne_of_lt inside, h]

/-- A type that has a node keeps it. -/
theorem addresses_insertIfNew {fresh address : Address} {u : Ty}
    (h : nodes.addresses[u]? = some address) :
    (nodes.addresses.insertIfNew t fresh)[u]? = some address := by
  rw [Std.HashMap.getElem?_insertIfNew]
  split
  · next new =>
    obtain ⟨same, missing⟩ := new
    rw [eq_of_beq same, Std.HashMap.mem_iff_isSome_getElem?, h] at missing
    exact absurd rfl missing
  · exact h

/-- Makes a node of a type, which no table keeps yet. -/
def make : Nodes where
  types := nodes.types.push t
  addresses := nodes.addresses.insertIfNew t nodes.types.size
  tables := nodes.tables
  types_addresses u address h := by
    rw [Std.HashMap.getElem?_insertIfNew] at h
    split at h
    · next new =>
      cases h
      rw [← eq_of_beq new.1, Array.getElem?_push_size]
    · exact nodes.types_push t (nodes.types_addresses u address h)
  key?_tables key address h := by
    obtain ⟨u, kept, told⟩ := nodes.key?_tables key address h
    exact ⟨u, nodes.types_push t kept,
      Ty.key?_mono (fun _ _ => nodes.addresses_insertIfNew t) told⟩

/-- Keeps a node under its key. -/
def keep (key : NodeKey) (address : Address)
    (told : ∃ t, nodes.types[address]? = some t ∧
      t.key? nodes.addresses = some key) :
    Nodes where
  types := nodes.types
  addresses := nodes.addresses
  tables := nodes.tables.insert key address
  types_addresses := nodes.types_addresses
  key?_tables other found h := by
    rw [Std.HashMap.getElem?_insert] at h
    split at h
    · next same =>
      cases h
      rwa [← eq_of_beq same]
    · exact nodes.key?_tables other found h

/-- The node of a type.  If the tables keep none, one is made and kept. -/
def intern : Address × Nodes :=
  match told : t.key? nodes.addresses with
  | none => (nodes.types.size, nodes.make t)
  | some key =>
      match nodes.tables[key]? with
      | some address => (address, nodes)
      | none => (nodes.types.size, (nodes.make t).keep key nodes.types.size
          ⟨t, Array.getElem?_push_size,
            Ty.key?_mono (fun _ _ => nodes.addresses_insertIfNew t) told⟩)

variable {nodes t}

/-- Where a table keeps the node, it is answered. -/
theorem intern_of_kept {key : NodeKey} {address : Address}
    (told : t.key? nodes.addresses = some key)
    (kept : nodes.tables[key]? = some address) :
    nodes.intern t = (address, nodes) := by
  rw [intern]
  split
  · next missing =>
    rw [told] at missing
    cases missing
  · next found =>
    obtain rfl := Option.some.inj (told.symm.trans found)
    rw [kept]

/-- Otherwise a new node is. -/
theorem intern_of_not_kept {key : NodeKey}
    (told : t.key? nodes.addresses = some key)
    (missing : nodes.tables[key]? = none) :
    (nodes.intern t).1 = nodes.types.size ∧
      (nodes.intern t).2.types = nodes.types.push t ∧
      (nodes.intern t).2.addresses
        = nodes.addresses.insertIfNew t nodes.types.size ∧
      (nodes.intern t).2.tables = nodes.tables.insert key nodes.types.size := by
  rw [intern]
  split
  · next none =>
    rw [told] at none
    cases none
  · next found =>
    obtain rfl := Option.some.inj (told.symm.trans found)
    rw [missing]
    exact ⟨rfl, rfl, rfl, rfl⟩

variable (nodes t)

/-- The node that is answered tells what was asked for. -/
@[simp]
theorem types_intern :
    (nodes.intern t).2.types[(nodes.intern t).1]? = some t := by
  rw [intern]
  split
  · exact Array.getElem?_push_size
  · next key told =>
    split
    · next address kept =>
      obtain ⟨u, there, told'⟩ := nodes.key?_tables key address kept
      rw [there, Ty.eq_of_key?_eq nodes.eq_of_addresses told told']
    · exact Array.getElem?_push_size

end

end Nodes

end CliMetadata
