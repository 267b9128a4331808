import CliMetadata.Proofs.Table.Numbers
import CliMetadata.Proofs.Table.Records
import Mathlib.Data.List.Perm.Lattice
import Mathlib.Logic.Function.Basic

/-!
# Relations between rows

A type lists its members, an owner has generic parameters and a type has types
nested in it.  Each of these is looked up from both sides: a list from the side
of the owner, and the owner of each row that is listed.  In whatever was built
the two sides agree (`Image.IsConsistent`).

The tables keep a relation once and both sides are read off.  They may also be
kept as maps that each call has its entries put into (`Relations.note`), with
the owners of members filled in at the end, type by type (`ownersOf`).  The maps
say the same (`ModuleBuilder.relations_applyAll`).

What is true after every call (`Tables.AreRelated`) is said of whole tables: all
lists of members one behind the other are the rows of a table in some order, the
nested types are some of the types in their order, and the positions of the
generic parameters of one owner count from zero.  None of these needs tables to
be small; that tokens tell rows apart is used to read the relations off in the
end (`ModuleBuilder.IsBuilt.isConsistent`).
-/

namespace CliMetadata

open ModuleBuilder

/-! ### The two sides of a relation -/

/-- The owners of members, filled in type by type; of several types that list
one member the last is its owner. -/
def ownersOf (members : TypeDefRow → List Token) (types : List TypeDefRow) :
    Token → Option Token :=
  types.foldl
    (fun owners type => (members type).foldl
      (fun owners member => Function.update owners member (some type.token))
        owners)
    fun _ => none

/-- The types list the rows of a table, each once, and are found as the owners
of what they list. -/
structure Image.ListsMembers {ρ : Type} (image : Image)
    (members : TypeDefRow → List Token) (row? : Token → Option ρ)
    (owner? : Token → Option Token) (token : ρ → Token) (rows : Array ρ) :
    Prop where
  once : (image.tables.typeDefs.toList.flatMap members).Nodup
  listed : ∀ type ∈ image.tables.typeDefs, ∀ member ∈ members type,
    owner? member = some type.token ∧
      ∃ row, row? member = some row ∧ token row = member
  owned : ∀ row ∈ rows, ∃ type ∈ image.tables.typeDefs,
    token row ∈ members type ∧ owner? (token row) = some type.token
  filledIn : owner? = ownersOf members image.tables.typeDefs.toList

/-- The relations of a module agree on both sides. -/
structure Image.IsConsistent (image : Image) : Prop where
  types : ∀ type ∈ image.tables.typeDefs, image.typeDef? type.token = some type
  methods : image.ListsMembers TypeDefRow.methods image.methodDef?
    image.methodOwner? MethodDefRow.token image.tables.methodDefs
  fields : image.ListsMembers TypeDefRow.fields image.field? image.fieldOwner?
    FieldRow.token image.tables.fields
  enclosing_iff : ∀ nested enclosing,
    image.enclosing? nested = some enclosing ↔ nested ∈ image.nestedIn enclosing
  nestedOnce : ∀ enclosing, (image.nestedIn enclosing).Nodup
  genericParam : ∀ owner i param,
    (image.genericParamsOf owner)[i]? = some param →
    ∃ row, image.genericParam? param = some row ∧ row.token = param ∧
      row.owner = owner ∧
      row.position.toNat = i
  genericParamRow : ∀ row ∈ image.tables.genericParams,
    (image.genericParamsOf row.owner)[row.position.toNat]? = some row.token

/-- Relations as maps. -/
structure Relations where
  genericParams : Token → List Token
  nested : Token → List Token
  enclosing : Token → Option Token

/-- The relations that a module has. -/
def Image.relations (image : Image) : Relations where
  genericParams := image.genericParamsOf
  nested := image.nestedIn
  enclosing := image.enclosing?

/-- Puts the entries of a call that answered a token into the maps. -/
def Relations.note (relations : Relations) :
    Call × Except Error Token → Relations
  | (.nestedTypeDef enclosing _ _ _ _, .ok token) =>
    { relations with
      nested := Function.update relations.nested enclosing
        (relations.nested enclosing ++ [token])
      enclosing := Function.update relations.enclosing token (some enclosing) }
  | (.genericParam owner _ _, .ok token) =>
    { relations with
      genericParams :=
        Function.update relations.genericParams owner
          (relations.genericParams owner ++ [token]) }
  | _ => relations

/-! ### Lists of members -/

section
variable {members : TypeDefRow → List Token} {types : List TypeDefRow}

/-- What a change does not touch is said of the same types after it. -/
theorem map_modify {α : Type} {say : TypeDefRow → α}
    {change : TypeDefRow → TypeDefRow} (index : Nat)
    (kept : ∀ type, say (change type) = say type) :
    (types.modify index change).map say = types.map say := by
  refine List.ext_getElem (by simp) fun i hi hi' => ?_
  rw [List.getElem_map, List.getElem_map, List.getElem_modify]
  split
  · exact kept _
  · rfl

/-- A member that comes to the list of one type comes to all lists together. -/
theorem flatMap_modify {change : TypeDefRow → TypeDefRow} {index : Nat}
    {member : Token} (inside : index < types.length)
    (added : ∀ type, members (change type) = members type ++ [member]) :
    ((types.modify index change).flatMap members).Perm
      (types.flatMap members ++ [member]) := by
  induction types generalizing index with
  | nil => cases inside
  | cons type types ih =>
    cases index with
    | zero =>
      -- The type itself lists the new member behind its own.
      rw [List.modify_zero_cons, List.flatMap_cons, List.flatMap_cons, added,
        List.append_assoc, List.append_assoc]
      exact List.perm_append_comm.append_left _
    | succ index =>
      rw [List.modify_succ_cons, List.flatMap_cons, List.flatMap_cons,
        List.append_assoc]
      exact (ih (Nat.lt_of_succ_lt_succ inside)).append_left _

/-- The members in one list are filled in, and nothing else is. -/
@[simp]
theorem foldl_update (owner member : Token) (owners : Token → Option Token)
    (list : List Token) :
    list.foldl (fun owners member => Function.update owners member (some owner))
      owners member
      = if member ∈ list then some owner else owners member := by
  induction list generalizing owners with
  | nil => rfl
  | cons first list ih =>
    rw [List.foldl_cons, ih]
    by_cases same : member = first
    · simp [same]
    · simp [same]

/-- Where each member is listed once, its owner is the first type that lists it
too. -/
theorem ownersOf_eq (once : (types.flatMap members).Nodup) (member : Token) :
    ownersOf members types member
      = (types.find? fun type => (members type).contains member).map
        (·.token) := by
  suffices filled : ∀ owners : Token → Option Token,
      types.foldl (fun owners type => (members type).foldl
          (fun owners member => Function.update owners member (some type.token))
            owners) owners member
        = ((types.find? fun type => (members type).contains member).map
          (·.token)).or (owners member) by
    exact (filled _).trans (Option.or_none ..)
  induction types with
  | nil => exact fun owners => rfl
  | cons type types ih =>
    intro owners
    rw [List.flatMap_cons] at once
    obtain ⟨-, rest, apart⟩ := List.nodup_append.mp once
    rw [List.foldl_cons, ih rest, foldl_update]
    by_cases listed : member ∈ members type
    · -- No other type lists the member.
      have none : types.find? (fun type => (members type).contains member)
          = none := by
        rw [List.find?_eq_none]
        intro other hother again
        exact apart member listed member
          (List.mem_flatMap.mpr ⟨other, hother, by simpa using again⟩) rfl
      rw [none, List.find?_cons_of_pos (by simpa using listed), if_pos listed]
      rfl
    · rw [List.find?_cons_of_neg (by simpa using listed), if_neg listed]

end

/-! ### One more row -/

namespace Tables

/-- A generic parameter comes behind those that its owner has. -/
theorem genericParamsOf_push (tables : Tables) (row : GenericParamRow) :
    genericParamsOf { tables with genericParams := tables.genericParams.push row }
      = Function.update tables.genericParamsOf row.owner
          (tables.genericParamsOf row.owner ++ [row.token]) := by
  funext owner
  by_cases same : row.owner = owner
  · subst same
    simp [genericParamsOf]
  · rw [Function.update_of_ne (Ne.symm same)]
    simp [genericParamsOf, same]

/-- A nested type comes behind those that are nested in the same type. -/
theorem nestedIn_push (tables : Tables) (row : NestedClassRow) :
    nestedIn { tables with nestedClasses := tables.nestedClasses.push row }
      = Function.update tables.nestedIn row.enclosing
          (tables.nestedIn row.enclosing ++ [row.nested]) := by
  funext enclosing
  by_cases same : row.enclosing = enclosing
  · subst same
    simp [nestedIn]
  · rw [Function.update_of_ne (Ne.symm same)]
    simp [nestedIn, same]

/-- A type that was nested in none is nested in one. -/
theorem enclosing?_push (tables : Tables) {row : NestedClassRow}
    (fresh : row.nested ∉ tables.nestedClasses.toList.map
      NestedClassRow.nested) :
    enclosing? { tables with nestedClasses := tables.nestedClasses.push row }
      = Function.update tables.enclosing? row.nested (some row.enclosing) := by
  funext nested
  rw [enclosing?, Array.find?_push]
  by_cases same : row.nested = nested
  · -- No row for it was there before.
    subst same
    have none : tables.nestedClasses.find? (·.nested = row.nested) = none := by
      rw [Array.find?_eq_none]
      intro other member equal
      exact fresh (List.mem_map.mpr
        ⟨other, Array.mem_toList_iff.mpr member, of_decide_eq_true equal⟩)
    rw [none, Function.update_self]
    simp
  · rw [Function.update_of_ne (Ne.symm same), enclosing?]
    simp [same]

end Tables

/-! ### What every call keeps -/

/-- Tables whose relations are in order. -/
structure Tables.AreRelated (t : Tables) : Prop where
  methods : (t.typeDefs.toList.flatMap TypeDefRow.methods).Perm
    (t.methodDefs.toList.map MethodDefRow.token)
  fields : (t.typeDefs.toList.flatMap TypeDefRow.fields).Perm
    (t.fields.toList.map FieldRow.token)
  nested : (t.nestedClasses.toList.map NestedClassRow.nested).Sublist
    (t.typeDefs.toList.map TypeDefRow.token)
  positions : ∀ owner, (t.genericParams.toList.filter (·.owner = owner)).map
    (·.position)
    = (List.range (t.genericParamsOf owner).length).map UInt32.ofNat

namespace Tables.AreRelated

theorem empty : Tables.AreRelated {} where
  methods := .nil
  fields := .nil
  nested := .slnil
  positions _ := rfl

section
variable {ρ : Type} {members : TypeDefRow → List Token} {token : ρ → Token}
  {types : Array TypeDefRow} {rows : Array ρ} {change : TypeDefRow → TypeDefRow}
  {index : Nat}

/-- A type that lists nothing comes to the types. -/
theorem flatMap_push {type : TypeDefRow} (none : members type = []) :
    (types.push type).toList.flatMap members
      = types.toList.flatMap members := by
  simp [none]

/-- A type changes in other things than its members. -/
theorem perm_change
    (before : (types.toList.flatMap members).Perm (rows.toList.map token))
    (kept : ∀ type, members (change type) = members type) :
    ((types.modify index change).toList.flatMap members).Perm
      (rows.toList.map token) := by
  rw [Array.toList_modify, List.flatMap_def, map_modify index kept,
    ← List.flatMap_def]
  exact before

theorem sublist_change {nested : List Token}
    (before : nested.Sublist (types.toList.map (·.token)))
    (kept : ∀ type, (change type).token = type.token) :
    nested.Sublist ((types.modify index change).toList.map (·.token)) := by
  rw [Array.toList_modify, map_modify index kept]
  exact before

/-- A row comes to a table and to the list of one type. -/
theorem perm_add {row : ρ}
    (before : (types.toList.flatMap members).Perm (rows.toList.map token))
    (inside : index < types.size)
    (added : ∀ type, members (change type) = members type ++ [token row]) :
    ((types.modify index change).toList.flatMap members).Perm
      ((rows.push row).toList.map token) := by
  rw [Array.toList_modify, Array.toList_push, List.map_append,
    List.map_singleton]
  exact (flatMap_modify inside added).trans (before.append_right _)

end

/-- A type without members comes to the types. -/
theorem pushType {t : Tables} (h : t.AreRelated) {row : TypeDefRow}
    (methods : row.methods = []) (fields : row.fields = []) :
    Tables.AreRelated { t with typeDefs := t.typeDefs.push row } where
  methods := by
    rw [flatMap_push methods]
    exact h.methods
  fields := by
    rw [flatMap_push fields]
    exact h.fields
  nested := by
    rw [Array.toList_push, List.map_append]
    exact h.nested.trans (List.sublist_append_left _ _)
  positions := h.positions

theorem step {t later : Tables} {call : Call} {token : Token} (h : t.AreRelated)
    (step : t.Step call token later) : later.AreRelated := by
  cases step with
  | typeDef next methods fields => exact h.pushType methods fields
  | nestedTypeDef next methods fields =>
    -- The new row lists nothing and is nested in something.
    refine { h.pushType methods fields with nested := ?_ }
    rw [Array.toList_push, Array.toList_push, List.map_append, List.map_append,
      List.map_singleton, List.map_singleton, next.token_eq]
    exact h.nested.append_right _
  | methodDef next place =>
    -- The owner lists one method more, and nothing else is touched.
    exact { h with
      methods := perm_add h.methods place.inside fun type => by
        rw [next.token_eq]
      fields := perm_change h.fields fun type => rfl
      nested := sublist_change h.nested fun type => rfl }
  | field next place =>
    -- The owner lists one field more.
    exact { h with
      methods := perm_change h.methods fun type => rfl
      fields := perm_add h.fields place.inside fun type => by rw [next.token_eq]
      nested := sublist_change h.nested fun type => rfl }
  | @genericParam owner _ _ row next owned position =>
    -- The parameters of the owner are counted on.
    refine { h with positions := fun other => ?_ }
    rw [genericParamsOf_push, Array.toList_push, List.filter_append,
      List.map_append, h.positions]
    by_cases same : row.owner = other
    · subst same
      rw [Function.update_self, List.length_append, List.length_singleton,
        List.range_succ, List.map_append, List.filter_singleton]
      simp [owned, position]
    · rw [Function.update_of_ne (Ne.symm same)]
      simp [same]
  | _ => exact { h with }

end Tables.AreRelated

/-! ### Reading relations off -/

/-- A row is found by its token. -/
theorem RowsAreNumbered.rowAt?_eq {ρ : Type} {kind : TableKind}
    {token : ρ → Token} {rows : Array ρ}
    (named : RowsAreNumbered kind token rows) (small : rows.size < 2 ^ 24)
    {row : ρ} (member : row ∈ rows) :
    rowAt? kind rows (token row) = some row := by
  obtain ⟨i, place⟩ := Array.mem_iff_getElem?.mp member
  have inside : i < rows.size := (Array.getElem?_eq_some_iff.mp place).1
  rw [named i row place, rowAt?_ofParts kind rows (by omega), place]

/-- Where the lists of types are the rows of a table, the rows are found with
their owners. -/
theorem Image.ListsMembers.of_perm {ρ : Type} {image : Image} {kind : TableKind}
    {members : TypeDefRow → List Token} {owner? : Token → Option Token}
    {token : ρ → Token} {rows : Array ρ}
    (perm : (image.tables.typeDefs.toList.flatMap members).Perm
      (rows.toList.map token))
    (lists : AreListedOnce kind members image.tables.typeDefs rows.size)
    (named : RowsAreNumbered kind token rows) (small : rows.size < 2 ^ 24)
    (searched : ∀ member, owner? member = (image.tables.typeDefs.find?
      fun type => (members type).contains member).map (·.token)) :
    image.ListsMembers members (rowAt? kind rows) owner? token rows := by
  have once : (image.tables.typeDefs.toList.flatMap members).Nodup :=
    perm.nodup_iff.mpr (named.nodup small)
  have owner {type : TypeDefRow} (htype : type ∈ image.tables.typeDefs)
      {member : Token}
      (hmember : member ∈ members type) : owner? member = some type.token := by
    obtain ⟨i, place⟩ := Array.mem_iff_getElem?.mp htype
    rw [searched, lists.find?_eq small place hmember]
    rfl
  constructor
  · exact once
  · intro type htype member hmember
    have isRow : member ∈ rows.toList.map token :=
      perm.subset
        (List.mem_flatMap.mpr ⟨type, Array.mem_toList_iff.mpr htype, hmember⟩)
    obtain ⟨row, hrow, rfl⟩ := List.mem_map.mp isRow
    exact ⟨owner htype hmember, row,
      named.rowAt?_eq small (Array.mem_toList_iff.mp hrow), rfl⟩
  · intro row hrow
    have isListed : token row ∈ image.tables.typeDefs.toList.flatMap members :=
      perm.symm.subset (List.mem_map_of_mem (Array.mem_toList_iff.mpr hrow))
    obtain ⟨type, htype, hmember⟩ := List.mem_flatMap.mp isListed
    have htype := Array.mem_toList_iff.mp htype
    exact ⟨type, htype, hmember, owner htype hmember⟩
  · funext member
    rw [searched, ownersOf_eq once, Array.find?_toList]

namespace Tables

variable {t : Tables}

/-- Where no type is nested twice, both sides of nesting agree. -/
theorem enclosing?_eq_some_iff
    (once : (t.nestedClasses.toList.map NestedClassRow.nested).Nodup)
    (nested enclosing : Token) :
    t.enclosing? nested = some enclosing ↔ nested ∈ t.nestedIn enclosing := by
  have sides : nested ∈ t.nestedIn enclosing ↔
      ∃ row ∈ t.nestedClasses, row.enclosing = enclosing ∧
      row.nested = nested := by
    simp [nestedIn, and_assoc]
  rw [sides, enclosing?, Option.map_eq_some_iff]
  constructor
  · rintro ⟨row, found, rfl⟩
    exact ⟨row, Array.mem_of_find?_eq_some found, rfl,
      by simpa using Array.find?_some found⟩
  · rintro ⟨row, member, rfl, rfl⟩
    cases found : t.nestedClasses.find? (·.nested = row.nested) with
    | none => simpa using Array.find?_eq_none.mp found row member
    | some other =>
      have same : other.nested = row.nested := by
        simpa using Array.find?_some found
      have listed := Array.mem_toList_iff.mpr (Array.mem_of_find?_eq_some found)
      obtain rfl := List.inj_on_of_nodup_map once listed
        (Array.mem_toList_iff.mpr member) same
      exact ⟨other, rfl, rfl⟩

/-- The position of a generic parameter is its place among those of its
owner. -/
theorem AreRelated.position_eq (h : t.AreRelated)
    (small : t.genericParams.size < 2 ^ 24) {owner : Token} {i : Nat}
    {row : GenericParamRow}
    (place : (t.genericParams.toList.filter (·.owner = owner))[i]? = some row) :
    row.position.toNat = i := by
  have inside := (List.getElem?_eq_some_iff.mp place).1
  have few : (t.genericParams.toList.filter (·.owner = owner)).length
      ≤ t.genericParams.size :=
    List.length_filter_le _ _
  have counted := congrArg (·[i]?) (h.positions owner)
  rw [genericParamsOf, List.length_map] at counted
  simp only [List.getElem?_map, place, List.getElem?_range inside,
    Option.map_some, Option.some.injEq] at counted
  rw [counted, UInt32.toNat_ofNat', Nat.mod_eq_of_lt (by omega)]

end Tables

namespace ModuleBuilder

variable {b : ModuleBuilder}

theorem IsBuilt.areRelated (built : b.IsBuilt) : b.tables.AreRelated :=
  built.tables_induction .empty Tables.AreRelated.step

/-- No type is nested twice. -/
theorem IsBuilt.nestedOnce (built : b.IsBuilt)
    (small : b.tables.typeDefs.size < 2 ^ 24) :
    (b.tables.nestedClasses.toList.map NestedClassRow.nested).Nodup :=
  built.areRelated.nested.nodup (built.isNumbered.typeDefs.nodup small)

theorem IsBuilt.isConsistent (built : b.IsBuilt) (small : b.tables.AreSmall) :
    b.image.IsConsistent := by
  have related := built.areRelated
  have named := built.isNumbered
  constructor
  · exact fun type member => named.typeDefs.rowAt?_eq small.typeDefs member
  · exact .of_perm related.methods built.listsOnce.methods named.methodDefs
      small.methodDefs fun member => rfl
  · exact .of_perm related.fields built.listsOnce.fields named.fields
      small.fields fun member => rfl
  · exact Tables.enclosing?_eq_some_iff (built.nestedOnce small.typeDefs)
  · exact fun enclosing => (built.nestedOnce small.typeDefs).sublist
      (List.filter_sublist.map _)
  · intro owner i param place
    obtain ⟨row, hrow, rfl⟩ := Option.map_eq_some_iff.mp
      (List.getElem?_map.symm.trans place)
    obtain ⟨listed, owned⟩ := List.mem_filter.mp (List.mem_of_getElem? hrow)
    exact ⟨row, named.genericParams.rowAt?_eq small.genericParams
      (Array.mem_toList_iff.mp listed),
      rfl, of_decide_eq_true owned,
        related.position_eq small.genericParams hrow⟩
  · intro row member
    have listed : row ∈ b.tables.genericParams.toList.filter
        (·.owner = row.owner) :=
      List.mem_filter.mpr ⟨Array.mem_toList_iff.mpr member, decide_eq_true rfl⟩
    obtain ⟨i, place⟩ := List.mem_iff_getElem?.mp listed
    rw [related.position_eq small.genericParams place]
    exact List.getElem?_map.trans
      (congrArg (Option.map GenericParamRow.token) place)

/-! ### Relations as maps -/

/-- A step enters into the relations what its call and its token say. -/
theorem relations_step {b later : ModuleBuilder} {call : Call} {token : Token}
    (step : b.tables.Step call token later.tables)
    (once : (later.tables.nestedClasses.toList.map
      NestedClassRow.nested).Nodup) :
    later.image.relations = b.image.relations.note (call, .ok token) := by
  obtain ⟨assembly, t, strings, blobs⟩ := b
  obtain ⟨assembly', t', strings', blobs'⟩ := later
  cases step with
  | @nestedTypeDef enclosing _ _ _ _ row next methods fields =>
    have fresh : nextToken .typeDef t.typeDefs ∉ t.nestedClasses.toList.map
        NestedClassRow.nested := by
      rw [Array.toList_push, List.map_append] at once
      exact fun member =>
        (List.nodup_append.mp once).2.2 _ member _ (List.mem_singleton_self _) rfl
    exact congrArg₂ (Relations.mk t.genericParamsOf)
      (Tables.nestedIn_push { t with typeDefs := t.typeDefs.push row } _)
      (Tables.enclosing?_push { t with typeDefs := t.typeDefs.push row } fresh)
  | @genericParam owner _ _ row next owned position =>
    have params := t.genericParamsOf_push row
    rw [owned, next.token_eq] at params
    exact congrArg (Relations.mk · t.nestedIn t.enclosing?) params
  | _ => rfl

@[simp]
theorem note_error (relations : Relations) (call : Call) (error : Error) :
    relations.note (call, .error error) = relations := by
  cases call <;> rfl

@[simp]
theorem relations_apply (built : b.IsBuilt) (call : Call)
    (small : (b.apply call).2.tables.typeDefs.size < 2 ^ 24) :
    (b.apply call).2.image.relations
      = b.image.relations.note (call, (b.apply call).1) := by
  have once := (built.call call).nestedOnce small
  cases run : call.run.run b with
  | error error => simp [apply_of_error run]
  | ok out =>
    rw [apply_of_ok run] at once ⊢
    exact relations_step (step_of_run run) once

/-- The relations of a module are those that it had, with what each call
entered. -/
@[simp]
theorem relations_applyAll (built : b.IsBuilt) (calls : List Call)
    (small : (b.applyAll calls).tables.typeDefs.size < 2 ^ 24) :
    (b.applyAll calls).image.relations
      = (b.answers calls).foldl Relations.note b.image.relations := by
  induction calls generalizing b with
  | nil => rfl
  | cons call calls ih =>
    have grown := (extends_applyAll (b.apply call).2 calls).typeDefs.size_le
    rw [answers, List.foldl_cons,
      ← relations_apply built call (Nat.lt_of_le_of_lt grown small)]
    exact ih (built.call call) small

/-! ### Whatever calls are made -/

/-- Whatever calls a builder takes, the relations agree on both sides in the end
and are those that are kept call by call; and a call that fails on the way,
though it is run in place, leaves rows, relations and heaps as they were. -/
theorem IsBuilt.keepsRelations (built : b.IsBuilt) (calls : List Call)
    (small : (b.applyAll calls).tables.AreSmall) :
    (b.applyAll calls).image.IsConsistent ∧
      (b.applyAll calls).image.relations
        = (b.answers calls).foldl Relations.note b.image.relations ∧
      ∀ call, (b.applyAll calls).inPlace call = (b.applyAll calls).apply call ∧
        ∀ error, ((b.applyAll calls).inPlace call).1 = .error error →
          ((b.applyAll calls).inPlace call).2 = b.applyAll calls := by
  have consistent := (built.applyAll calls).isConsistent small
  have kept := relations_applyAll built calls small.typeDefs
  refine ⟨consistent, kept, fun call => ⟨inPlace_eq_apply _ call,
    fun error failed => ?_⟩⟩
  exact inPlace_of_error failed

/-- A type with two generic parameters, between which a method and a nested type
come, a method that takes a parameter too, and a method of no type of the
module. -/
def relatedSample : List Call :=
  [.typeDef "N" "Outer" .public .null,
    .genericParam ⟨0x02000002⟩ "T" ⟨0⟩,
    .methodDef ⟨0x02000002⟩ "Run" ⟨6⟩ (.instance_ (.primitive .void) []),
    .nestedTypeDef ⟨0x02000002⟩ "" "Inner" ⟨2⟩ .null,
    .genericParam ⟨0x06000001⟩ "V" ⟨0⟩,
    .methodDef ⟨0x02000004⟩ "Lost" ⟨6⟩ (.instance_ (.primitive .void) []),
    .genericParam ⟨0x02000002⟩ "U" ⟨0⟩]

theorem relatedSample_kept :
    let b := ModuleBuilder.new "App"
    let final := b.applyAll relatedSample
    b.IsBuilt ∧ final.tables.AreSmall ∧ final.image.IsConsistent ∧
      final.image.relations.genericParams ⟨0x02000002⟩
        = [⟨0x2A000001⟩, ⟨0x2A000003⟩] ∧
      final.image.relations.enclosing ⟨0x02000003⟩ = some ⟨0x02000002⟩ ∧
      (final.inPlace (.field ⟨0x01000001⟩ "lost" ⟨1⟩ ⟨[], .primitive .i4⟩)).2
        = final := by
  intro b final
  have small : final.tables.AreSmall := by constructor <;> decide
  obtain ⟨consistent, kept, inPlace⟩ :=
    IsBuilt.keepsRelations (.new "App") relatedSample small
  refine ⟨.new "App", small, consistent, ?_, ?_, ?_⟩
  · -- What is read off the rows is what the calls were given.
    rw [kept]
    decide
  · rw [kept]
    decide
  · exact (inPlace _).2 (.malformed (.foreignOwner ⟨0x01000001⟩)) rfl

end ModuleBuilder

end CliMetadata
