import CliMetadata.Proofs.Table.Ownership
import Mathlib.Data.List.Nodup

/-!
# Numbers of rows

The rows of a table are told by numbers that go from one up without a gap, and
by tokens that have these numbers in them (`IsDense`).  A call gives its row the
number after that of all rows that are there.  Where rows are only added this
keeps a table dense, and so are all tables but one in whatever was built
(`ModuleBuilder.IsBuilt.areDense`).

The layouts of types are the exception, since a type has one layout: a call that
states it anew takes the old row away, but takes the number after it.  The
number of the row that went is then given to no row any more, and the one that
came is given once more by the next call.  So the layouts are dense as long as
no type states its layout twice, and never after one has
(`ModuleBuilder.isDense_classLayouts_iff`).
-/

namespace CliMetadata

open ModuleBuilder

/-- Each table has fewer rows than tokens can tell apart. -/
structure Tables.AreSmall (tables : Tables) : Prop where
  assemblyRefs : tables.assemblyRefs.size < 2 ^ 24
  typeRefs : tables.typeRefs.size < 2 ^ 24
  typeDefs : tables.typeDefs.size < 2 ^ 24
  typeSpecs : tables.typeSpecs.size < 2 ^ 24
  methodDefs : tables.methodDefs.size < 2 ^ 24
  fields : tables.fields.size < 2 ^ 24
  memberRefs : tables.memberRefs.size < 2 ^ 24
  genericParams : tables.genericParams.size < 2 ^ 24
  customAttributes : tables.customAttributes.size < 2 ^ 24
  classLayouts : tables.classLayouts.size < 2 ^ 24

/-! ### Dense tables -/

/-- The numbers of the rows are those from one up, each once, and no two rows
have one token. -/
structure IsDense {ρ : Type} (number : ρ → UInt32) (token : ρ → Token)
    (rows : Array ρ) : Prop where
  numbers : (rows.toList.map fun row => (number row).toNat).Perm
    (List.range' 1 rows.size)
  tokens : (rows.toList.map token).Nodup

/-- What rows say by their places is said in the order of these. -/
theorem RowsSay.map_eq {ρ α : Type} {say : ρ → α} {said : Nat → α}
    {rows : Array ρ} (h : RowsSay say said rows) :
    rows.toList.map say = (List.range' 1 rows.size).map said := by
  refine List.ext_getElem (by simp) fun i hi hi' => ?_
  rw [List.length_map, Array.length_toList] at hi
  rw [List.getElem_map, List.getElem_map, Array.getElem_toList,
    List.getElem_range', Nat.one_mul, Nat.add_comm 1 i]
  exact h i _ (Array.getElem?_eq_getElem hi)

section
variable {ρ : Type} {kind : TableKind} {number : ρ → UInt32} {token : ρ → Token}
  {rows : Array ρ}

/-- Tokens of places tell rows apart. -/
theorem RowsAreNumbered.nodup (named : RowsAreNumbered kind token rows)
    (small : rows.size < 2 ^ 24) : (rows.toList.map token).Nodup := by
  rw [(RowsAreNumbered.iff_rowsSay.mp named).map_eq]
  refine List.Nodup.map_on (fun m hm n hn same => ?_) List.nodup_range'
  rw [List.mem_range'_1] at hm hn
  exact Token.ofParts_inj (by omega) (by omega) same

/-- Rows that are told by their places are dense. -/
theorem IsCounted.isDense (h : IsCounted kind number token rows)
    (small : rows.size < 2 ^ 24) :
    IsDense number token rows where
  numbers := by
    have numbers : RowsSay (fun row => (number row).toNat)
        (fun n => (UInt32.ofNat n).toNat) rows :=
      fun i row place => congrArg UInt32.toNat (h.numbers i row place)
    refine List.Perm.of_eq (numbers.map_eq.trans ?_)
    refine (List.map_congr_left fun n member => ?_).trans (List.map_id _)
    rw [List.mem_range'_1] at member
    rw [UInt32.toNat_ofNat', Nat.mod_eq_of_lt (by omega)]
    rfl
  tokens := h.tokens.nodup small

/-- A number from one up to that of rows is on no row. -/
def SkipsNumber (number : ρ → UInt32) (rows : Array ρ) : Prop :=
  ∃ skipped, 1 ≤ skipped ∧ skipped ≤ rows.size ∧
    ∀ row ∈ rows, (number row).toNat ≠ skipped

/-- Where a number is skipped, the rows are not dense. -/
theorem SkipsNumber.not_isDense (skips : SkipsNumber number rows) :
    ¬ IsDense number token rows := by
  intro dense
  obtain ⟨skipped, positive, inside, absent⟩ := skips
  have member : skipped ∈ List.range' 1 rows.size := by
    rw [List.mem_range'_1]
    omega
  rw [← dense.numbers.mem_iff, List.mem_map] at member
  obtain ⟨row, hrow, same⟩ := member
  exact absent row (Array.mem_toList_iff.mp hrow) same

end

/-! ### Tables that only grow -/

/-- All tables but that of the layouts are dense. -/
structure Tables.AreDense (tables : Tables) : Prop where
  assemblyRefs : IsDense AssemblyRefRow.number AssemblyRefRow.token
    tables.assemblyRefs
  typeRefs : IsDense TypeRefRow.number TypeRefRow.token tables.typeRefs
  typeDefs : IsDense TypeDefRow.number TypeDefRow.token tables.typeDefs
  typeSpecs : IsDense TypeSpecRow.number TypeSpecRow.token tables.typeSpecs
  methodDefs : IsDense MethodDefRow.number MethodDefRow.token tables.methodDefs
  fields : IsDense FieldRow.number FieldRow.token tables.fields
  memberRefs : IsDense MemberRefRow.number MemberRefRow.token tables.memberRefs
  genericParams : IsDense GenericParamRow.number GenericParamRow.token
    tables.genericParams
  customAttributes : IsDense CustomAttributeRow.number CustomAttributeRow.token
    tables.customAttributes

/-- In whatever was built all tables but one are dense. -/
theorem ModuleBuilder.IsBuilt.areDense {b : ModuleBuilder} (built : b.IsBuilt)
    (small : b.tables.AreSmall) : b.image.tables.AreDense where
  assemblyRefs := built.areCounted.assemblyRefs.isDense small.assemblyRefs
  typeRefs := built.areCounted.typeRefs.isDense small.typeRefs
  typeDefs := built.areCounted.typeDefs.isDense small.typeDefs
  typeSpecs := built.areCounted.typeSpecs.isDense small.typeSpecs
  methodDefs := built.areCounted.methodDefs.isDense small.methodDefs
  fields := built.areCounted.fields.isDense small.fields
  memberRefs := built.areCounted.memberRefs.isDense small.memberRefs
  genericParams := built.areCounted.genericParams.isDense small.genericParams
  customAttributes := built.areCounted.customAttributes.isDense
    small.customAttributes

/-! ### Layouts of types -/

/-- The type whose layout a call states. -/
def ModuleBuilder.Call.layoutParent? : Call → Option Token
  | .classLayout parent _ _ => some parent
  | _ => none

/-- The layouts are those of the types that have stated one.  Their rows are
counted as long as no type has stated its layout twice; from then on a number is
skipped. -/
structure StatesLayouts (layouts : Array ClassLayoutRow)
    (parents : List Token) : Prop where
  once : (layouts.toList.map (·.parent)).Nodup
  mem_iff : ∀ parent, parent ∈ layouts.toList.map (·.parent) ↔ parent ∈ parents
  counted : parents.Nodup →
    IsCounted .classLayout ClassLayoutRow.number ClassLayoutRow.token layouts
  skips : ¬ parents.Nodup → layouts.size < 2 ^ 24 →
    SkipsNumber ClassLayoutRow.number layouts

namespace StatesLayouts

variable {layouts : Array ClassLayoutRow} {parents : List Token}
  {row : ClassLayoutRow} {parent : Token}

theorem empty : StatesLayouts #[] [] where
  once := List.nodup_nil
  mem_iff _ := Iff.rfl
  counted _ := .empty
  skips twice := absurd List.nodup_nil twice

variable (layouts) in
/-- The layouts of all types but one. -/
abbrev others (parent : Token) :
    Array ClassLayoutRow := layouts.filter (·.parent ≠ parent)

theorem map_others (parent : Token) :
    (others layouts parent).toList.map (·.parent)
      = (layouts.toList.map (·.parent)).filter (· ≠ parent) := by
  rw [Array.toList_filter, List.filter_map]
  rfl

@[simp]
theorem others_eq (fresh : parent ∉ layouts.toList.map (·.parent)) :
    others layouts parent = layouts := by
  refine Array.filter_eq_self.mpr fun row member => decide_eq_true
    fun same => fresh ?_
  exact List.mem_map.mpr ⟨row, Array.mem_toList_iff.mpr member, same⟩

/-- A type that has a layout has one. -/
theorem size_others (once : (layouts.toList.map (·.parent)).Nodup)
    (stated : parent ∈ layouts.toList.map (·.parent)) :
    (others layouts parent).size + 1 = layouts.size := by
  calc (others layouts parent).size + 1
      = ((others layouts parent).toList.map (·.parent)).length + 1 := by
        rw [List.length_map, Array.length_toList]
    _ = ((layouts.toList.map (·.parent)).erase parent).length + 1 := by
        rw [map_others, once.erase_eq_filter]
        simp only [ne_eq, decide_not, bne, beq_eq_decide]
    _ = layouts.size := by
        simp [List.length_erase_add_one stated]

theorem size_le_others (once : (layouts.toList.map (·.parent)).Nodup)
    (parent : Token) :
    layouts.size ≤ (others layouts parent).size + 1 := by
  by_cases stated : parent ∈ layouts.toList.map (·.parent)
  · exact Nat.le_of_eq (size_others once stated).symm
  · rw [others_eq stated]
    exact Nat.le_succ _

/-- The number of a row that goes is on no other row. -/
theorem absent_others (counted : RowsCount ClassLayoutRow.number layouts)
    (small : layouts.size < 2 ^ 24) {i : Nat} (place : layouts[i]? = some row) :
    ∀ other ∈ others layouts row.parent, other.number.toNat ≠ i + 1 := by
  intro other member same
  obtain ⟨kept, different⟩ := Array.mem_filter.mp member
  obtain ⟨j, hj⟩ := Array.mem_iff_getElem?.mp kept
  have inside : j < layouts.size := (Array.getElem?_eq_some_iff.mp hj).1
  rw [counted j other hj, UInt32.toNat_ofNat', Nat.mod_eq_of_lt (by omega)]
    at same
  obtain rfl : j = i := by omega
  rw [hj] at place
  cases place
  simp at different

/-- When a type has stated its layout twice, the number that was skipped before
is on no other row, or else that of the row that goes. -/
theorem exists_skipped (h : StatesLayouts layouts parents)
    (twice : ¬ (parents ++ [parent]).Nodup) (small : layouts.size < 2 ^ 24) :
    ∃ skipped, 1 ≤ skipped ∧ skipped ≤ layouts.size ∧
      ∀ other ∈ others layouts parent, other.number.toNat ≠ skipped := by
  by_cases before : parents.Nodup
  · -- The parent is stated for the second time now, and its number is lost.
    have stated : parent ∈ layouts.toList.map (·.parent) := by
      rw [h.mem_iff]
      by_contra fresh
      exact twice (before.append (List.nodup_singleton _)
        (List.disjoint_singleton.mpr fresh))
    obtain ⟨row, member, rfl⟩ := List.mem_map.mp stated
    obtain ⟨i, place⟩ := Array.mem_iff_getElem?.mp
      (Array.mem_toList_iff.mp member)
    have inside : i < layouts.size := (Array.getElem?_eq_some_iff.mp place).1
    exact ⟨i + 1,
      by omega, by omega, absent_others (h.counted before).numbers small place⟩
  · -- A number was lost before, and no later one fills it.
    obtain ⟨skipped, positive, inside, absent⟩ := h.skips before small
    refine ⟨skipped, positive, inside, fun other member => absent other ?_⟩
    exact (Array.mem_filter.mp member).1

/-- A type states its layout. -/
theorem state (h : StatesLayouts layouts parents)
    (next : IsNext .classLayout ClassLayoutRow.number ClassLayoutRow.token
      layouts row) :
    StatesLayouts ((others layouts row.parent).push row)
      (parents ++ [row.parent]) where
  once := by
    rw [Array.toList_push, List.map_append, List.map_singleton, map_others]
    refine (h.once.filter _).append (List.nodup_singleton _) ?_
    exact List.disjoint_singleton.mpr fun member => by
      simpa using List.of_mem_filter member
  mem_iff parent := by
    rw [Array.toList_push, List.map_append, List.map_singleton, map_others,
      List.mem_append,
      List.mem_append, List.mem_filter, h.mem_iff, List.mem_singleton]
    by_cases same : parent = row.parent <;> simp [same]
  counted nodup := by
    obtain ⟨before, -, fresh⟩ := List.nodup_append.mp nodup
    rw [others_eq fun stated => fresh _ ((h.mem_iff _).mp stated) _
      (List.mem_singleton_self _) rfl]
    exact (h.counted before).push next
  skips twice small := by
    have grown := size_le_others h.once row.parent
    rw [Array.size_push] at small
    obtain ⟨skipped, positive, inside, absent⟩ :=
      h.exists_skipped twice (by omega)
    -- The number of the new row is above those of all rows, and so above the
    -- one that is skipped.
    have number : (nextNumber layouts).toNat = layouts.size + 1 := by
      rw [nextNumber, UInt32.toNat_ofNat', Nat.mod_eq_of_lt (by omega)]
    refine ⟨skipped, positive,
      by rw [Array.size_push]; omega, fun other member => ?_⟩
    obtain member | rfl := Array.mem_push.mp member
    · exact absent other member
    · rw [next.number_eq, number]
      omega

/-- Layouts are dense exactly if no type has stated its layout twice. -/
theorem isDense_iff (h : StatesLayouts layouts parents)
    (small : layouts.size < 2 ^ 24) :
    IsDense ClassLayoutRow.number ClassLayoutRow.token layouts ↔
    parents.Nodup := by
  constructor
  · intro dense
    by_contra twice
    exact (h.skips twice small).not_isDense dense
  · intro nodup
    exact (h.counted nodup).isDense small

end StatesLayouts

namespace ModuleBuilder

theorem statesLayouts_step {t later : Tables} {call : Call} {token : Token}
    {parents : List Token} (h : StatesLayouts t.classLayouts parents)
    (step : t.Step call token later) :
    StatesLayouts later.classLayouts
      (parents ++ call.layoutParent?.toList) := by
  cases step with
  | classLayout next owned => exact owned ▸ h.state next
  | _ => exact (List.append_nil parents).symm ▸ h

/-- A call states the layout of a type, or leaves the layouts as they are. -/
theorem statesLayouts_apply {b : ModuleBuilder} {parents : List Token}
    (h : StatesLayouts b.tables.classLayouts parents) (call : Call) :
    StatesLayouts (b.apply call).2.tables.classLayouts
      (parents ++ call.layoutParent?.toList) := by
  cases run : call.run.run b with
  | error error =>
    -- To state a layout cannot fail.
    have other : call.layoutParent? = none := by
      cases call with
      | classLayout parent packing size => cases run
      | _ => rfl
    rw [apply_of_error run, other, Option.toList_none, List.append_nil]
    exact h
  | ok out =>
    rw [apply_of_ok run]
    exact statesLayouts_step h (step_of_run run)

theorem statesLayouts_applyAll (calls : List Call) {b : ModuleBuilder}
    {parents : List Token} (h : StatesLayouts b.tables.classLayouts parents) :
    StatesLayouts (b.applyAll calls).tables.classLayouts
      (parents ++ calls.filterMap Call.layoutParent?) := by
  induction calls generalizing b parents with
  | nil =>
    rw [List.filterMap_nil, List.append_nil]
    exact h
  | cons call calls ih =>
    have rest := ih (statesLayouts_apply h call)
    rw [List.append_assoc] at rest
    cases stated : call.layoutParent? with
    | none =>
      -- The call states no layout.
      rw [List.filterMap_cons_none stated]
      rwa [stated] at rest
    | some parent =>
      -- The call states one more.
      rw [List.filterMap_cons_some stated]
      rwa [stated] at rest

/-- The layouts of a module are dense exactly if no call has stated one for a
type that had one.  Everything that is built is built by calls
(`IsBuilt.exists_calls`). -/
theorem isDense_classLayouts_iff (assembly : String) (calls : List Call)
    (small : ((ModuleBuilder.new assembly).applyAll
      calls).tables.classLayouts.size < 2 ^ 24) :
    IsDense ClassLayoutRow.number ClassLayoutRow.token
        ((ModuleBuilder.new assembly).applyAll calls).image.tables.classLayouts
      ↔ (calls.filterMap Call.layoutParent?).Nodup := by
  have start : StatesLayouts (ModuleBuilder.new assembly).tables.classLayouts
      [] := .empty
  have stated := statesLayouts_applyAll calls start
  rw [List.nil_append] at stated
  exact stated.isDense_iff small

/-- Two types, of which the first states its layout twice: the layouts have one
token. -/
example : (((ModuleBuilder.new "App").applyAll
      [.typeDef "N" "A" ⟨1⟩ .null, .typeDef "N" "B" ⟨1⟩ .null,
        .classLayout ⟨0x02000002⟩ 4 8,
        .classLayout ⟨0x02000002⟩ 4 16,
        .classLayout ⟨0x02000003⟩ 8 32]).tables.classLayouts.toList.map
          fun row => (row.parent, row.number, row.token))
    = [(⟨0x02000002⟩, 2, ⟨0x0F000002⟩), (⟨0x02000003⟩, 2, ⟨0x0F000002⟩)] := by
  decide

end ModuleBuilder

end CliMetadata
