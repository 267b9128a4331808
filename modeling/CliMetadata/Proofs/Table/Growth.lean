import CliMetadata.Proofs.Heap.Storage
import CliMetadata.Proofs.Table.Steps

/-!
# What later calls change

A builder only adds.  Whatever calls follow, heaps and tables grow at their
ends, and of the rows that are there nothing changes but the lists of members of
types, which grow at their ends as well (`ModuleBuilder.Extends`).  Every call
extends the builder (`extends_run`), and so everything that is built extends a
builder with no rows (`IsBuilt.extends_empty`), which is where invariants come
from.
-/

namespace CliMetadata

/-! ### Tables that grow -/

/-- A row can be added at the end. -/
theorem prefix_push {ρ : Type} (rows : Array ρ) (row : ρ) :
    rows.toList <+: (rows.push row).toList := by
  rw [Array.toList_push]
  exact List.prefix_append _ _

/-- The later row of a type has the members of the earlier one, and maybe
more. -/
structure TypeDefRow.GrowsInto (row later : TypeDefRow) : Prop where
  columns :
    later = { row with methods := later.methods, fields := later.fields }
  methods : row.methods <+: later.methods
  fields : row.fields <+: later.fields

@[refl]
theorem TypeDefRow.GrowsInto.refl (row : TypeDefRow) : row.GrowsInto row :=
  ⟨rfl, List.prefix_refl _, List.prefix_refl _⟩

theorem TypeDefRow.GrowsInto.trans {first second third : TypeDefRow}
    (h : first.GrowsInto second) (h' : second.GrowsInto third) :
    first.GrowsInto third := by
  constructor
  · rw [h'.columns, h.columns]
  · exact h.methods.trans h'.methods
  · exact h.fields.trans h'.fields

/-- Types keep their places and grow. -/
def TypesGrow (types later : Array TypeDefRow) : Prop :=
  ∀ (i : Nat) (row : TypeDefRow), types[i]? = some row →
    ∃ grown, later[i]? = some grown ∧ row.GrowsInto grown

namespace TypesGrow

variable {types later : Array TypeDefRow}

@[refl]
theorem refl (types : Array TypeDefRow) : TypesGrow types types :=
  fun _ row h => ⟨row, h, .refl row⟩

theorem trans {last : Array TypeDefRow} (h : TypesGrow types later)
    (h' : TypesGrow later last) :
    TypesGrow types last := by
  intro i row hrow
  obtain ⟨second, hsecond, grows⟩ := h i row hrow
  obtain ⟨third, hthird, grows'⟩ := h' i second hsecond
  exact ⟨third, hthird, grows.trans grows'⟩

theorem push (types : Array TypeDefRow) (row : TypeDefRow) :
    TypesGrow types (types.push row) := by
  intro i old hold
  have inside : i < types.size := (Array.getElem?_eq_some_iff.mp hold).1
  refine ⟨old, ?_, .refl old⟩
  rw [Array.getElem?_push_lt inside]
  exact (Array.getElem?_eq_getElem inside).symm.trans hold

theorem modify (types : Array TypeDefRow) (index : Nat)
    {change : TypeDefRow → TypeDefRow}
    (grows : ∀ row : TypeDefRow, row.GrowsInto (change row)) :
    TypesGrow types (types.modify index change) := by
  intro i old hold
  rw [Array.getElem?_modify, hold]
  split
  · exact ⟨change old, rfl, grows old⟩
  · exact ⟨old, rfl, .refl old⟩

/-- No type gets lost. -/
theorem size_le (h : TypesGrow types later) : types.size ≤ later.size := by
  apply Nat.le_of_not_lt
  intro fewer
  obtain ⟨grown, hgrown, -⟩ := h later.size _ (Array.getElem?_eq_getElem fewer)
  rw [Array.getElem?_eq_none (Nat.le_refl _)] at hgrown
  cases hgrown

end TypesGrow

/-! ### Builders that grow -/

namespace ModuleBuilder

/-- The later builder has all of the earlier one, and maybe more.  The types
that it nests are types that it adds. -/
structure Extends (b later : ModuleBuilder) : Prop where
  strings : b.strings.layout.Precedes StringHeap.written later.strings.layout
  blobs : b.blobs.layout.Precedes BlobHeap.written later.blobs.layout
  assemblyRefs : b.tables.assemblyRefs.toList <+:
    later.tables.assemblyRefs.toList
  typeRefs : b.tables.typeRefs.toList <+: later.tables.typeRefs.toList
  typeDefs : TypesGrow b.tables.typeDefs later.tables.typeDefs
  typeSpecs : b.tables.typeSpecs.toList <+: later.tables.typeSpecs.toList
  methodDefs : b.tables.methodDefs.toList <+: later.tables.methodDefs.toList
  fields : b.tables.fields.toList <+: later.tables.fields.toList
  memberRefs : b.tables.memberRefs.toList <+: later.tables.memberRefs.toList
  genericParams : b.tables.genericParams.toList <+:
    later.tables.genericParams.toList
  nestedClasses : ∃ added, later.tables.nestedClasses.toList
    = b.tables.nestedClasses.toList ++ added ∧
    ∀ row ∈ added, ∃ number, b.tables.typeDefs.size < number ∧
      number ≤ later.tables.typeDefs.size ∧
      row.nested = Token.ofParts .typeDef (UInt32.ofNat number)

namespace Extends

@[refl]
theorem refl (b : ModuleBuilder) : b.Extends b where
  strings := .refl
  blobs := .refl
  assemblyRefs := List.prefix_refl _
  typeRefs := List.prefix_refl _
  typeDefs := .refl _
  typeSpecs := List.prefix_refl _
  methodDefs := List.prefix_refl _
  fields := List.prefix_refl _
  memberRefs := List.prefix_refl _
  genericParams := List.prefix_refl _
  nestedClasses := ⟨[], by simp⟩

theorem trans {first second third : ModuleBuilder} (h : first.Extends second)
    (h' : second.Extends third) : first.Extends third where
  strings := Relation.ReflTransGen.trans h.strings h'.strings
  blobs := Relation.ReflTransGen.trans h.blobs h'.blobs
  assemblyRefs := h.assemblyRefs.trans h'.assemblyRefs
  typeRefs := h.typeRefs.trans h'.typeRefs
  typeDefs := h.typeDefs.trans h'.typeDefs
  typeSpecs := h.typeSpecs.trans h'.typeSpecs
  methodDefs := h.methodDefs.trans h'.methodDefs
  fields := h.fields.trans h'.fields
  memberRefs := h.memberRefs.trans h'.memberRefs
  genericParams := h.genericParams.trans h'.genericParams
  -- Nested types of either part are numbered within that part.
  nestedClasses := by
    obtain ⟨added, split, numbered⟩ := h.nestedClasses
    obtain ⟨added', split', numbered'⟩ := h'.nestedClasses
    have more := h.typeDefs.size_le
    have more' := h'.typeDefs.size_le
    refine ⟨added ++ added', by simp [split', split], fun row member => ?_⟩
    rcases List.mem_append.mp member with member | member
    · obtain ⟨number, above, below, same⟩ := numbered row member
      exact ⟨number, above, Nat.le_trans below more', same⟩
    · obtain ⟨number, above, below, same⟩ := numbered' row member
      exact ⟨number, Nat.lt_of_le_of_lt more above, below, same⟩

end Extends

/-! ### Every call extends -/

open Build

variable (start : ModuleBuilder)

/-- An extension of a builder. -/
abbrev IsExtended (b : ModuleBuilder) : Prop := start.Extends b

theorem extends_typeDef (b : ModuleBuilder) (namespaceName name : String)
    (row : TypeDefRow) :
    b.Extends { b with
      strings := ((b.strings.add name).2.add namespaceName).2
      tables := { b.tables with typeDefs := b.tables.typeDefs.push row } } :=
  { Extends.refl b with
    strings := (b.strings.precedes_add name).trans
      (StringHeap.Builder.precedes_add _ _)
    typeDefs := .push _ _
    nestedClasses := ⟨[], by simp⟩ }

theorem extends_memberRefWith (parent : Token) (name : String)
    (blob : List UInt8) :
    Keeps (IsExtended start) (memberRefWith parent name blob) := by
  rintro b _ _ h ⟨⟩
  exact h.trans { Extends.refl b with
    strings := b.strings.precedes_add name
    blobs := b.blobs.precedes_add blob
    memberRefs := prefix_push _ _ }

theorem extends_run : (call : Call) → Keeps (IsExtended start) call.run
  | .assemblyRef name => by
    rintro b _ _ h ⟨⟩
    exact h.trans { Extends.refl b with
      strings := b.strings.precedes_add name
      assemblyRefs := prefix_push _ _ }
  | .typeRef scope namespaceName name => by
    rintro b _ _ h ⟨⟩
    exact h.trans { Extends.refl b with
      strings := (b.strings.precedes_add name).trans
        (StringHeap.Builder.precedes_add _ _)
      typeRefs := prefix_push _ _ }
  | .typeDef namespaceName name flags base => by
    rintro b _ _ h ⟨⟩
    exact h.trans (extends_typeDef b namespaceName name _)
  | .nestedTypeDef enclosing namespaceName name flags base => by
    rintro b _ _ h ⟨⟩
    refine h.trans { extends_typeDef b namespaceName name _
      with nestedClasses := ?_ }
    refine ⟨[_], Array.toList_push, fun row member => ?_⟩
    rw [List.mem_singleton.mp member]
    exact ⟨b.tables.typeDefs.size + 1, Nat.lt_succ_self _,
      (Array.size_push _).ge, rfl⟩
  | .typeSpec signature => by
    refine keeps_lift_bind fun blob => ?_
    rintro b _ _ h ⟨⟩
    exact h.trans { Extends.refl b with
      blobs := b.blobs.precedes_add blob
      typeSpecs := prefix_push _ _ }
  | .methodDef owner name flags signature => by
    refine keeps_lift_bind fun blob => Keeps.bind ?_ fun index => ?_
    · exact Keeps.get.bind fun _ => Keeps.ite (Keeps.pure _) (Keeps.throw _)
    rintro b _ _ h ⟨⟩
    -- The row of the owner lists one method more.
    have grows (row : TypeDefRow) (method : Token) :
        row.GrowsInto { row with methods := row.methods ++ [method] } :=
      ⟨rfl, List.prefix_append _ _, List.prefix_refl _⟩
    exact h.trans { Extends.refl b with
      strings := b.strings.precedes_add name
      blobs := b.blobs.precedes_add blob
      methodDefs := prefix_push _ _
      typeDefs := .modify _ index fun row => grows row _
      nestedClasses := ⟨[], by simp⟩ }
  | .field owner name flags signature => by
    refine keeps_lift_bind fun blob => Keeps.bind ?_ fun index => ?_
    · exact Keeps.get.bind fun _ => Keeps.ite (Keeps.pure _) (Keeps.throw _)
    rintro b _ _ h ⟨⟩
    -- The row of the owner lists one field more.
    have grows (row : TypeDefRow) (field : Token) :
        row.GrowsInto { row with fields := row.fields ++ [field] } :=
      ⟨rfl, List.prefix_refl _, List.prefix_append _ _⟩
    exact h.trans { Extends.refl b with
      strings := b.strings.precedes_add name
      blobs := b.blobs.precedes_add blob
      fields := prefix_push _ _
      typeDefs := .modify _ index fun row => grows row _
      nestedClasses := ⟨[], by simp⟩ }
  | .methodRef parent name signature =>
    keeps_lift_bind fun blob => extends_memberRefWith start parent name blob
  | .fieldRef parent name signature =>
    keeps_lift_bind fun blob => extends_memberRefWith start parent name blob
  | .genericParam owner name flags => by
    rintro b _ _ h ⟨⟩
    exact h.trans { Extends.refl b with
      strings := b.strings.precedes_add name
      genericParams := prefix_push _ _ }
  | .customAttribute parent constructor arguments => by
    refine keeps_lift_bind fun blob => ?_
    rintro b _ _ h ⟨⟩
    exact h.trans { Extends.refl b with blobs := b.blobs.precedes_add blob }
  | .classLayout parent packing size => by
    rintro b _ _ h ⟨⟩
    exact h.trans { Extends.refl b with }

/-- A call extends the builder, whether it succeeds or not. -/
theorem extends_apply (b : ModuleBuilder) (call : Call) :
    b.Extends (b.apply call).2 := by
  cases run : call.run.run b with
  | error error => rw [apply_of_error run]
  | ok out =>
    rw [apply_of_ok run]
    exact extends_run b call b _ _ (.refl b) run

theorem extends_applyAll (b : ModuleBuilder) (calls : List Call) :
    b.Extends (b.applyAll calls) := by
  induction calls generalizing b with
  | nil => exact .refl b
  | cons call calls ih =>
    exact (extends_apply b call).trans (ih (b.apply call).2)

/-- Whatever was built started without rows. -/
theorem IsBuilt.extends_empty {b : ModuleBuilder} (h : b.IsBuilt) :
    Extends { assembly := "" } b := by
  have start (assembly : String) :
      IsExtended { assembly := "" } (ModuleBuilder.new assembly) :=
    extends_run _ (.typeDef "" "<Module>" ⟨0⟩ .null) { assembly } _ _
      { Extends.refl _ with } rfl
  exact IsBuilt.keeps start (extends_run _) h

end ModuleBuilder

end CliMetadata
