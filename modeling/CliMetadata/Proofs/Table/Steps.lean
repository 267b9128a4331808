import CliMetadata.Proofs.Table.Builder

/-!
# What one call does

A call that answers a token has changed the tables in one way that its name
tells (`Tables.Step`): a row under the next number has come to the end of a
table, and where the row is a member or is nested, so has an entry in one more
place.  This is said once, by opening each call; what holds of the tables of
everything that is built follows from the steps alone
(`ModuleBuilder.IsBuilt.tables_induction`).  The first of it is that rows are
counted (`Tables.AreCounted`), so that a row that is found by a token is the row
of that token (`Image.FindsOwnRows`).

A call that fails has changed nothing.  This is no matter of how its steps are
run: every call finds out what it needs before it changes anything, so that to
run it in place, where what was done stays done, is to run it with all that it
did given up in the end (`ModuleBuilder.inPlace_eq_apply`).
-/

namespace CliMetadata

open ModuleBuilder

/-! ### Changes of tables -/

/-- The token of the row that comes after the given ones. -/
abbrev ModuleBuilder.nextToken {ρ : Type} (kind : TableKind) (rows : Array ρ) :
    Token :=
  .ofParts kind (nextNumber rows)

/-- A row has the number and the token of the row that comes after the given
ones. -/
structure IsNext {ρ : Type} (kind : TableKind) (number : ρ → UInt32)
    (token : ρ → Token) (rows : Array ρ) (row : ρ) : Prop where
  number_eq : number row = nextNumber rows
  token_eq : token row = nextToken kind rows

/-- A token names a row of the types. -/
structure IsPlaceOf (types : Array TypeDefRow) (owner : Token) : Prop where
  valid : owner.isIn .typeDef ∧ ¬ owner.isNull
  inside : owner.row.toNat - 1 < types.size

/-- A call has answered a token, and the tables have become others. -/
inductive Tables.Step (t : Tables) : Call → Token → Tables → Prop
  | assemblyRef {name : String} {row : AssemblyRefRow}
      (next : IsNext .assemblyRef (·.number) (·.token) t.assemblyRefs row) :
      Step t (.assemblyRef name) (nextToken .assemblyRef t.assemblyRefs)
        { t with assemblyRefs := t.assemblyRefs.push row }
  | typeRef {scope : Token} {namespaceName name : String} {row : TypeRefRow}
      (next : IsNext .typeRef (·.number) (·.token) t.typeRefs row) :
      Step t (.typeRef scope namespaceName name) (nextToken .typeRef t.typeRefs)
        { t with typeRefs := t.typeRefs.push row }
  | typeDef {namespaceName name : String} {flags : TypeFlags} {base : Token}
      {row : TypeDefRow}
      (next : IsNext .typeDef (·.number) (·.token) t.typeDefs row)
      (methods : row.methods = []) (fields : row.fields = []) :
      Step t (.typeDef namespaceName name flags base)
        (nextToken .typeDef t.typeDefs)
        { t with typeDefs := t.typeDefs.push row }
  | nestedTypeDef {enclosing : Token} {namespaceName name : String}
      {flags : TypeFlags}
      {base : Token} {row : TypeDefRow}
      (next : IsNext .typeDef (·.number) (·.token) t.typeDefs row)
      (methods : row.methods = []) (fields : row.fields = []) :
      Step t (.nestedTypeDef enclosing namespaceName name flags base)
        (nextToken .typeDef t.typeDefs)
        { t with
          typeDefs := t.typeDefs.push row
          nestedClasses := t.nestedClasses.push
            ⟨nextToken .typeDef t.typeDefs, enclosing⟩ }
  | typeSpec {signature : TypeSig} {row : TypeSpecRow}
      (next : IsNext .typeSpec (·.number) (·.token) t.typeSpecs row) :
      Step t (.typeSpec signature) (nextToken .typeSpec t.typeSpecs)
        { t with typeSpecs := t.typeSpecs.push row }
  | methodDef {owner : Token} {name : String} {flags : MethodFlags}
      {signature : MethodSig}
      {row : MethodDefRow} (next : IsNext .methodDef (·.number)
        (·.token) t.methodDefs row)
      (place : IsPlaceOf t.typeDefs owner) :
      Step t (.methodDef owner name flags signature)
        (nextToken .methodDef t.methodDefs)
        { t with
          methodDefs := t.methodDefs.push row
          typeDefs := t.typeDefs.modify (owner.row.toNat - 1) fun type =>
            { type with methods := type.methods ++
              [nextToken .methodDef t.methodDefs] } }
  | field {owner : Token} {name : String} {flags : FieldFlags}
      {signature : FieldSig}
      {row : FieldRow} (next : IsNext .field (·.number) (·.token) t.fields row)
      (place : IsPlaceOf t.typeDefs owner) :
      Step t (.field owner name flags signature) (nextToken .field t.fields)
        { t with
          fields := t.fields.push row
          typeDefs := t.typeDefs.modify (owner.row.toNat - 1) fun type =>
            { type with fields := type.fields ++ [nextToken .field t.fields] } }
  | methodRef {parent : Token} {name : String} {signature : MethodSig}
      {row : MemberRefRow}
      (next : IsNext .memberRef (·.number) (·.token) t.memberRefs row) :
      Step t (.methodRef parent name signature)
        (nextToken .memberRef t.memberRefs)
        { t with memberRefs := t.memberRefs.push row }
  | fieldRef {parent : Token} {name : String} {signature : FieldSig}
      {row : MemberRefRow}
      (next : IsNext .memberRef (·.number) (·.token) t.memberRefs row) :
      Step t (.fieldRef parent name signature)
        (nextToken .memberRef t.memberRefs)
        { t with memberRefs := t.memberRefs.push row }
  | genericParam {owner : Token} {name : String} {flags : GenericParamFlags}
      {row : GenericParamRow}
      (next : IsNext .genericParam (·.number) (·.token) t.genericParams row)
      (owned : row.owner = owner)
      (position :
        row.position = UInt32.ofNat (t.genericParamsOf owner).length) :
      Step t (.genericParam owner name flags)
        (nextToken .genericParam t.genericParams)
        { t with genericParams := t.genericParams.push row }
  | customAttribute {parent constructor : Token} {arguments : List Argument}
      {row : CustomAttributeRow}
      (next : IsNext .customAttribute (·.number)
        (·.token) t.customAttributes row) :
      Step t (.customAttribute parent constructor arguments)
        (nextToken .customAttribute t.customAttributes)
        { t with customAttributes := t.customAttributes.push row }
  | classLayout {parent : Token} {packing : UInt16} {size : UInt32}
      {row : ClassLayoutRow}
      (next : IsNext .classLayout (·.number) (·.token) t.classLayouts row)
      (owned : row.parent = parent) :
      Step t (.classLayout parent packing size)
        (nextToken .classLayout t.classLayouts)
        { t with classLayouts :=
          (t.classLayouts.filter (·.parent ≠ parent)).push row }

/-! ### Opening a call -/

namespace ModuleBuilder

/-- A step that needs bytes has them where it succeeds. -/
theorem run_lift_bind {α β : Type} {encoded : Except Error α} {f : α → Build β}
    {b : ModuleBuilder} {out : β × ModuleBuilder}
    (h : (liftM encoded >>= f).run b = .ok out) :
    ∃ bytes, encoded = .ok bytes ∧ (f bytes).run b = .ok out := by
  cases encoded with
  | error error => cases h
  | ok bytes => exact ⟨bytes, rfl, h⟩

/-- A step that needs a type of the module has it where it succeeds. -/
theorem run_typeIndex_bind {β : Type} {owner : Token} {f : Nat → Build β}
    {b : ModuleBuilder} {out : β × ModuleBuilder}
    (h : (typeIndex owner >>= f).run b = .ok out) :
    (owner.isIn .typeDef ∧ ¬ owner.isNull) ∧
      owner.row.toNat - 1 < b.tables.typeDefs.size ∧
      (f (owner.row.toNat - 1)).run b = .ok out := by
  rw [StateT.run_bind] at h
  by_cases valid : owner.isIn .typeDef ∧ ¬ owner.isNull ∧
    owner.row.toNat ≤ b.tables.typeDefs.size
  · -- An owner that has a row is found, and nothing changes.
    have found :
        (typeIndex owner : Build Nat).run b = .ok (owner.row.toNat - 1, b) := by
      unfold typeIndex
      rw [StateT.run_bind, StateT.run_get]
      show StateT.run (ite _ _ _) b = _
      rw [if_pos valid]
      rfl
    have positive := Token.toNat_row_ne_zero valid.2.1
    rw [found] at h
    exact ⟨⟨valid.1, valid.2.1⟩, by omega, h⟩
  · -- Any other owner is refused.
    have refused : (typeIndex owner : Build Nat).run b
        = .error (.malformed (.foreignOwner owner)) := by
      unfold typeIndex
      rw [StateT.run_bind, StateT.run_get]
      show StateT.run (ite _ _ _) b = _
      rw [if_neg valid]
      rfl
    rw [refused] at h
    cases h

/-- Every call that answers a token is a step. -/
theorem step_of_run {b later : ModuleBuilder} {call : Call} {token : Token}
    (run : call.run.run b = .ok (token, later)) :
    b.tables.Step call token later.tables := by
  cases call with
  | assemblyRef name =>
    cases run
    exact .assemblyRef ⟨rfl, rfl⟩
  | typeRef scope namespaceName name =>
    cases run
    exact .typeRef ⟨rfl, rfl⟩
  | typeDef namespaceName name flags base =>
    cases run
    exact .typeDef ⟨rfl, rfl⟩ rfl rfl
  | nestedTypeDef enclosing namespaceName name flags base =>
    cases run
    exact .nestedTypeDef ⟨rfl, rfl⟩ rfl rfl
  | typeSpec signature =>
    obtain ⟨_, -, run⟩ := run_lift_bind run
    cases run
    exact .typeSpec ⟨rfl, rfl⟩
  | methodDef owner name flags signature =>
    obtain ⟨_, -, run⟩ := run_lift_bind run
    obtain ⟨valid, inside, run⟩ := run_typeIndex_bind run
    cases run
    exact .methodDef ⟨rfl, rfl⟩ ⟨valid, inside⟩
  | field owner name flags signature =>
    obtain ⟨_, -, run⟩ := run_lift_bind run
    obtain ⟨valid, inside, run⟩ := run_typeIndex_bind run
    cases run
    exact .field ⟨rfl, rfl⟩ ⟨valid, inside⟩
  | methodRef parent name signature =>
    obtain ⟨_, -, run⟩ := run_lift_bind run
    cases run
    exact .methodRef ⟨rfl, rfl⟩
  | fieldRef parent name signature =>
    obtain ⟨_, -, run⟩ := run_lift_bind run
    cases run
    exact .fieldRef ⟨rfl, rfl⟩
  | genericParam owner name flags =>
    cases run
    exact .genericParam ⟨rfl, rfl⟩ rfl rfl
  | customAttribute parent constructor arguments =>
    obtain ⟨_, -, run⟩ := run_lift_bind run
    cases run
    exact .customAttribute ⟨rfl, rfl⟩
  | classLayout parent packing size =>
    cases run
    exact .classLayout ⟨rfl, rfl⟩ rfl

/-! ### Everything that is built -/

/-- What holds of empty tables and is kept by steps holds of the tables of
everything that is built. -/
theorem IsBuilt.tables_induction {P : Tables → Prop} (empty : P {})
    (step : ∀ {t later : Tables} {call : Call} {token : Token},
      P t → t.Step call token later → P later)
    {b : ModuleBuilder} (built : b.IsBuilt) : P b.tables := by
  have calls (call : Call) : Build.Keeps (fun b => P b.tables) call.run :=
    fun _ _ _ h run => step h (step_of_run run)
  have start (assembly : String) : P (ModuleBuilder.new assembly).tables :=
    calls (.typeDef "" "<Module>" ⟨0⟩ .null) { assembly } _ _ empty rfl
  exact IsBuilt.keeps start calls built

theorem apply_of_ok {b later : ModuleBuilder} {call : Call} {token : Token}
    (run : call.run.run b = .ok (token, later)) :
    b.apply call = (.ok token, later) := by
  rw [apply, run]

theorem apply_of_error {b : ModuleBuilder} {call : Call} {error : Error}
    (run : call.run.run b = .error error) :
    b.apply call = (.error error, b) := by
  rw [apply, run]

/-- A call that answers a token has run. -/
theorem run_of_apply {b : ModuleBuilder} {call : Call} {token : Token}
    (answered : (b.apply call).1 = .ok token) :
    call.run.run b = .ok (token, (b.apply call).2) := by
  cases run : call.run.run b with
  | error error =>
    rw [apply_of_error run] at answered
    cases answered
  | ok out =>
    rw [apply_of_ok run] at answered ⊢
    cases answered
    rfl

@[simp]
theorem applyAll_append (b : ModuleBuilder) (calls calls' : List Call) :
    b.applyAll (calls ++ calls') = (b.applyAll calls).applyAll calls' :=
  List.foldl_append

/-- Everything that is built is built by calls, a core library too. -/
theorem IsBuilt.exists_calls {b : ModuleBuilder} (built : b.IsBuilt) :
    ∃ assembly calls, b = (ModuleBuilder.new assembly).applyAll calls := by
  refine IsBuilt.keeps (I := fun b => ∃ assembly calls,
    b = (ModuleBuilder.new assembly).applyAll calls)
    (fun assembly => ⟨assembly, [], rfl⟩) ?_ built
  rintro call _ token later ⟨assembly, calls, rfl⟩ run
  refine ⟨assembly, calls ++ [call], ?_⟩
  rw [applyAll_append]
  exact (congrArg Prod.snd (apply_of_ok run)).symm

end ModuleBuilder

/-! ### Rows that are counted -/

/-- The numbers and the tokens of the rows are those of their places. -/
structure IsCounted {ρ : Type} (kind : TableKind) (number : ρ → UInt32)
    (token : ρ → Token) (rows : Array ρ) : Prop where
  numbers : RowsCount number rows
  tokens : RowsAreNumbered kind token rows

namespace IsCounted

variable {ρ : Type} {kind : TableKind} {number : ρ → UInt32} {token : ρ → Token}
  {rows : Array ρ}

theorem empty : IsCounted kind number token #[] := ⟨.empty, .empty⟩

/-- The next row can be added. -/
theorem push (h : IsCounted kind number token rows) {row : ρ}
    (next : IsNext kind number token rows row) :
    IsCounted kind number token (rows.push row) :=
  ⟨h.numbers.push next.number_eq, h.tokens.push next.token_eq⟩

/-- A row may change in all but its number and its token. -/
theorem modify (h : IsCounted kind number token rows) (index : Nat)
    {change : ρ → ρ}
    (kept : ∀ row, number (change row) = number row ∧
      token (change row) = token row) :
    IsCounted kind number token (rows.modify index change) :=
  ⟨h.numbers.modify index fun row => (kept row).1,
    h.tokens.modify index fun row => (kept row).2⟩

end IsCounted

namespace Tables

/-- The rows of all tables that only grow are counted. -/
structure AreCounted (tables : Tables) : Prop where
  assemblyRefs : IsCounted .assemblyRef AssemblyRefRow.number
    AssemblyRefRow.token tables.assemblyRefs
  typeRefs : IsCounted .typeRef TypeRefRow.number TypeRefRow.token
    tables.typeRefs
  typeDefs : IsCounted .typeDef TypeDefRow.number TypeDefRow.token
    tables.typeDefs
  typeSpecs : IsCounted .typeSpec TypeSpecRow.number TypeSpecRow.token
    tables.typeSpecs
  methodDefs : IsCounted .methodDef MethodDefRow.number MethodDefRow.token
    tables.methodDefs
  fields : IsCounted .field FieldRow.number FieldRow.token tables.fields
  memberRefs : IsCounted .memberRef MemberRefRow.number MemberRefRow.token
    tables.memberRefs
  genericParams : IsCounted .genericParam GenericParamRow.number
    GenericParamRow.token tables.genericParams
  customAttributes : IsCounted .customAttribute CustomAttributeRow.number
    CustomAttributeRow.token tables.customAttributes

theorem AreCounted.empty : AreCounted {} :=
  ⟨.empty, .empty, .empty, .empty, .empty, .empty, .empty, .empty, .empty⟩

theorem AreCounted.step {t later : Tables} {call : Call} {token : Token}
    (h : t.AreCounted) (step : t.Step call token later) : later.AreCounted := by
  cases step with
  | assemblyRef next =>
    exact { h with assemblyRefs := h.assemblyRefs.push next }
  | typeRef next => exact { h with typeRefs := h.typeRefs.push next }
  | typeDef next => exact { h with typeDefs := h.typeDefs.push next }
  | nestedTypeDef next => exact { h with typeDefs := h.typeDefs.push next }
  | typeSpec next => exact { h with typeSpecs := h.typeSpecs.push next }
  | methodDef next =>
    refine { h with
      methodDefs := h.methodDefs.push next
      typeDefs := ?_ }
    dsimp only
    exact h.typeDefs.modify _ fun _ => ⟨rfl, rfl⟩
  | field next =>
    refine { h with
      fields := h.fields.push next
      typeDefs := ?_ }
    dsimp only
    exact h.typeDefs.modify _ fun _ => ⟨rfl, rfl⟩
  | methodRef next => exact { h with memberRefs := h.memberRefs.push next }
  | fieldRef next => exact { h with memberRefs := h.memberRefs.push next }
  | genericParam next =>
    exact { h with genericParams := h.genericParams.push next }
  | customAttribute next =>
    exact { h with customAttributes := h.customAttributes.push next }
  | classLayout => exact { h with }

end Tables

/-- The rows of all tables are numbered. -/
structure Tables.AreNumbered (tables : Tables) : Prop where
  assemblyRefs : RowsAreNumbered .assemblyRef AssemblyRefRow.token
    tables.assemblyRefs
  typeRefs : RowsAreNumbered .typeRef TypeRefRow.token tables.typeRefs
  typeDefs : RowsAreNumbered .typeDef TypeDefRow.token tables.typeDefs
  typeSpecs : RowsAreNumbered .typeSpec TypeSpecRow.token tables.typeSpecs
  methodDefs : RowsAreNumbered .methodDef MethodDefRow.token tables.methodDefs
  fields : RowsAreNumbered .field FieldRow.token tables.fields
  memberRefs : RowsAreNumbered .memberRef MemberRefRow.token tables.memberRefs
  genericParams : RowsAreNumbered .genericParam GenericParamRow.token
    tables.genericParams
  customAttributes : RowsAreNumbered .customAttribute CustomAttributeRow.token
    tables.customAttributes

namespace ModuleBuilder

theorem IsBuilt.areCounted {b : ModuleBuilder} (built : b.IsBuilt) :
    b.tables.AreCounted :=
  built.tables_induction .empty Tables.AreCounted.step

/-- The rows of whatever was built are numbered. -/
theorem IsBuilt.isNumbered {b : ModuleBuilder} (h : b.IsBuilt) :
    b.tables.AreNumbered where
  assemblyRefs := h.areCounted.assemblyRefs.tokens
  typeRefs := h.areCounted.typeRefs.tokens
  typeDefs := h.areCounted.typeDefs.tokens
  typeSpecs := h.areCounted.typeSpecs.tokens
  methodDefs := h.areCounted.methodDefs.tokens
  fields := h.areCounted.fields.tokens
  memberRefs := h.areCounted.memberRefs.tokens
  genericParams := h.areCounted.genericParams.tokens
  customAttributes := h.areCounted.customAttributes.tokens

end ModuleBuilder

/-! ### Finding rows -/

/-- A type or generic parameter that is found by a token has this token, and
members belong to types. -/
structure Image.FindsOwnRows (image : Image) : Prop where
  typeDef : ∀ {token : Token} {row : TypeDefRow},
    image.typeDef? token = some row →
    row.token = token
  isTypeDef : ∀ {token : Token} {row : TypeDefRow},
    image.typeDef? token = some row →
    token.isIn .typeDef ∧ ¬ token.isNull
  genericParam : ∀ {token : Token} {row : GenericParamRow},
    image.genericParam? token = some row →
    row.token = token
  methodOwner : ∀ {token owner : Token}, image.methodOwner? token = some owner →
    owner.isIn .typeDef
  fieldOwner : ∀ {token owner : Token}, image.fieldOwner? token = some owner →
    owner.isIn .typeDef

/-- The token of a row that is found by looking through a table is in this
table. -/
theorem RowsAreNumbered.isIn_of_find? {ρ : Type} {kind : TableKind}
    {token : ρ → Token} {rows : Array ρ} (h : RowsAreNumbered kind token rows)
    {p : ρ → Bool} {found : Token}
    (hfound : (rows.find? p).map token = some found) : found.isIn kind := by
  obtain ⟨row, hrow, rfl⟩ := Option.map_eq_some_iff.mp hfound
  obtain ⟨i, hi⟩ := Array.mem_iff_getElem?.mp (Array.mem_of_find?_eq_some hrow)
  rw [h i row hi]
  exact Token.isIn_ofParts kind _

theorem ModuleBuilder.IsBuilt.findsOwnRows {b : ModuleBuilder} (h : b.IsBuilt) :
    b.image.FindsOwnRows :=
  ⟨fun found => h.isNumbered.typeDefs.token_eq found, isIn_of_rowAt?,
    fun found => h.isNumbered.genericParams.token_eq found,
    h.isNumbered.typeDefs.isIn_of_find?, h.isNumbered.typeDefs.isIn_of_find?⟩

/-! ### Calls in place -/

namespace ModuleBuilder

open Build

/-- The answer to a call whose steps are run in place, and the builder after it:
with all that was done to it, after a failure too. -/
def inPlace (b : ModuleBuilder) (call : Call) :
    Except Error Token × ModuleBuilder :=
  (call.perform : BuildInPlace Token).run.run b

/-- Steps end alike in place and otherwise, from this builder. -/
def EndAlike {α : Type} (inPlace : BuildInPlace α) (build : Build α)
    (b : ModuleBuilder) : Prop :=
  inPlace.run.run b =
    match build.run b with
    | .ok (a, later) => (.ok a, later)
    | .error error => (.error error, b)

section
variable {α β : Type} {b : ModuleBuilder}

/-- Steps may come behind a search, which changes nothing. -/
theorem EndAlike.bind {search : BuildInPlace β} {search' : Build β}
    {inPlace : β → BuildInPlace α} {build : β → Build α}
    (alike : EndAlike search search' b)
    (unchanged : ∀ a later, search'.run b = .ok (a, later) → later = b)
    (behind : ∀ a, EndAlike (inPlace a) (build a) b) :
    EndAlike (search >>= inPlace) (search' >>= build) b := by
  cases run : search'.run b with
  | error error =>
    -- The search fails in both, and nothing was changed.
    rw [EndAlike, run] at alike
    rw [EndAlike, ExceptT.run_bind, StateT.run_bind,
      StateT.run_bind, alike, run]
    rfl
  | ok out =>
    obtain ⟨a, later⟩ := out
    -- The search changes nothing, so that both go on from here.
    obtain rfl := unchanged a later run
    rw [EndAlike, run] at alike
    rw [EndAlike, ExceptT.run_bind, StateT.run_bind,
      StateT.run_bind, alike, run]
    exact behind a

theorem EndAlike.ite {c : Prop} [Decidable c] {inPlace other : BuildInPlace α}
    {build other' : Build α} (first : EndAlike inPlace build b)
    (second : EndAlike other other' b) :
    EndAlike (if c then inPlace else other)
      (if c then build else other') b := by
  by_cases h : c
  · rwa [if_pos h, if_pos h]
  · rwa [if_neg h, if_neg h]

theorem EndAlike.lift_bind {encoded : Except Error β}
    {inPlace : β → BuildInPlace α} {build : β → Build α}
    (behind : ∀ bytes, EndAlike (inPlace bytes) (build bytes) b) :
    EndAlike (liftM encoded >>= inPlace) (liftM encoded >>= build) b := by
  cases encoded with
  | error error => rfl
  | ok bytes => exact behind bytes

theorem EndAlike.typeIndex_bind {owner : Token} {inPlace : Nat → BuildInPlace α}
    {build : Nat → Build α}
    (behind : ∀ index, EndAlike (inPlace index) (build index) b) :
    EndAlike (typeIndex owner >>= inPlace) (typeIndex owner >>= build) b := by
  have state : EndAlike get get b := rfl
  refine EndAlike.bind (state.bind ?_ fun _ => .ite rfl rfl) ?_ behind
  · rintro _ _ ⟨⟩
    rfl
  · have kept : Keeps (· = b) (typeIndex owner) :=
      Keeps.get.bind fun _ => Keeps.ite (Keeps.pure _) (Keeps.throw _)
    exact fun index later => kept b index later rfl

end

/-- Whatever a call needs, it finds out before it changes anything. -/
theorem endAlike_perform (b : ModuleBuilder) (call : Call) :
    EndAlike call.perform call.run b := by
  cases call with
  | assemblyRef name => rfl
  | typeRef scope namespaceName name => rfl
  | typeDef namespaceName name flags base => rfl
  | nestedTypeDef enclosing namespaceName name flags base => rfl
  | typeSpec signature => exact EndAlike.lift_bind fun bytes => rfl
  | methodDef owner name flags signature =>
    exact EndAlike.lift_bind fun bytes => EndAlike.typeIndex_bind
      fun index => rfl
  | field owner name flags signature =>
    exact EndAlike.lift_bind fun bytes => EndAlike.typeIndex_bind
      fun index => rfl
  | methodRef parent name signature => exact EndAlike.lift_bind fun bytes => rfl
  | fieldRef parent name signature => exact EndAlike.lift_bind fun bytes => rfl
  | genericParam owner name flags => rfl
  | customAttribute parent constructor arguments =>
    exact EndAlike.lift_bind fun bytes => rfl
  | classLayout parent packing size => rfl

/-- A call in place and a call that is given up when it fails are one. -/
@[simp]
theorem inPlace_eq_apply (b : ModuleBuilder) (call : Call) :
    b.inPlace call = b.apply call := by
  have same : b.inPlace call = _ := endAlike_perform b call
  cases run : call.run.run b with
  | error error => rw [same, run, apply_of_error run]
  | ok out => rw [same, run, apply_of_ok run]

/-- A call that fails in place has changed nothing. -/
theorem inPlace_of_error {b : ModuleBuilder} {call : Call} {error : Error}
    (failed : (b.inPlace call).1 = .error error) : (b.inPlace call).2 = b := by
  rw [inPlace_eq_apply] at failed ⊢
  cases run : call.run.run b with
  | error other => rw [apply_of_error run]
  | ok out =>
    rw [apply_of_ok run] at failed
    cases failed

end ModuleBuilder

end CliMetadata
