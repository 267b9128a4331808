import CliMetadata.Proofs.Attribute.RoundTrip
import CliMetadata.Proofs.Table.Growth
import CliMetadata.Proofs.Table.Ownership
import CliMetadata.Table.Attributes
import Mathlib.Data.List.Forall2

/-!
# What is built is what is read

A token that a call answers leads to a row in the finished module, and what the
row says, read through the heaps and the signature parser, is what the call was
given (`Image.Records`).  The attributes of a parent are those that were applied
to it, in order (`Image.AppliesTo`).

The argument looks at a call and at the finished module, with any calls in
between.  The row is the last of its table after the call, names and signatures
are in the heaps then, and all stays at its place (`ModuleBuilder.Extends`).
-/

namespace CliMetadata

/-! ### Finding a row -/

/-- A row is found by the token of its number. -/
theorem rowAt?_ofParts {ρ : Type} (kind : TableKind) (rows : Array ρ) {i : Nat}
    (small : i + 1 < 2 ^ 24) :
    rowAt? kind rows (Token.ofParts kind (UInt32.ofNat (i + 1)))
      = rows[i]? := by
  have number : (UInt32.ofNat (i + 1)).toNat = i + 1 := by
    rw [UInt32.toNat_ofNat', Nat.mod_eq_of_lt (by omega)]
  have row : (Token.ofParts kind (UInt32.ofNat (i + 1))).row.toNat = i + 1 := by
    rw [Token.toNat_row, Token.value_toNat_ofParts kind (by omega), number]
    omega
  have named : ¬ (Token.ofParts kind (UInt32.ofNat (i + 1))).isNull := by
    intro null
    rw [Token.isNull, beq_iff_eq, ← UInt32.toNat_inj, row] at null
    cases null
  rw [rowAt?, if_pos ⟨Token.isIn_ofParts kind _, named⟩, row,
    Nat.add_sub_cancel]

/-- A row that was added is found by its token in any later table. -/
theorem rowAt?_of_push {ρ : Type} (kind : TableKind) {rows later : Array ρ}
    {row : ρ} (grown : (rows.push row).toList <+: later.toList)
    (small : later.size < 2 ^ 24) :
    rowAt? kind later (Token.ofParts kind (ModuleBuilder.nextNumber rows))
      = some row := by
  have size := grown.length_le
  rw [Array.length_toList, Array.length_toList, Array.size_push] at size
  have place := List.prefix_iff_getElem?.mp grown rows.size (by simp)
  rw [Array.getElem?_toList, Array.getElem_toList, Array.getElem_push_eq]
    at place
  rw [ModuleBuilder.nextNumber, rowAt?_ofParts kind later (by omega), place]

/-- A type that was added is found by its token, with the members that it has
been given. -/
theorem typeDef_of_push {types later : Array TypeDefRow} {row : TypeDefRow}
    (grown : TypesGrow (types.push row) later) (small : later.size < 2 ^ 24) :
    ∃ final, rowAt? .typeDef later
      (Token.ofParts .typeDef (ModuleBuilder.nextNumber types)) = some final ∧
        row.GrowsInto final := by
  have size := grown.size_le
  rw [Array.size_push] at size
  obtain ⟨final, place, grows⟩ := grown types.size row Array.getElem?_push_size
  refine ⟨final, ?_, grows⟩
  rw [ModuleBuilder.nextNumber, rowAt?_ofParts .typeDef later (by omega), place]

/-- A type that was changed is found with what the change has put into it. -/
theorem typeDef_of_modify {types later : Array TypeDefRow} {owner : Token}
    {change : TypeDefRow → TypeDefRow}
    (valid : owner.isIn .typeDef ∧ ¬ owner.isNull)
    (inside : owner.row.toNat - 1 < types.size)
    (grown : TypesGrow (types.modify (owner.row.toNat - 1) change) later) :
    ∃ row final, rowAt? .typeDef later owner = some final ∧
    (change row).GrowsInto final := by
  have changed :
      (types.modify (owner.row.toNat - 1) change)[owner.row.toNat - 1]?
        = some (change types[owner.row.toNat - 1]) := by
    simp [Array.getElem?_modify, Array.getElem?_eq_getElem inside]
  obtain ⟨final, place, grows⟩ := grown _ _ changed
  exact ⟨_, final, (if_pos valid).trans place, grows⟩

/-! ### What rows say -/

namespace Image

variable (image : Image)

/-- The row of a type says what is told. -/
def RecordsType (token : Token) (namespaceName name : String)
    (flags : TypeFlags) (base : Token) :
    Prop :=
  ∃ row, image.typeDef? token = some row ∧ row.token = token ∧
    row.flags = flags ∧ row.base = base ∧
    image.string row.name = .ok name ∧
    image.string row.namespaceName = .ok namespaceName

/-- The row of a reference to a member says what is told; `parse` reads its
signature. -/
def RecordsMemberRef {σ : Type} (parse : List UInt8 → Except Error σ)
    (token parent : Token) (name : String) (signature : σ) : Prop :=
  ∃ row, image.memberRef? token = some row ∧ row.token = token ∧
    row.parent = parent ∧ image.string row.name = .ok name ∧
      (do parse (← image.blob row.signature)) = .ok signature

/-- What is read under the token that a call answered is what the call was
given.  Attributes are read by their parents (`Image.AppliesTo`), and a layout
stands only until another takes its place. -/
def Records (limit : Nat) (token : Token) : ModuleBuilder.Call → Prop
  | .assemblyRef name =>
      ∃ row, image.assemblyRef? token = some row ∧ row.token = token ∧
        image.string row.name = .ok name
  | .typeRef scope namespaceName name =>
      ∃ row, image.typeRef? token = some row ∧ row.token = token ∧
        row.scope = scope ∧ image.string row.name = .ok name ∧
        image.string row.namespaceName = .ok namespaceName
  | .typeDef namespaceName name flags base =>
      image.RecordsType token namespaceName name flags base
  | .nestedTypeDef enclosing namespaceName name flags base =>
      image.RecordsType token namespaceName name flags base ∧
        image.enclosing? token = some enclosing
  | .typeSpec signature =>
      ∃ row, image.typeSpec? token = some row ∧ row.token = token ∧
        (do TypeSig.ofBytes limit (← image.blob row.signature)) = .ok signature
  | .methodDef owner name flags signature =>
      image.methodOwner? token = some owner ∧
        ∃ row, image.methodDef? token = some row ∧ row.token = token ∧
          row.flags = flags ∧
          image.string row.name = .ok name ∧
          (do MethodSig.ofBytes limit (← image.blob row.signature))
            = .ok signature
  | .field owner name flags signature =>
      image.fieldOwner? token = some owner ∧
        ∃ row, image.field? token = some row ∧ row.token = token ∧
          row.flags = flags ∧
          image.string row.name = .ok name ∧
          (do FieldSig.ofBytes limit (← image.blob row.signature))
            = .ok signature
  | .methodRef parent name signature =>
      image.RecordsMemberRef (MethodSig.ofBytes limit) token parent
        name signature
  | .fieldRef parent name signature =>
      image.RecordsMemberRef (FieldSig.ofBytes limit) token parent
        name signature
  | .genericParam owner name flags =>
      ∃ row, image.genericParam? token = some row ∧ row.token = token ∧
        row.owner = owner ∧
        row.flags = flags ∧ image.string row.name = .ok name
  | .customAttribute .. => True
  | .classLayout .. => True

/-- The row of an attribute of a parent says which constructor was applied, and
its value is read as the arguments by any constructor whose parameters have
their types. -/
def AppliesTo (parent : Token) (applied : Token × List Argument)
    (row : CustomAttributeRow) : Prop :=
  row.parent = parent ∧ row.constructor = applied.1 ∧
    ∀ constructor : MethodSig, Argument.HaveTypes constructor.params applied.2 →
      (do AttributeValue.ofBytes (← image.blob row.value) constructor)
        = .ok { fixed := applied.2, named := [] }

end Image

/-! ### Calls and what they answer -/

namespace ModuleBuilder

/-- A name that the string heap gives back. -/
def IsPlain (name : String) : Prop := '\x00' ∉ name.toList

/-- Bytes, if there are any, whose length the blob heap can write. -/
def IsShort (encoded : Except Error (List UInt8)) : Prop :=
  ∀ bytes, encoded = .ok bytes → bytes.length < 2 ^ 29

/-- Names without zero characters, and signatures that are written in one way
and read within the limit. -/
def Call.IsReadable (limit : Nat) : Call → Prop
  | .assemblyRef name => IsPlain name
  | .typeRef _ namespaceName name => IsPlain namespaceName ∧ IsPlain name
  | .typeDef namespaceName name _ _ => IsPlain namespaceName ∧ IsPlain name
  | .nestedTypeDef _ namespaceName name _ _ =>
    IsPlain namespaceName ∧ IsPlain name
  | .typeSpec signature =>
      signature.IsCanonical ∧ signature.depth ≤ limit ∧ IsShort signature.encode
  | .methodDef _ name _ signature =>
      IsPlain name ∧ signature.IsCanonical ∧ signature.depth ≤ limit ∧
      IsShort signature.encode
  | .field _ name _ signature =>
      IsPlain name ∧ signature.IsCanonical ∧ signature.depth ≤ limit ∧
      IsShort signature.encode
  | .methodRef _ name signature =>
      IsPlain name ∧ signature.IsCanonical ∧ signature.depth ≤ limit ∧
      IsShort signature.encode
  | .fieldRef _ name signature =>
      IsPlain name ∧ signature.IsCanonical ∧ signature.depth ≤ limit ∧
      IsShort signature.encode
  | .genericParam _ name _ => IsPlain name
  | .customAttribute _ _ arguments => IsShort (encodeAttribute arguments)
  | .classLayout .. => True

/-- Tokens tell the rows apart, and indices reach all of the heaps. -/
structure IsAddressable (b : ModuleBuilder) : Prop where
  assemblyRefs : b.tables.assemblyRefs.size < 2 ^ 24
  typeRefs : b.tables.typeRefs.size < 2 ^ 24
  typeDefs : b.tables.typeDefs.size < 2 ^ 24
  typeSpecs : b.tables.typeSpecs.size < 2 ^ 24
  methodDefs : b.tables.methodDefs.size < 2 ^ 24
  fields : b.tables.fields.size < 2 ^ 24
  memberRefs : b.tables.memberRefs.size < 2 ^ 24
  genericParams : b.tables.genericParams.size < 2 ^ 24
  strings : b.strings.bytes.size < 2 ^ 32
  blobs : b.blobs.bytes.size < 2 ^ 32

/-- The calls of a sequence, each with what it answers. -/
def answers (b : ModuleBuilder) : List Call → List (Call × Except Error Token)
  | [] => []
  | call :: calls => (call, (b.apply call).1) :: (b.apply call).2.answers calls

/-- What a call applies to a parent if it succeeds: a constructor and its
arguments. -/
def appliedTo (parent : Token) :
    Call × Except Error Token → List (Token × List Argument)
  | (.customAttribute target constructor arguments, .ok _) =>
      if target = parent then [(constructor, arguments)] else []
  | _ => []

/-! ### One call -/

/-- A signature is read where its bytes are. -/
theorem parse_of_blob {σ : Type} {image : Image} {index : UInt32}
    {bytes : List UInt8} {parse : List UInt8 → Except Error σ} {signature : σ}
    (stored : image.blob index = .ok bytes)
    (parsed : parse bytes = .ok signature) :
    (do parse (← image.blob index)) = .ok signature := by
  rw [stored]
  exact parsed

section
variable {b middle later : ModuleBuilder} {limit : Nat} {token : Token}

theorem isWritableLength_of_lt {length : Nat} (h : length < 2 ^ 29) :
    IsWritableLength length :=
  Nat.le_of_lt_succ h

/-- What a new type says is kept. -/
theorem recordsType (built : b.IsBuilt) {namespaceName name : String}
    {flags : TypeFlags} {base : Token} {row : TypeDefRow}
    (columns : row =
      { number := nextNumber b.tables.typeDefs
        token := .ofParts .typeDef (nextNumber b.tables.typeDefs)
        flags
        name := (b.strings.add name).1
        namespaceName := ((b.strings.add name).2.add namespaceName).1
        base })
    (types : TypesGrow (b.tables.typeDefs.push row) later.tables.typeDefs)
    (strings : ((b.strings.add name).2.add namespaceName).2.layout.Precedes
      StringHeap.written later.strings.layout)
    (fits : later.IsAddressable) (plain : IsPlain name)
    (plain' : IsPlain namespaceName) :
    later.image.RecordsType (.ofParts .typeDef (nextNumber b.tables.typeDefs))
      namespaceName name flags base := by
  obtain ⟨final, found, grows⟩ := typeDef_of_push types fits.typeDefs
  -- Both names are stored, and later texts move neither.
  have named := StringHeap.Builder.get_add built.extends_empty.strings
    (.trans (StringHeap.Builder.precedes_add _ namespaceName) strings)
    fits.strings plain
  have spaced := StringHeap.Builder.get_add
    (.trans built.extends_empty.strings (b.strings.precedes_add name)) strings
    fits.strings plain'
  refine ⟨final, found, ?_⟩
  rw [grows.columns, columns]
  exact ⟨rfl, rfl, rfl, named, spaced⟩

/-- What a new reference to a member says is kept. -/
theorem recordsMemberRef {σ : Type} (built : b.IsBuilt) {parent : Token}
    {name : String} {blob : List UInt8}
    (run : (memberRefWith parent name blob : Build Token).run b
      = .ok (token, middle))
    (extended : middle.Extends later) (fits : later.IsAddressable)
    (plain : IsPlain name) (short : blob.length < 2 ^ 29)
    {parse : List UInt8 → Except Error σ} {signature : σ}
    (parsed : parse blob = .ok signature) :
    later.image.RecordsMemberRef parse token parent name signature := by
  cases run
  -- The name and the blob are stored, and nothing later moves them.
  have named := StringHeap.Builder.get_add built.extends_empty.strings
    extended.strings fits.strings plain
  have stored := BlobHeap.Builder.get_add built.extends_empty.blobs
    extended.blobs fits.blobs (isWritableLength_of_lt short)
  exact ⟨_, rowAt?_of_push .memberRef extended.memberRefs fits.memberRefs,
    rfl, rfl, named,
    parse_of_blob stored parsed⟩

/-- A type that is nested in another is found there: the types nested before it
have smaller numbers. -/
theorem enclosing_of_push {enclosing : Token} {row : TypeDefRow}
    (built : b.IsBuilt) (extended : middle.Extends later)
    (fits : later.IsAddressable)
    (types : middle.tables.typeDefs = b.tables.typeDefs.push row)
    (nested : middle.tables.nestedClasses
      = b.tables.nestedClasses.push
        ⟨Token.ofParts .typeDef (nextNumber b.tables.typeDefs), enclosing⟩) :
    later.image.enclosing?
        (Token.ofParts .typeDef (nextNumber b.tables.typeDefs))
      = some enclosing := by
  obtain ⟨earlier, before, numbered⟩ := built.extends_empty.nestedClasses
  obtain ⟨added, after, -⟩ := extended.nestedClasses
  have size := extended.typeDefs.size_le
  rw [types, Array.size_push] at size
  have few := fits.typeDefs
  -- No type that was nested before has the number of the new type.
  have fresh :
      earlier.find?
        (·.nested = Token.ofParts .typeDef (nextNumber b.tables.typeDefs))
      = none := by
    rw [List.find?_eq_none]
    intro other member
    obtain ⟨number, -, below, same⟩ := numbered other member
    intro equal
    rw [decide_eq_true_eq, same, nextNumber] at equal
    have := Token.ofParts_inj (by omega) (by omega) equal
    omega
  show (later.tables.nestedClasses.find? _).map _ = _
  rw [← Array.find?_toList, after, nested, Array.toList_push, before,
    List.find?_append, List.find?_append, List.find?_append, fresh]
  simp

/-- What a call was given is read under its token in any later module. -/
theorem records_of_run {call : Call} (built : b.IsBuilt)
    (builtLater : later.IsBuilt) (run : call.run.run b = .ok (token, middle))
    (extended : middle.Extends later) (fits : later.IsAddressable)
    (readable : call.IsReadable limit) :
    later.image.Records limit token call := by
  have started := built.extends_empty
  cases call with
  | assemblyRef name =>
    cases run
    have named := StringHeap.Builder.get_add started.strings extended.strings
      fits.strings readable
    exact ⟨_, rowAt?_of_push .assemblyRef extended.assemblyRefs
      fits.assemblyRefs, rfl, named⟩
  | typeRef scope namespaceName name =>
    cases run
    have named := StringHeap.Builder.get_add started.strings
      (.trans (StringHeap.Builder.precedes_add _ namespaceName)
        extended.strings) fits.strings readable.2
    have spaced := StringHeap.Builder.get_add
      (.trans started.strings (b.strings.precedes_add name)) extended.strings
      fits.strings readable.1
    exact ⟨_, rowAt?_of_push .typeRef extended.typeRefs fits.typeRefs, rfl, rfl,
      named, spaced⟩
  | typeDef namespaceName name flags base =>
    cases run
    exact recordsType built rfl extended.typeDefs extended.strings fits
      readable.2 readable.1
  | nestedTypeDef enclosing namespaceName name flags base =>
    cases run
    constructor
    · exact recordsType built rfl extended.typeDefs extended.strings fits
        readable.2 readable.1
    · exact enclosing_of_push built extended fits rfl rfl
  | typeSpec signature =>
    obtain ⟨canonical, shallow, short⟩ := readable
    obtain ⟨bytes, encoded, run⟩ := run_lift_bind run
    cases run
    have stored := BlobHeap.Builder.get_add started.blobs
      extended.blobs fits.blobs (isWritableLength_of_lt (short bytes encoded))
    exact ⟨_, rowAt?_of_push .typeSpec extended.typeSpecs fits.typeSpecs, rfl,
      parse_of_blob stored
        (TypeSig.ofBytes_of_encode canonical shallow encoded)⟩
  | methodDef owner name flags signature =>
    obtain ⟨plain, canonical, shallow, short⟩ := readable
    obtain ⟨bytes, encoded, run⟩ := run_lift_bind run
    obtain ⟨valid, inside, run⟩ := run_typeIndex_bind run
    cases run
    -- The owner lists the method still, and nobody else does.
    obtain ⟨row, final, found, grows⟩ :=
      typeDef_of_modify valid inside extended.typeDefs
    have listed :=
      grows.methods.subset (List.mem_append_right _ List.mem_cons_self)
    have owned := (builtLater.ownsMembers fits.methodDefs fits.fields).methods
      found _ listed
    have named := StringHeap.Builder.get_add started.strings extended.strings
      fits.strings plain
    have stored := BlobHeap.Builder.get_add started.blobs
      extended.blobs fits.blobs (isWritableLength_of_lt (short bytes encoded))
    exact ⟨owned, _, rowAt?_of_push .methodDef extended.methodDefs
      fits.methodDefs, rfl, rfl, named, parse_of_blob stored
        (MethodSig.ofBytes_of_encode canonical shallow encoded)⟩
  | field owner name flags signature =>
    obtain ⟨plain, canonical, shallow, short⟩ := readable
    obtain ⟨bytes, encoded, run⟩ := run_lift_bind run
    obtain ⟨valid, inside, run⟩ := run_typeIndex_bind run
    cases run
    -- The owner lists the field still, and nobody else does.
    obtain ⟨row, final, found, grows⟩ :=
      typeDef_of_modify valid inside extended.typeDefs
    have listed :=
      grows.fields.subset (List.mem_append_right _ List.mem_cons_self)
    have owned := (builtLater.ownsMembers fits.methodDefs fits.fields).fields
      found _ listed
    have named := StringHeap.Builder.get_add started.strings extended.strings
      fits.strings plain
    have stored := BlobHeap.Builder.get_add started.blobs
      extended.blobs fits.blobs (isWritableLength_of_lt (short bytes encoded))
    exact ⟨owned, _, rowAt?_of_push .field extended.fields fits.fields,
      rfl, rfl, named,
      parse_of_blob stored
        (FieldSig.ofBytes_of_encode canonical shallow encoded)⟩
  | methodRef parent name signature =>
    obtain ⟨plain, canonical, shallow, short⟩ := readable
    obtain ⟨bytes, encoded, run⟩ := run_lift_bind run
    exact recordsMemberRef built run extended fits plain (short bytes encoded)
      (MethodSig.ofBytes_of_encode canonical shallow encoded)
  | fieldRef parent name signature =>
    obtain ⟨plain, canonical, shallow, short⟩ := readable
    obtain ⟨bytes, encoded, run⟩ := run_lift_bind run
    exact recordsMemberRef built run extended fits plain (short bytes encoded)
      (FieldSig.ofBytes_of_encode canonical shallow encoded)
  | genericParam owner name flags =>
    cases run
    have named := StringHeap.Builder.get_add started.strings extended.strings
      fits.strings readable
    exact ⟨_, rowAt?_of_push .genericParam extended.genericParams
      fits.genericParams, rfl, rfl, rfl, named⟩
  | customAttribute => trivial
  | classLayout => trivial

end

/-! ### Attributes -/

section
variable {b later : ModuleBuilder} {limit : Nat}

/-- The attributes of a parent with one more row at the end of the table. -/
theorem attributesOf_push (tables : Tables) (row : CustomAttributeRow)
    (parent : Token) :
    Tables.attributesOf
        { tables with customAttributes := tables.customAttributes.push row }
        parent
      = tables.attributesOf parent ++ if row.parent
        = parent then [row] else [] := by
  simp [Tables.attributesOf, List.filter_singleton]

@[simp]
theorem appliedTo_error (parent : Token) (call : Call) (error : Error) :
    appliedTo parent (call, .error error) = [] := by
  cases call <;> rfl

/-- Only one sort of calls applies attributes. -/
theorem customAttributes_of_run {call : Call} {token : Token}
    {middle : ModuleBuilder} (run : call.run.run b = .ok (token, middle)) :
    (middle.tables.customAttributes = b.tables.customAttributes ∧
      ∀ parent, appliedTo parent (call, .ok token) = []) ∨
      ∃ target constructor arguments,
        call = .customAttribute target constructor arguments := by
  generalize tables : middle.tables = later
  cases tables ▸ step_of_run run with
  | customAttribute => exact .inr ⟨_, _, _, rfl⟩
  | _ => exact .inl ⟨rfl, fun _ => rfl⟩

/-- What a call applies to a parent comes behind what was applied before. -/
theorem attributesOf_apply (built : b.IsBuilt) (call : Call)
    (readable : call.IsReadable limit)
    (extended : (b.apply call).2.Extends later) (fits : later.IsAddressable)
    (parent : Token) :
    ∃ added, (b.apply call).2.tables.attributesOf parent
      = b.tables.attributesOf parent ++ added ∧
      List.Forall₂ (later.image.AppliesTo parent)
        (appliedTo parent (call, (b.apply call).1))
        added := by
  cases hrun : call.run.run b with
  | error error =>
    rw [apply_of_error hrun, appliedTo_error]
    exact ⟨[], (List.append_nil _).symm, .nil⟩
  | ok out =>
    obtain ⟨token, middle⟩ := out
    rw [apply_of_ok hrun] at extended ⊢
    rcases customAttributes_of_run hrun with ⟨same, none⟩ | ⟨target,
      constructor, arguments, rfl⟩
    · -- The call adds no attribute.
      rw [none parent, Tables.attributesOf, same]
      exact ⟨[], (List.append_nil _).symm, .nil⟩
    · -- The call adds one, which is listed by its parent.
      obtain ⟨bytes, encoded, run⟩ := run_lift_bind hrun
      cases run
      have stored := BlobHeap.Builder.get_add built.extends_empty.blobs
        extended.blobs fits.blobs (isWritableLength_of_lt (readable bytes encoded))
      refine ⟨_, attributesOf_push _ _ parent, ?_⟩
      rw [appliedTo]
      split
      · next same =>
        refine .cons ⟨same, rfl, fun constructor typed => ?_⟩ .nil
        exact parse_of_blob stored
          (AttributeValue.ofBytes_of_encodeAttribute typed encoded)
      · exact .nil

/-- The attributes of a parent are those that were applied to it, in order. -/
theorem attributesOf_applyAll (built : b.IsBuilt) {calls : List Call}
    (readable : ∀ call ∈ calls, call.IsReadable limit)
    (extended : (b.applyAll calls).Extends later) (fits : later.IsAddressable)
    (parent : Token) :
    ∃ added, (b.applyAll calls).tables.attributesOf parent
        = b.tables.attributesOf parent ++ added ∧
      List.Forall₂ (later.image.AppliesTo parent)
        ((b.answers calls).flatMap (appliedTo parent))
        added := by
  induction calls generalizing b with
  | nil => exact ⟨[], (List.append_nil _).symm, .nil⟩
  | cons call calls ih =>
    have now : (b.apply call).2.Extends later :=
      (extends_applyAll (b.apply call).2 calls).trans extended
    -- The first call adds its attributes before those of the others.
    obtain ⟨first, split, applied⟩ := attributesOf_apply built call
      (readable call List.mem_cons_self) now fits parent
    obtain ⟨others, split', applied'⟩ := ih (built.call call)
      (fun other member => readable other (List.mem_cons_of_mem call member))
      extended
    refine ⟨first ++ others, ?_, ?_⟩
    · rw [← List.append_assoc, ← split]
      exact split'
    · rw [answers, List.flatMap_cons]
      exact List.rel_append applied applied'

end

/-! ### All calls -/

/-- A call that answered a token ran on what was built before, and everything
after it extends what it left. -/
theorem exists_run_of_mem_answers {b : ModuleBuilder} (built : b.IsBuilt)
    {calls : List Call} {call : Call} {token : Token}
    (member : (call, .ok token) ∈ b.answers calls) :
    call ∈ calls ∧ ∃ before middle, before.IsBuilt ∧
      call.run.run before = .ok (token, middle) ∧
        middle.Extends (b.applyAll calls) := by
  induction calls generalizing b with
  | nil => cases member
  | cons first calls ih =>
    rcases List.mem_cons.mp member with same | member
    · obtain ⟨rfl, answered⟩ := Prod.mk.inj same
      refine ⟨List.mem_cons_self, b, (b.apply call).2, built, ?_,
        extends_applyAll _ calls⟩
      exact run_of_apply answered.symm
    · obtain ⟨listed, run⟩ := ih (built.call first) member
      exact ⟨List.mem_cons_of_mem first listed, run⟩

/-- What is built is what is read.  Whatever calls a builder takes, each row
that they add says in the end what its call was given, and the attributes of
each parent are those that it had and behind them those that were applied to it,
in order. -/
theorem IsBuilt.recordsCalls (limit : Nat) {b : ModuleBuilder}
    (built : b.IsBuilt) (calls : List Call)
    (readable : ∀ call ∈ calls, call.IsReadable limit)
    (fits : (b.applyAll calls).IsAddressable) :
    (∀ call token, (call, .ok token) ∈ b.answers calls →
      (b.applyAll calls).image.Records limit token call) ∧
    ∀ parent, ∃ added,
      (b.applyAll calls).image.attributesOf parent
        = b.image.attributesOf parent ++ added ∧
      List.Forall₂ ((b.applyAll calls).image.AppliesTo parent)
        ((b.answers calls).flatMap (appliedTo parent)) added := by
  constructor
  · intro call token member
    obtain ⟨listed, before, middle, builtBefore, run, extended⟩ :=
      exists_run_of_mem_answers built member
    exact records_of_run builtBefore (built.applyAll calls) run extended fits
      (readable call listed)
  · exact attributesOf_applyAll built readable (.refl _) fits

/-- A method that takes an array of numbers. -/
def sampleSignature : MethodSig :=
  .instance_ (.primitive .void) [.vector [] (.primitive .i4)]

/-- A type with a method, a type of the same name nested in it, a method of no
type of the module, a reference with the name and the signature of the method,
and two attributes of the type. -/
def sampleCalls : List Call :=
  [.typeDef "N" "Run" .public .null,
    .methodDef ⟨0x02000002⟩ "Run" ⟨6⟩ sampleSignature,
    .nestedTypeDef ⟨0x02000002⟩ "" "Run" ⟨2⟩ ⟨0x02000002⟩,
    .methodDef ⟨0x01000001⟩ "Lost" ⟨6⟩ sampleSignature,
    .customAttribute ⟨0x02000002⟩ ⟨0x06000001⟩ [.array [.i4 7]],
    .methodRef ⟨0x02000003⟩ "Run" sampleSignature,
    .customAttribute ⟨0x02000002⟩ ⟨0x06000001⟩ [.nullArray]]

theorem sampleCalls_recorded :
    let b := ModuleBuilder.new "App"
    let final := b.applyAll sampleCalls
    b.IsBuilt ∧ (∀ call ∈ sampleCalls, call.IsReadable 2) ∧
      final.IsAddressable ∧
      final.image.Records 2 ⟨0x06000001⟩
        (.methodDef ⟨0x02000002⟩ "Run" ⟨6⟩ sampleSignature) ∧
      final.image.Records 2 ⟨0x0A000001⟩
        (.methodRef ⟨0x02000003⟩ "Run" sampleSignature) ∧
      List.Forall₂ (final.image.AppliesTo ⟨0x02000002⟩)
        [(⟨0x06000001⟩, [.array [.i4 7]]), (⟨0x06000001⟩, [.nullArray])]
        (final.image.attributesOf ⟨0x02000002⟩) := by
  intro b final
  -- The signature is canonical and short.
  have signature : sampleSignature.IsCanonical ∧ sampleSignature.depth ≤ 2 ∧
      IsShort sampleSignature.encode := by
    refine ⟨?_, by decide, ?_⟩
    · simp [sampleSignature, MethodSig.instance_, MethodSig.static,
        ParamSig.plain, MethodSig.IsCanonical, ParamSig.IsCanonical,
        ParamSig.AreCanonical, TypeSig.IsCanonical, TypeSig.IsByRef,
        IsWritableLength, CompressedInteger.limit, Conventions.IsSingle]
    · rintro _ ⟨⟩
      decide
  -- So is all that the calls are given.
  have readable : ∀ call ∈ sampleCalls, call.IsReadable 2 := by
    have plain : IsPlain "N" ∧ IsPlain "Run" ∧ IsPlain "Lost" ∧ IsPlain "" := by
      simp [IsPlain]
    simp only [sampleCalls, List.forall_mem_cons, Call.IsReadable, plain,
      signature, and_self, true_and]
    refine ⟨?_, ?_, fun _ none => absurd none List.not_mem_nil⟩
    · rintro _ ⟨⟩
      decide
    · rintro _ ⟨⟩
      decide
  have fits : final.IsAddressable := by constructor <;> decide
  obtain ⟨records, attributes⟩ :=
    IsBuilt.recordsCalls 2 (.new "App") sampleCalls readable fits
  obtain ⟨added, split, applied⟩ := attributes ⟨0x02000002⟩
  refine ⟨.new "App", readable, fits, ?_, ?_, ?_⟩
  · exact records _ _ (List.mem_of_getElem? (i := 1) rfl)
  · exact records _ _ (List.mem_of_getElem? (i := 5) rfl)
  · rw [split]
    exact applied

end ModuleBuilder

end CliMetadata
