import CliMetadata.Proofs.CodedToken
import CliMetadata.TypeSystem.Session

/-!
# Tables that were built

Rows are told by their places (`RowsSay`): by numbers (`RowsCount`) and by the
tokens of these (`RowsAreNumbered`).  A row that is found by a token is then the
row of that token.

What holds of a new builder and is kept by every call holds of everything that
is built, a core library too (`ModuleBuilder.IsBuilt.keeps`).
-/

namespace CliMetadata

/-! ### Numbered rows -/

/-- What the rows say is told by their places, which are counted from one. -/
def RowsSay {ρ α : Type} (say : ρ → α) (said : Nat → α) (rows : Array ρ) :
    Prop :=
  ∀ i row, rows[i]? = some row → say row = said (i + 1)

namespace RowsSay

variable {ρ α : Type} {say : ρ → α} {said : Nat → α} {rows : Array ρ}

theorem empty : RowsSay say said #[] := by
  intro i row h
  simp at h

/-- A row that says what is said of the next place can be added. -/
theorem push (h : RowsSay say said rows) {row : ρ}
    (hrow : say row = said (rows.size + 1)) :
    RowsSay say said (rows.push row) := by
  intro i other hother
  rw [Array.getElem?_push] at hother
  split at hother
  · next hi =>
    cases hother
    rw [hrow, hi]
  · exact h i other hother

/-- A row may change in all else. -/
theorem modify (h : RowsSay say said rows) (index : Nat) {change : ρ → ρ}
    (kept : ∀ row, say (change row) = say row) :
    RowsSay say said (rows.modify index change) := by
  intro i other hother
  rw [Array.getElem?_modify] at hother
  split at hother
  · obtain ⟨row, hrow, rfl⟩ := Option.map_eq_some_iff.mp hother
    rw [kept]
    exact h i row hrow
  · exact h i other hother

end RowsSay

/-- The numbers of the rows are those of their places. -/
abbrev RowsCount {ρ : Type} (number : ρ → UInt32) (rows : Array ρ) : Prop :=
  RowsSay number UInt32.ofNat rows

/-- The tokens of the rows are those of their places. -/
def RowsAreNumbered {ρ : Type} (kind : TableKind) (token : ρ → Token)
    (rows : Array ρ) : Prop :=
  ∀ i row, rows[i]? = some row →
  token row = Token.ofParts kind (UInt32.ofNat (i + 1))

namespace RowsAreNumbered

variable {ρ : Type} {kind : TableKind} {token : ρ → Token} {rows : Array ρ}

theorem iff_rowsSay : RowsAreNumbered kind token rows ↔
    RowsSay token (fun number => Token.ofParts kind (UInt32.ofNat number))
      rows := Iff.rfl

theorem empty : RowsAreNumbered kind token #[] := iff_rowsSay.mpr .empty

/-- A row under the token of the next number can be added. -/
theorem push (h : RowsAreNumbered kind token rows) {row : ρ}
    (hrow : token row = Token.ofParts kind (ModuleBuilder.nextNumber rows)) :
    RowsAreNumbered kind token (rows.push row) :=
  iff_rowsSay.mpr ((iff_rowsSay.mp h).push hrow)

/-- A row may change in all but its token. -/
theorem modify (h : RowsAreNumbered kind token rows) (index : Nat)
    {change : ρ → ρ} (kept : ∀ row, token (change row) = token row) :
    RowsAreNumbered kind token (rows.modify index change) :=
  iff_rowsSay.mpr ((iff_rowsSay.mp h).modify index kept)

end RowsAreNumbered

namespace Token

@[simp]
theorem value_toNat_ofParts (kind : TableKind) {row : UInt32}
    (h : row.toNat < 2 ^ 24) :
    (ofParts kind row).value.toNat = kind.code.toNat * 2 ^ 24 + row.toNat := by
  have low : (row &&& 0xFFFFFF).toNat = row.toNat := by
    rw [UInt32.toNat_and]
    exact (Nat.and_two_pow_sub_one_eq_mod row.toNat 24).trans
      (Nat.mod_eq_of_lt h)
  have high : (kind.code.toUInt32 <<< 24).toNat = kind.code.toNat * 2 ^ 24 := by
    have := kind.code.toNat_lt
    rw [UInt32.toNat_shiftLeft, UInt8.toNat_toUInt32]
    simp only [UInt32.reduceToNat, Nat.reduceMod, Nat.shiftLeft_eq]
    omega
  rw [ofParts, UInt32.toNat_or, high, low]
  exact CompressedInteger.mul_or_eq_add h _

/-- The token of a row is in the table of the row. -/
@[simp]
theorem isIn_ofParts (kind : TableKind) (row : UInt32) :
    (ofParts kind row).isIn kind := by
  have small : (row &&& 0xFFFFFF).toNat < 2 ^ 24 := by
    rw [UInt32.toNat_and]
    exact Nat.and_lt_two_pow _ (by decide)
  have masked : ofParts kind row = ofParts kind (row &&& 0xFFFFFF) := by
    rw [ofParts, ofParts, UInt32.and_assoc, UInt32.and_self]
  have value := value_toNat_ofParts kind small
  rw [masked, isIn, beq_iff_eq, ← UInt8.toNat_inj, toNat_table, value]
  omega

/-- A token is in one table. -/
theorem isIn_eq_false {token : Token} {kind other : TableKind}
    (h : token.isIn kind) (different : kind ≠ other) :
    token.isIn other = false := by
  refine Bool.eq_false_iff.mpr fun h' => different ?_
  have first : token.table = kind.code := beq_iff_eq.mp h
  have second : token.table = other.code := beq_iff_eq.mp h'
  have same := TableKind.ofCode?_code kind
  rw [← first, second, TableKind.ofCode?_code] at same
  exact (Option.some.inj same).symm

/-- A token is put together from its table and its row. -/
@[simp]
theorem ofParts_row {token : Token} {kind : TableKind} (h : token.isIn kind) :
    ofParts kind token.row = token := by
  have hrow := token.toNat_row
  have htable := token.toNat_table
  have same : token.table = kind.code := beq_iff_eq.mp h
  rw [Token.mk.injEq, ← UInt32.toNat_inj]
  refine (value_toNat_ofParts kind (by omega)).trans ?_
  rw [← same]
  omega

/-- A token that names a row has its number. -/
theorem toNat_row_ne_zero {token : Token} (h : ¬ token.isNull) :
    token.row.toNat ≠ 0 := by
  intro zero
  apply h
  rw [isNull, beq_iff_eq]
  exact UInt32.toNat_inj.mp zero

end Token

/-- Rows are found by tokens of their table. -/
theorem isIn_of_rowAt? {ρ : Type} {kind : TableKind} {rows : Array ρ}
    {token : Token} {row : ρ} (found : rowAt? kind rows token = some row) :
    token.isIn kind ∧ ¬ token.isNull := by
  rw [rowAt?] at found
  split at found
  · assumption
  · cases found

/-- A row is found by the token of its number. -/
theorem ofParts_of_rowAt? {ρ : Type} {kind : TableKind} {rows : Array ρ}
    {token : Token} {row : ρ} (found : rowAt? kind rows token = some row) :
    Token.ofParts kind (UInt32.ofNat (token.row.toNat - 1 + 1)) = token := by
  obtain ⟨isIn, hnull⟩ := isIn_of_rowAt? found
  rw [Nat.sub_add_cancel (Nat.pos_of_ne_zero (Token.toNat_row_ne_zero hnull)),
    UInt32.ofNat_toNat]
  exact Token.ofParts_row isIn

/-- A row that is found by a token is the row of that token. -/
theorem RowsAreNumbered.token_eq {ρ : Type} {kind : TableKind}
    {token : ρ → Token} {rows : Array ρ} (h : RowsAreNumbered kind token rows)
    {wanted : Token} {row : ρ} (found : rowAt? kind rows wanted = some row) :
    token row = wanted := by
  have named := ofParts_of_rowAt? found
  rw [rowAt?] at found
  split at found
  · rw [h _ row found, named]
  · cases found

/-! ### Steps of a builder -/

namespace Build

variable {α β : Type} {I : ModuleBuilder → Prop}

/-- A property of builders that a step does not break. -/
def Keeps (I : ModuleBuilder → Prop) (build : Build α) : Prop :=
  ∀ b a b', I b → build.run b = .ok (a, b') → I b'

namespace Keeps

theorem pure (a : α) : Keeps I (Pure.pure a) := by
  rintro b _ _ h ⟨⟩
  exact h

theorem throw (error : Error) :
    Keeps I (MonadExcept.throw error : Build α) := by
  intro b a b' _ h
  cases h

theorem get : Keeps I (MonadState.get : Build ModuleBuilder) := by
  rintro b _ _ h ⟨⟩
  exact h

theorem bind {build : Build α} {f : α → Build β} (first : Keeps I build)
    (second : ∀ a, Keeps I (f a)) : Keeps I (build >>= f) := by
  intro b c b' h hrun
  rw [StateT.run_bind] at hrun
  cases hbuild : build.run b with
  | error e =>
    rw [hbuild] at hrun
    cases hrun
  | ok out =>
    rw [hbuild] at hrun
    exact second out.1 out.2 c b' (first b out.1 out.2 h hbuild) hrun

theorem ite {c : Prop} [Decidable c] {build other : Build α}
    (first : Keeps I build) (second : Keeps I other) :
    Keeps I (if c then build else other) := by
  split
  exacts [first, second]

theorem forM {items : List α} {f : α → Build PUnit}
    (step : ∀ a, Keeps I (f a)) :
    Keeps I (items.forM f) := by
  induction items with
  | nil => exact pure _
  | cons a items ih => exact (step a).bind fun _ => ih

theorem forIn {items : List α} {f : α → Build (ForInStep PUnit)}
    (step : ∀ a, Keeps I (f a)) :
    Keeps I (ForIn.forIn items PUnit.unit fun a _ => f a) := by
  induction items with
  | nil => exact pure _
  | cons a items ih =>
    rw [List.forIn_cons]
    refine (step a).bind fun next => ?_
    cases next with
    | done => exact pure _
    | yield => exact ih

end Keeps

end Build

namespace ModuleBuilder

open Build

/-- A step that needs bytes first does nothing if there are none. -/
theorem keeps_lift_bind {I : ModuleBuilder → Prop} {α β : Type}
    {encoded : Except Error α} {f : α → Build β} (step : ∀ a, Keeps I (f a)) :
    Keeps I (liftM encoded >>= f) := by
  refine Keeps.bind ?_ step
  intro b a b' h hrun
  cases encoded with
  | error e => cases hrun
  | ok bytes =>
    cases hrun
    exact h

/-! ### Everything that is built -/

section
variable {I : ModuleBuilder → Prop}

theorem keeps_addWellKnown (calls : ∀ call : Call, Keeps I call.run)
    (object valueType delegate : Token) (kind : WellKnown) :
    Keeps I (addWellKnown object valueType delegate kind) := by
  refine Keeps.get.bind fun b => Keeps.ite ?_ (Keeps.pure _)
  refine (calls (.typeDef _ _ _ _)).bind fun token => Keeps.ite ?_
    (Keeps.pure _)
  exact (calls (.genericParam _ _ _)).bind fun _ => Keeps.pure _

/-- The core library is built by calls. -/
theorem keeps_addCoreTypes (calls : ∀ call : Call, Keeps I call.run) :
    Keeps I addCoreTypes := by
  -- The types that every other one derives from.
  refine (calls (.typeDef _ _ _ _)).bind fun object => ?_
  refine (calls (.typeDef _ _ _ _)).bind fun valueType => ?_
  refine (calls (.typeDef _ _ _ _)).bind fun enumType => ?_
  refine (calls (.typeDef _ _ _ _)).bind fun delegate => ?_
  refine (calls (.typeDef _ _ _ _)).bind fun attributeBase => ?_
  -- The rest of the well-known types.
  refine (Keeps.forM (keeps_addWellKnown calls object valueType delegate)).bind
    fun _ => ?_
  -- The methods of `Object` and the constructors of the bases.
  refine (calls (.methodDef _ _ _ _)).bind fun _ => ?_
  refine (calls (.methodDef _ _ _ _)).bind fun _ => ?_
  refine (calls (.methodDef _ _ _ _)).bind fun _ => ?_
  refine (calls (.methodDef _ _ _ _)).bind fun _ => ?_
  refine (calls (.methodDef _ _ _ _)).bind fun _ => ?_
  refine Keeps.bind ?_ fun _ => ?_
  · -- Attributes, each with a constructor.
    refine Keeps.forIn fun name => ?_
    refine (calls (.typeDef _ _ _ _)).bind fun token => ?_
    exact (calls (.methodDef _ _ _ _)).bind fun _ => Keeps.pure _
  · -- The attribute of inline arrays has a field as well.
    refine (calls (.typeDef _ _ _ _)).bind fun inlineArray => ?_
    refine (calls (.methodDef _ _ _ _)).bind fun _ => ?_
    exact (calls (.field _ _ _ _)).bind fun _ => Keeps.pure _

/-- What holds of a new builder and is kept by calls holds of everything that is
built. -/
theorem IsBuilt.keeps (start : ∀ assembly, I (ModuleBuilder.new assembly))
    (calls : ∀ call : Call, Keeps I call.run) {b : ModuleBuilder}
    (h : b.IsBuilt) : I b := by
  induction h with
  | new assembly => exact start assembly
  | @coreLibrary assembly b h =>
    rw [ModuleBuilder.coreLibrary] at h
    -- The core library is a run of calls.
    cases hrun : addCoreTypes.run (ModuleBuilder.new assembly) with
    | error e =>
      rw [hrun] at h
      cases h
    | ok out =>
      rw [hrun] at h
      cases h
      exact keeps_addCoreTypes calls (ModuleBuilder.new assembly) out.1 out.2
        (start assembly) hrun
  | @call b call _ ih =>
    rw [apply]
    split
    · -- A call that succeeds keeps what it kept, and one that fails changes
      -- nothing.
      next hrun => exact calls call b _ _ ih hrun
    · exact ih

end

theorem IsBuilt.applyAll {b : ModuleBuilder} (h : b.IsBuilt)
    (calls : List Call) :
    (b.applyAll calls).IsBuilt := by
  induction calls generalizing b with
  | nil => exact h
  | cons call calls ih => exact ih (h.call call)

end ModuleBuilder

end CliMetadata
