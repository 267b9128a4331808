import CliMetadata.Proofs.Decoder
import CliMetadata.Proofs.Signature.Canonical

/-!
# How deeply a signature may nest

A limit on the nesting of types tells signatures apart by their depth and by
nothing else: reading with a limit does what reading with a larger one does,
except that it fails where what the larger one reads lies deeper.  How many
types lie beside each other does not count, nor what was read before.

Each part of a signature is cut in this way where the types in it are, so the
law is proved once for the steps of a decoder (`Decoder.Cuts`) and then along
them.  The result is `Signature.isCutByDepth`, for types, method signatures and
field signatures.
-/

namespace CliMetadata

/-! ### Cutting decoders -/

namespace Decoder

variable {α β : Type} {error : Error} {P : α → Prop} {Q : β → Prop}

/-- What the decoder reads is as told. -/
def Reads (d : Decoder α) (P : α → Prop) : Prop :=
  ∀ bytes value rest, d.run bytes = .ok (value, rest) → P value

/-- The first decoder does what the second does where what is read is as told,
and fails with a given error before anything else is read. -/
def Cuts (error : Error) (P : α → Prop) (d e : Decoder α) : Prop :=
  ∀ bytes,
    (d.run bytes = e.run bytes ∧ ∀ value rest,
      e.run bytes = .ok (value, rest) → P value) ∨
    (d.run bytes = .error error ∧ ∀ value rest,
      e.run bytes = .ok (value, rest) → ¬ P value)

namespace Reads

theorem pure {value : α} (h : P value) : Reads (Pure.pure value) P := by
  rintro _ _ _ ⟨⟩
  exact h

theorem malformed (what : Malformation) : Reads (Decoder.malformed what) P := by
  rintro _ _ _ ⟨⟩

/-- It is enough to look at the later step. -/
theorem after {d : Decoder α} {f : α → Decoder β} (h : ∀ a, Reads (f a) Q) :
    Reads (d >>= f) Q := by
  intro bytes value rest hrun
  obtain ⟨a, middle, -, hf⟩ := run_bind_eq_ok.mp hrun
  exact h a middle value rest hf

/-- Nothing is read where the bytes are reported. -/
theorem checked {c : Prop} [Decidable c] {what : Malformation} {d : Decoder α}
    (h : Reads d P) :
    Reads (if c then Decoder.malformed what >>= fun _ : Unit => d else d)
      P := by
  split
  · rintro _ _ _ ⟨⟩
  · exact h

end Reads

namespace Cuts

/-- Nothing is cut where all that is read is as told. -/
theorem same {d : Decoder α} (h : Reads d P) : Cuts error P d d :=
  fun bytes => .inl ⟨rfl, h bytes⟩

theorem bind {d e : Decoder α} {f g : α → Decoder β} (first : Cuts error P d e)
    (within : ∀ a, P a → Cuts error Q (f a) (g a))
    (beyond : ∀ a, ¬ P a → Reads (g a) fun b => ¬ Q b) :
    Cuts error Q (d >>= f) (e >>= g) := by
  intro bytes
  obtain ⟨heq, hP⟩ | ⟨hcut, hP⟩ := first bytes
  · -- The first step is not cut: what follows decides.
    rw [StateT.run_bind, StateT.run_bind, heq]
    cases he : e.run bytes with
    | error => exact .inl ⟨rfl, nofun⟩
    | ok out => exact within out.1 (hP out.1 out.2 he) out.2
  · refine .inr ⟨by rw [StateT.run_bind, hcut]; rfl, fun b rest hrun => ?_⟩
    obtain ⟨a, middle, ha, hb⟩ := run_bind_eq_ok.mp hrun
    exact beyond a (hP a middle ha) middle b rest hb

/-- A step that both take alike. -/
theorem after {d : Decoder α} {f g : α → Decoder β}
    (h : ∀ a, Cuts error Q (f a) (g a)) :
    Cuts error Q (d >>= f) (d >>= g) :=
  (same (P := fun _ => True) fun _ _ _ _ => trivial).bind (fun a _ => h a)
    fun _ ha => absurd trivial ha

/-- The last step of a decoder puts together what was read. -/
theorem map {d e : Decoder α} {f : α → β} (first : Cuts error P d e)
    (last : ∀ a, Q (f a) ↔ P a) :
    Cuts error Q (do return f (← d)) (do return f (← e)) :=
  first.bind (fun a ha => same (.pure ((last a).mpr ha)))
    fun a ha => .pure fun h => ha ((last a).mp h)

theorem ite {c : Prop} [Decidable c] {d d' e e' : Decoder α}
    (first : c → Cuts error P d d') (second : ¬ c → Cuts error P e e') :
    Cuts error P (if c then d else e) (if c then d' else e') := by
  split
  · next hc => exact first hc
  · next hc => exact second hc

/-- Bytes that both report are not cut. -/
theorem checked {c : Prop} [Decidable c] {what : Malformation} {d e : Decoder α}
    (h : Cuts error P d e) :
    Cuts error P (if c then Decoder.malformed what >>= fun _ : Unit => d else d)
      (if c then Decoder.malformed what >>= fun _ : Unit => e else e) :=
  .ite (fun _ => .after fun _ => h) fun _ => h

theorem times {d e : Decoder α} (item : Cuts error P d e) (count : Nat) :
    Cuts error (fun items => ∀ a ∈ items, P a) (d.times count)
      (e.times count) := by
  induction count with
  | zero => exact same (.pure (List.forall_mem_nil _))
  | succ count ih =>
    refine item.bind (fun a ha => ih.map fun items => ?_) fun a ha => .after
      fun items => .pure ?_
    · simp [ha]
    · exact fun h => ha (h a List.mem_cons_self)

/-- The first decoder does what the second does or fails. -/
theorem eq_or_eq_error {d e : Decoder α} (h : Cuts error P d e)
    (bytes : List UInt8) :
    d.run bytes = e.run bytes ∨ d.run bytes = .error error :=
  (h bytes).imp And.left And.left

/-- The first decoder reads what the second reads and is as told. -/
theorem run_eq_ok_iff {d e : Decoder α} (h : Cuts error P d e)
    {bytes rest : List UInt8} {value : α} :
    d.run bytes = .ok (value, rest) ↔ e.run bytes = .ok (value, rest) ∧
    P value := by
  obtain ⟨heq, hP⟩ | ⟨hcut, hP⟩ := h bytes
  · rw [heq]
    exact ⟨fun hrun => ⟨hrun, hP value rest hrun⟩, And.left⟩
  · rw [hcut]
    exact ⟨nofun, fun hrun => absurd hrun.2 (hP value rest hrun.1)⟩

end Cuts

end Decoder

/-! ### Parts of signatures -/

open Decoder

@[simp]
theorem TypeSig.depthEach_le_iff {ts : List TypeSig} {room : Nat} :
    TypeSig.depthEach ts ≤ room ↔ ∀ t ∈ ts, t.depth ≤ room := by
  induction ts with
  | nil => simp [depthEach]
  | cons t ts ih => rw [depthEach, Nat.max_le, ih, List.forall_mem_cons]

@[simp]
theorem ParamSig.depthEach_cons_le_iff {p : ParamSig} {ps : List ParamSig}
    {room : Nat} :
    ParamSig.depthEach (p :: ps) ≤ room ↔ p.depth ≤ room ∧
    ParamSig.depthEach ps ≤ room := by
  rw [depthEach, Nat.max_le]

/-- Every type is at least one deep. -/
theorem TypeSig.one_le_depth (t : TypeSig) : 1 ≤ t.depth := by
  cases t <;> simp

@[simp]
theorem MethodSig.depth_le_iff {m : MethodSig} {room : Nat} :
    m.depth ≤ room ↔ m.result.depth ≤ room ∧
      ParamSig.depthEach m.params ≤ room ∧
      ParamSig.depthEach m.varargs ≤ room := by
  cases m
  rw [depth, Nat.max_le, Nat.max_le]

section
variable {token : Decoder Token} {type type' : Decoder TypeSig} {error : Error}
  {room : Nat} (h : Cuts error (fun t => t.depth ≤ room) type type')
include h

theorem ParamSig.cuts_decodeWith :
    Cuts error (fun p => p.depth ≤ room) (ParamSig.decodeWith token type)
      (ParamSig.decodeWith token type') :=
  .after fun _ => .after fun _ =>
    .ite (fun _ => .after fun _ => h.map fun _ => Iff.rfl) fun _ => h.map
      fun _ => Iff.rfl

/-- Whether parameters are declared or added, each is cut by itself. -/
theorem ParamSig.cuts_decodeList (count : Nat) (added : Bool) :
    Cuts error (fun lists => ParamSig.depthEach lists.1 ≤ room ∧
      ParamSig.depthEach lists.2 ≤ room)
      (ParamSig.decodeList token type count added)
        (ParamSig.decodeList token type' count added) := by
  induction count generalizing added with
  | zero => exact .same (.pure (by simp [depthEach]))
  | succ count ih =>
    refine .after fun added => ?_
    refine (ParamSig.cuts_decodeWith h).bind
      (fun p hp => (ih added).map fun lists => ?_)
      fun p hp => .after fun lists => .pure ?_
    · cases added <;> simp [hp]
    · cases added <;> simp [hp]

theorem MethodSig.cuts_decodeWith :
    Cuts error (fun m => m.depth ≤ room) (MethodSig.decodeWith token type)
      (MethodSig.decodeWith token type') := by
  refine .after fun head => .checked
    (.after fun genericCount => .after fun count => ?_)
  refine (ParamSig.cuts_decodeWith h).bind (fun result hresult => ?_)
    fun result hresult => ?_
  · refine (ParamSig.cuts_decodeList h _ _).map fun lists => ?_
    rw [MethodSig.depth_le_iff, and_iff_right hresult]
  · exact .after fun lists => .pure fun hdepth => hresult
      (MethodSig.depth_le_iff.mp hdepth).1

namespace TypeSig

/-- An array is one level above its element, whatever its shape. -/
theorem cuts_array : Cuts error (fun t : TypeSig => t.depth ≤ room + 1)
    (do
      let element ← type
      let rank ← CompressedInteger.decode
      if rank = 0 then
        Decoder.malformed .arrayOfRankZero
      let sizes ← decodeNumbers
      return TypeSig.array element rank sizes (← decodeNumbers))
    (do
      let element ← type'
      let rank ← CompressedInteger.decode
      if rank = 0 then
        Decoder.malformed .arrayOfRankZero
      let sizes ← decodeNumbers
      return TypeSig.array element rank sizes (← decodeNumbers)) := by
  -- The element decides; what follows it reads the same in both.
  refine h.bind (fun element helement => .same ?_) fun element helement => ?_
  · -- The element was cut, and so is the array.
    refine .after fun rank => .checked
      (.after fun sizes => .after fun bounds => .pure ?_)
    rw [depth, Nat.add_le_add_iff_right]
    exact helement
  · refine .after fun rank => .checked
      (.after fun sizes => .after fun bounds => .pure ?_)
    rw [depth, Nat.add_le_add_iff_right]
    exact helement

/-- An applied generic type is one level above the deepest of its head and its
arguments. -/
theorem cuts_generic : Cuts error (fun t : TypeSig => t.depth ≤ room + 1)
    (do
      let next ← Decoder.peek
      if next ≠ ElementType.referenceType ∧ next ≠ ElementType.valueType then
        Decoder.malformed (.genericHead next)
      let definition ← type
      let count ← CompressedInteger.decode
      if count = 0 then
        Decoder.malformed .noTypeArguments
      return TypeSig.generic definition (← Decoder.times type count.toNat))
    (do
      let next ← Decoder.peek
      if next ≠ ElementType.referenceType ∧ next ≠ ElementType.valueType then
        Decoder.malformed (.genericHead next)
      let definition ← type'
      let count ← CompressedInteger.decode
      if count = 0 then
        Decoder.malformed .noTypeArguments
      return TypeSig.generic definition
        (← Decoder.times type' count.toNat)) := by
  refine .after fun next => .checked ?_
  refine h.bind (fun definition hdefinition => .after fun count => .checked ?_)
    fun definition hdefinition => .after fun count => .checked ?_
  · -- With the definition read, the arguments decide.
    refine (h.times count.toNat).map fun arguments => ?_
    rw [depth, Nat.add_le_add_iff_right, Nat.max_le, TypeSig.depthEach_le_iff]
    exact and_iff_right hdefinition
  · -- A definition that is too deep makes the type too deep.
    refine .after fun arguments => .pure ?_
    rw [depth, Nat.add_le_add_iff_right, Nat.max_le]
    exact fun hdepth => hdefinition hdepth.1

/-- A type is cut one level above the types inside it. -/
theorem cuts_decodeAfter (lead : UInt8) :
    Cuts error (fun t => t.depth ≤ room + 1) (decodeAfter token type lead)
      (decodeAfter token type' lead) := by
  -- One case for each byte that a type may begin with, by what follows it.
  have leaf {t : TypeSig} (ht : t.depth = 1) : t.depth ≤ room + 1 :=
    Nat.le_trans (Nat.le_of_eq ht) (Nat.le_add_left 1 room)
  have named {build : Token → TypeSig} (hbuild : ∀ t, (build t).depth = 1) :
      Reads (do return build (← token)) fun t => t.depth ≤ room + 1 :=
    .after fun t => .pure (leaf (hbuild t))
  have numbered {build : UInt32 → TypeSig} (hbuild : ∀ n, (build n).depth = 1) :
      Reads (do return build (← CompressedInteger.decode)) fun t =>
        t.depth ≤ room + 1 :=
    .after fun n => .pure (leaf (hbuild n))
  have single {build : TypeSig → TypeSig}
      (hbuild : ∀ t, (build t).depth = t.depth + 1) :
      Cuts error (fun t => t.depth ≤ room + 1) (do return build (← type))
        (do return build (← type')) :=
    h.map fun t => by simp [hbuild]
  rw [decodeAfter, decodeAfter]
  split
  · exact .same (.pure (leaf (by simp)))
  refine .ite (fun _ => .after fun _ => single fun _ => by simp) fun _ => ?_
  refine .ite (fun _ => single fun _ => by simp) fun _ => ?_
  refine .ite (fun _ => .same (named fun _ => by simp)) fun _ => ?_
  refine .ite (fun _ => .same (named fun _ => by simp)) fun _ => ?_
  refine .ite (fun _ => .same (numbered fun _ => by simp)) fun _ => ?_
  refine .ite (fun _ => .same (numbered fun _ => by simp)) fun _ => ?_
  refine .ite (fun _ => cuts_array h) fun _ => ?_
  refine .ite (fun _ => cuts_generic h) fun _ => ?_
  refine .ite (fun _ => (MethodSig.cuts_decodeWith h).map fun m => ?_)
    fun _ => ?_
  · simp
  refine .ite (fun _ => .after fun _ => single fun _ => by simp) fun _ => ?_
  exact .ite (fun _ => single fun _ => by simp) fun _ => .same (.malformed _)

end TypeSig

end

/-- Where there is less room, deeper types are cut.  The induction is on the
room that is left: none is left for any type, and each level leaves one less for
the types inside. -/
theorem TypeSig.cuts_decodeWithin (token : Decoder Token) (limit limit' : Nat)
    {room room' : Nat} (hroom : room ≤ room') :
    Cuts (.tooDeep limit) (fun t => t.depth ≤ room)
      (TypeSig.decodeWithin token limit room)
      (TypeSig.decodeWithin token limit' room') := by
  induction room generalizing room' with
  | zero =>
    refine fun bytes => .inr ⟨rfl, fun t _ _ hdepth => ?_⟩
    exact absurd (Nat.le_trans t.one_le_depth hdepth) (by decide)
  | succ room ih =>
    obtain ⟨room', rfl⟩ := Nat.exists_eq_add_one_of_ne_zero
      (Nat.ne_zero_of_lt hroom)
    exact .after (TypeSig.cuts_decodeAfter (ih (Nat.le_of_succ_le_succ hroom)))

/-! ### Signatures -/

section
variable {limit limit' : Nat} (hlimit : limit ≤ limit')
include hlimit

theorem TypeSig.cuts_decode :
    Cuts (.tooDeep limit) (fun t => t.depth ≤ limit) (TypeSig.decode limit)
      (TypeSig.decode limit') :=
  TypeSig.cuts_decodeWithin CodedToken.decode limit limit' hlimit

theorem MethodSig.cuts_decode : Cuts (.tooDeep limit) (fun m => m.depth ≤ limit)
    (MethodSig.decode limit) (MethodSig.decode limit') :=
  MethodSig.cuts_decodeWith (TypeSig.cuts_decode hlimit)

theorem FieldSig.cuts_decode : Cuts (.tooDeep limit) (fun f => f.depth ≤ limit)
    (FieldSig.decode limit) (FieldSig.decode limit') := by
  have after : Cuts (.tooDeep limit) (fun f => f.depth ≤ limit)
      (do
        let modifiers ← Modifier.decodeEachWith CodedToken.decode
        return FieldSig.mk modifiers (← TypeSig.decode limit))
      (do
        let modifiers ← Modifier.decodeEachWith CodedToken.decode
        return FieldSig.mk modifiers (← TypeSig.decode limit')) :=
    .after fun modifiers => (TypeSig.cuts_decode hlimit).map fun _ => Iff.rfl
  exact .after fun head => .ite (fun _ => .after fun _ => after) fun _ => after

end

/-- A limit of some way to read bytes cuts by depth.  A smaller limit changes
nothing or is the reason of a failure, and what is read with a limit is what is
read with any and is no deeper. -/
structure Signature.IsCutByDepth {α : Type}
    (read : Nat → List UInt8 → Except Error α) (depth : α → Nat) : Prop where
  eq_or_tooDeep : ∀ limit limit', limit ≤ limit' → ∀ bytes,
    read limit bytes = read limit' bytes ∨
      read limit bytes = .error (.tooDeep limit)
  eq_ok_iff : ∀ limit bytes s,
    read limit bytes = .ok s ↔ (∃ any, read any bytes = .ok s) ∧ depth s ≤ limit

/-- Decoders of which each cuts the later ones are cut by depth. -/
theorem Signature.isCutByDepth_of_cuts {α : Type} {decode : Nat → Decoder α}
    {depth : α → Nat}
    (h : ∀ limit limit', limit ≤ limit' →
      Cuts (.tooDeep limit) (fun s => depth s ≤ limit) (decode limit)
        (decode limit')) :
    IsCutByDepth (fun limit => (decode limit).run') depth where
  eq_or_tooDeep limit limit' hlimit bytes := by
    refine ((h limit limit' hlimit).eq_or_eq_error bytes).imp
      (congrArg (Prod.fst <$> ·)) fun hrun => ?_
    change Prod.fst <$> (decode limit).run bytes = _
    rw [hrun]
    rfl
  eq_ok_iff limit bytes s := by
    simp only [run'_eq_ok_iff]
    constructor
    · -- The depth fits, for the bytes were accepted.
      rintro ⟨rest, hrun⟩
      exact ⟨⟨limit, rest, hrun⟩,
        ((h limit limit (Nat.le_refl limit)).run_eq_ok_iff.mp hrun).2⟩
    · -- Limits above the depth all read the same.
      rintro ⟨⟨any, rest, hrun⟩, hdepth⟩
      refine ⟨rest, ?_⟩
      obtain hle | hle := Nat.le_total limit any
      · exact (h limit any hle).run_eq_ok_iff.mpr ⟨hrun, hdepth⟩
      · exact ((h any limit hle).run_eq_ok_iff.mp hrun).1

/-- **Limits cut by depth.**  Whether a type, a method signature or a field
signature is read, and from whatever bytes: a smaller limit gives the same
signature or error as a larger one, or is the reason why nothing is read; and a
signature is read exactly if some limit lets it be read and it is no deeper than
the limit. -/
theorem Signature.isCutByDepth :
    IsCutByDepth TypeSig.ofBytes TypeSig.depth ∧
    IsCutByDepth MethodSig.ofBytes MethodSig.depth ∧
      IsCutByDepth FieldSig.ofBytes FieldSig.depth :=
  ⟨isCutByDepth_of_cuts fun _ _ => TypeSig.cuts_decode,
    isCutByDepth_of_cuts fun _ _ => MethodSig.cuts_decode,
    isCutByDepth_of_cuts fun _ _ => FieldSig.cuts_decode⟩

/-- Two arrays beside each other need no more room than one. -/
example :
    (MethodSig.ofBytes 2 [0x00, 0x02, 0x01, 0x1D, 0x08, 0x1D, 0x08]).toBool
      = true ∧
    (MethodSig.ofBytes 1 [0x00, 0x02, 0x01, 0x1D, 0x08, 0x1D, 0x08]).toBool
      = false := by
  decide +kernel

end CliMetadata
