import CliMetadata.Proofs.TypeSystem.Transfer.Members

/-!
# Hashes from one type system to another

A hash that is kept was found with what could be found of the types around a
type at that time.  Where these are told by tokens of definitions they can
always be found, and the hash transfers.  Where they are told by references, the
hash that is kept may be one that would not be found later; then a hash does no
more harm than that (`Ty.unlasting_hash`).
-/

namespace CliMetadata

open Filter Query

variable {gap : Gap} {before after : Registry}

/-! ### Steady types -/

section
variable {t : Ty} {d : TypeDefinition}

/-- The type around a steady definition is steady. -/
theorem Module.Declares.isSteady (proper : after.IsProper) {m : Module}
    (hm : m ∈ after.modules) (named : m.name = d.module) {outer : Token}
    (around : m.image.enclosing? d.token = some outer)
    (steady : (Ty.definition d).IsSteady after.modules)
    (h : m.Declares outer t) :
    t.IsSteady after.modules := by
  obtain ⟨row, hrow, rfl⟩ := h
  intro e he n hn same
  obtain rfl : m.definitionOfRow row = e := by
    simpa [Ty.parts, eq_comm] using he
  obtain rfl := proper.eq_of_name_eq hn hm same
  have nests := steady d (List.mem_singleton_self _) n hn named
  intro inner hinner
  refine nests inner ?_
  rw [show (n.definitionOfRow row).token
    = outer from (proper.rows n hn).typeDef hrow] at hinner
  exact hinner.head around

variable (steady : (Ty.definition d).IsSteady after.modules)
include steady

theorem TypeDefinition.transfers_containing_of_isSteady :
    d.containing.Transfers gap before after always fun _ => d.containing := by
  refine .ite (fun _ => .pure _) fun _ => transfers_reachModule_bind
    fun m hm named => ?_
  cases around : m.image.enclosing? d.token with
  | none => exact .throw _
  | some outer =>
    have nests := steady d (List.mem_singleton_self _) m hm named
    have isIn := nests d.token Relation.ReflTransGen.refl outer around
    refine transfers_requireTypeSystem.bind fun _ => .of_leads fun leads _ => ?_
    refine .read_bind (fun _ => rfl) fun _ => ?_
    rw [leads.options]
    exact .ite (fun _ => Module.transfers_type_of_isIn hm isIn)
      fun _ => .throw_bind _

theorem TypeDefinition.tells_containing_of_isSteady :
    d.containing.Tells gap before after fun found =>
      ∀ t ∈ found, t.IsSteady after.modules := by
  refine .ite (fun _ => .pure nofun) fun _ => ?_
  refine (transfers_reachModule _).tells_bind (tells_reachModule _)
    fun m hm => ?_
  cases around : m.image.enclosing? d.token with
  | none => exact (Fails.throw _).tells
  | some outer =>
    -- A steady type is enclosed by a definition of its own module.
    have nests := steady d (List.mem_singleton_self _) m hm.1 hm.2
    have isIn := nests d.token Relation.ReflTransGen.refl outer around
    refine transfers_requireTypeSystem.tells_bind .trivial
      fun _ _ => .read_bind ?_
    refine .ite (fun _ => .of_sound fun sound => ?_)
      fun _ => (Fails.throw_bind _ _).tells
    refine (Module.tells_type_declares isIn hm.1).imp
      fun found declares t ht => ?_
    exact (declares t ht).isSteady sound.proper hm.1 hm.2 around steady

end

/-! ### Parts of steady types -/

theorem Ty.parts_subset_partsOfEach {t : Ty} {types : List Ty}
    (ht : t ∈ types) :
    t.parts ⊆ Ty.partsOfEach types := by
  induction types with
  | nil => cases ht
  | cons u rest ih =>
    rw [Ty.partsOfEach]
    rcases List.mem_cons.mp ht with rfl | ht
    · exact List.subset_append_left _ _
    · exact List.subset_append_of_subset_right _ (ih ht)

theorem Ty.IsSteady.of_applied {d : TypeDefinition} {arguments : List Ty}
    (h : (Ty.applied d arguments).IsSteady after.modules) :
    (Ty.definition d).IsSteady after.modules ∧
      ∀ t ∈ arguments, t.IsSteady after.modules := by
  rw [Ty.IsSteady, Ty.parts] at h
  refine ⟨fun e he => h e ?_, fun t ht e he => h e ?_⟩
  · obtain rfl := by simpa [Ty.parts] using he
    simp
  · simp [Ty.parts_subset_partsOfEach ht he]

theorem Ty.IsSteady.of_shaped {shape : Shape} {element : Ty}
    (h : (Ty.shaped shape element).IsSteady after.modules) :
    element.IsSteady after.modules := by
  rw [Ty.IsSteady, Ty.parts] at h
  exact fun e he => h e (List.mem_cons_of_mem _ he)

/-! ### Hashes of steady types -/

/-- The hash of a type that is built from others, given how it is found. -/
theorem Ty.transfers_remembered (t : Ty)
    {find : (TypeDefinition → Query UInt32) → Query UInt32}
    (asks : ∀ hashOf, t.hashFrom hashOf
      = Ty.hashFrom.remembered t (find hashOf))
    (steady : t.IsSteady after.modules) {hashOf : TypeDefinition → Query UInt32}
    (h : ∀ room, Tendsto room atTop atTop →
      (find hashOf).Transfers gap before after always
        fun l => find (TypeDefinition.hashWithin (room l)))
    {room : Nat → Nat} (large : Tendsto room atTop atTop) :
    (t.hashFrom hashOf).Transfers gap before after always
      fun l => t.hashFrom (TypeDefinition.hashWithin (room l)) := by
  -- The hash is noted unless it is zero.
  have remembers : Remembers after (.ofType t .hash) (· ≠ 0)
      fun room => find (TypeDefinition.hashWithin room) := by
    refine .of_forall fun room l memory => ?_
    show t.hashFrom (TypeDefinition.hashWithin room) _ _ = _
    rw [asks]
    rfl
  simp only [asks]
  exact Transfers.rememberIf remembers steady (fun _ _ => trivial)
    (fun _ _ => trivial) h large

mutual

/-- The hash of a steady type transfers if the hashes of steady definitions
do. -/
theorem Ty.transfers_hashFrom {hashOf : TypeDefinition → Query UInt32}
    (hashes : ∀ d : TypeDefinition, (Ty.definition d).IsSteady after.modules →
      ∀ room, Tendsto room atTop atTop →
      (hashOf d).Transfers gap before after always
        fun l => TypeDefinition.hashWithin (room l) d)
    (t : Ty) (steady : t.IsSteady after.modules) {room : Nat → Nat}
    (large : Tendsto room atTop atTop) :
    (t.hashFrom hashOf).Transfers gap before after always
      fun l => t.hashFrom (TypeDefinition.hashWithin (room l)) := by
  match t with
  | .definition d => exact hashes d steady room large
  | .applied d arguments =>
    -- The definition is hashed first, and then the arguments.
    obtain ⟨definition, each⟩ := steady.of_applied
    refine Ty.transfers_remembered _ (fun _ => rfl) steady
      (fun room large => ?_) large
    refine (hashes d definition room large).bind fun _ => ?_
    exact (Ty.transfers_hashesFrom hashes arguments each large).bind
      fun _ => .pure _
  | .parameter p =>
    refine Ty.transfers_remembered _ (fun _ => rfl) steady
      (fun room large => ?_) large
    exact p.transfers_simpleName.bind fun _ => .pure _
  | .var index isMethod => exact .pure _
  | .shaped shape element =>
    -- What is inside is hashed first.
    refine Ty.transfers_remembered _ (fun _ => rfl) steady
      (fun room large => ?_) large
    refine (Ty.transfers_hashFrom hashes element steady.of_shaped large).bind
      fun hash => ?_
    cases shape with
    | _ => exact .pure _

theorem Ty.transfers_hashesFrom {hashOf : TypeDefinition → Query UInt32}
    (hashes : ∀ d : TypeDefinition, (Ty.definition d).IsSteady after.modules →
      ∀ room, Tendsto room atTop atTop →
      (hashOf d).Transfers gap before after always
        fun l => TypeDefinition.hashWithin (room l) d)
    (types : List Ty) (steady : ∀ t ∈ types, t.IsSteady after.modules)
    {room : Nat → Nat} (large : Tendsto room atTop atTop) :
    (Ty.hashesFrom hashOf types).Transfers gap before after always
      fun l => Ty.hashesFrom (TypeDefinition.hashWithin (room l)) types := by
  match types with
  | [] => exact .pure _
  | t :: rest =>
    obtain ⟨first, others⟩ := List.forall_mem_cons.mp steady
    refine (Ty.transfers_hashFrom hashes t first large).bind fun _ => ?_
    exact (Ty.transfers_hashesFrom hashes rest others large).bind
      fun _ => .pure _

end

/-- The hash of a steady definition transfers, however many steps it may
take. -/
theorem TypeDefinition.transfers_hashWithin (roomBefore : Nat)
    (d : TypeDefinition) (steady : (Ty.definition d).IsSteady after.modules)
    (room : Nat → Nat) (large : Tendsto room atTop atTop) :
    (TypeDefinition.hashWithin roomBefore d).Transfers gap before after always
      fun l => TypeDefinition.hashWithin (room l) d := by
  induction roomBefore generalizing d room with
  | zero => exact .circular _ _
  | succ roomBefore ih =>
    have remembers : Remembers after (.ofType (.definition d) .hash) (· ≠ 0)
        fun room => d.hashWith (TypeDefinition.hashWithin (room - 1)) := by
      filter_upwards [eventually_ge_atTop 1] with room hroom l memory
      obtain ⟨room, rfl⟩ := Nat.exists_eq_add_of_le' hroom
      rfl
    -- In the long run there is room for one more step.
    suffices h : (TypeDefinition.hashWithin (roomBefore + 1) d).Transfers gap
        before after always
        fun l => TypeDefinition.hashWithin (room l - 1 + 1) d from
      h.congr ((eventually_sub_add_one large).mono fun l hl => by rw [hl])
    refine Transfers.rememberIf remembers steady (fun _ _ => trivial)
      (fun _ _ => trivial) (fun room large => ?_) large
    refine d.transfers_simpleName.bind fun name => ?_
    refine (d.transfers_containing_of_isSteady steady).bind_told
      (d.tells_containing_of_isSteady steady) fun outer houter => ?_
    cases outer with
    | none => exact d.transfers_namespaceText.bind fun _ => .pure _
    | some outer =>
      refine (Ty.transfers_hashFrom (fun d steady room large =>
        ih d steady room large) outer
        (houter outer rfl) (tendsto_sub_one large)).bind fun _ => .pure _

/-- The hash of a steady type transfers. -/
theorem Ty.transfers_hash {t : Ty} (steady : t.IsSteady after.modules) :
    t.hash.Transfers gap before after always fun _ => t.hash :=
  .read fun _ => Ty.transfers_hashFrom (TypeDefinition.transfers_hashWithin _) t
    steady after.tendsto_nestingBound

/-! ### Hashes of any types -/

mutual

/-- A hash leaves the memory settled if the hashes of definitions do. -/
theorem Ty.unlasting_hashFrom (hgap : gap ≠ .none)
    {hashOf : TypeDefinition → Query UInt32}
    (hashes : ∀ d : TypeDefinition, (Ty.definition d).IsSteady after.modules →
      ∀ room, Tendsto room atTop atTop →
      (hashOf d).Transfers gap before after always
        fun l => TypeDefinition.hashWithin (room l) d)
    (others : ∀ d, (hashOf d).Transfers gap before after never
      fun _ => hashOf d)
    (t : Ty) :
    (t.hashFrom hashOf).Transfers gap before after never
      fun _ => t.hashFrom hashOf := by
  -- The hash of a steady type transfers, and that of another is remembered, but
  -- not relied on.
  by_cases steady : t.IsSteady after.modules
  · exact (Ty.transfers_hashFrom hashes t steady tendsto_id).unlasting hgap
  match t with
  | .definition d => exact others d
  | .applied d arguments =>
    refine .rememberIf_of_not_isSteady hgap steady (fun _ => trivial) ?_
    refine (others d).bind_never fun _ => ?_
    exact (Ty.unlasting_hashesFrom hgap hashes others arguments).bind_never
      fun _ => .pure _
  | .parameter p =>
    refine .rememberIf_of_not_isSteady hgap steady (fun _ => trivial) ?_
    exact p.transfers_simpleName.bind_never fun _ => .pure _
  | .var index isMethod => exact .pure _
  | .shaped shape element =>
    refine .rememberIf_of_not_isSteady hgap steady (fun _ => trivial) ?_
    refine (Ty.unlasting_hashFrom hgap hashes others element).bind_never
      fun hash => ?_
    cases shape with
    | _ => exact .pure _

theorem Ty.unlasting_hashesFrom (hgap : gap ≠ .none)
    {hashOf : TypeDefinition → Query UInt32}
    (hashes : ∀ d : TypeDefinition, (Ty.definition d).IsSteady after.modules →
      ∀ room, Tendsto room atTop atTop →
      (hashOf d).Transfers gap before after always
        fun l => TypeDefinition.hashWithin (room l) d)
    (others : ∀ d, (hashOf d).Transfers gap before after never
      fun _ => hashOf d)
    (types : List Ty) :
    (Ty.hashesFrom hashOf types).Transfers gap before after never
      fun _ => Ty.hashesFrom hashOf types := by
  match types with
  | [] => exact .pure _
  | t :: rest =>
    refine (Ty.unlasting_hashFrom hgap hashes others t).bind_never fun _ => ?_
    exact (Ty.unlasting_hashesFrom hgap hashes others rest).bind_never
      fun _ => .pure _

end

theorem TypeDefinition.unlasting_hashWithin (hgap : gap ≠ .none) (room : Nat)
    (d : TypeDefinition) :
    (TypeDefinition.hashWithin room d).Transfers gap before after never
      fun _ => TypeDefinition.hashWithin room d := by
  induction room generalizing d with
  | zero => exact .throw _
  | succ room ih =>
    by_cases steady : (Ty.definition d).IsSteady after.modules
    · exact (d.transfers_hashWithin (room + 1) steady _ tendsto_id).unlasting
        hgap
    -- A hash that is not steady is nothing that lasts.
    refine .rememberIf_of_not_isSteady hgap steady (fun _ => trivial) ?_
    refine d.transfers_simpleName.bind_never fun name =>
      d.transfers_containing.bind_never fun outer => ?_
    cases outer with
    | none => exact d.transfers_namespaceText.bind_never fun _ => .pure _
    | some outer =>
      have hash := Ty.unlasting_hashFrom hgap
        (TypeDefinition.transfers_hashWithin room) ih outer
      exact hash.bind_never fun _ => .pure _

/-- To ask for a hash leaves the memory settled, whatever the hash is worth. -/
theorem Ty.unlasting_hash (hgap : gap ≠ .none) (t : Ty) :
    t.hash.Transfers gap before after never fun _ => t.hash :=
  .read
    fun _ => (Ty.unlasting_hashFrom hgap (TypeDefinition.transfers_hashWithin _)
    (TypeDefinition.unlasting_hashWithin hgap _) t).unlasting hgap

end CliMetadata
