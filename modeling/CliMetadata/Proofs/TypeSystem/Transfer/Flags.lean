import CliMetadata.Proofs.TypeSystem.Transfer.Signatures

/-!
# Flags from one type system to another

The parts of a type's flags transfer, and parts that are established together
are each settled.  The category of a definition may be fixed by the start of a
type system; before the start there is no category to be found, and so none that
the start would change.
-/

namespace CliMetadata

open Filter Query

variable {gap : Gap} {before after : Registry}

/-! ### Category -/

theorem TypeDefinition.transfers_declaredCategory (d : TypeDefinition) :
    d.declaredCategory.Transfers gap before after always
      fun _ => d.declaredCategory := by
  refine transfers_requireTypeSystem.bind fun _ => ?_
  refine (transfers_wellKnown .valueType).bind fun valueType => ?_
  refine (transfers_wellKnown .enum).bind fun enumType =>
    d.transfers_baseType.bind fun base => ?_
  exact .ite (fun _ => .pure _) fun _ => .ite (fun _ => .pure _)
    fun _ => .pure _

/-- A type system that is not ready finds no categories. -/
theorem TypeDefinition.declaredCategory_ne_ok (d : TypeDefinition)
    {registry : Registry} (hready : registry.wellKnown = none) (memory : Memory)
    (category : Category) :
    (d.declaredCategory registry memory).1 ≠ .ok category := by
  intro answer
  obtain ⟨_, memory', _, answer⟩ := bind_eq_ok.mp answer
  obtain ⟨valueType, memory'', run, _⟩ := bind_eq_ok.mp answer
  have asked :
      wellKnown .valueType registry memory' = (.error .notReady, memory') := by
    have read : (MonadReader.read : Query Registry) registry memory'
        = (.ok registry, memory') := rfl
    refine (bind_apply_ok read).trans ?_
    rw [hready]
    rfl
  rw [asked] at run
  cases run

theorem TypeDefinition.transfers_findCategory (d : TypeDefinition) :
    d.findCategory.Transfers gap before after always
      fun _ => d.findCategory := by
  refine .of_leads fun leads _ => .read_bind (fun _ => rfl) fun _ => ?_
  cases hfixed : before.fixedCategories.lookup (.definition d) with
  | some category =>
    rw [leads.fixed _ category hfixed]
    exact .pure category
  | none =>
    by_cases ready : gap = .growth → before.wellKnown.isSome
    · rw [leads.sameFixed _ hfixed ready]
      exact d.transfers_declaredCategory
    · obtain ⟨hgap, hready⟩ := Classical.not_imp.mp ready
      refine d.transfers_declaredCategory.lost_of_ne_ok
        (by rw [hgap]; exact nofun) ?_
      exact d.declaredCategory_ne_ok (Option.not_isSome_iff_eq_none.mp hready)

theorem TypeDefinition.transfers_category (d : TypeDefinition) :
    d.category.Transfers gap before after always fun _ => d.category :=
  Transfers.remember (fun _ => rfl) trivial (fun _ => trivial)
    d.transfers_findCategory

/-! ### Variance and attributes -/

theorem TypeDefinition.transfers_findVariance (d : TypeDefinition) :
    d.findVariance.Transfers gap before after always fun _ => d.findVariance :=
  d.transfers_parameters.bind fun _ => .pure _

theorem TypeDefinition.transfers_findAttributeFlags (d : TypeDefinition) :
    d.findAttributeFlags.Transfers gap before after always
      fun _ => d.findAttributeFlags :=
  d.transfers_category.bind fun _ => transfers_reachModule_bind
    fun _ _ _ => .lift _

namespace Ty

theorem transfers_findCategory (t : Ty) :
    t.findCategory.Transfers gap before after always
      fun _ => t.findCategory := by
  cases t with
  | definition d => exact d.transfers_findCategory
  | applied d _ => exact d.transfers_category
  | parameter | var | shaped => exact .pure _

theorem transfers_findVariance (t : Ty) :
    t.findVariance.Transfers gap before after always
      fun _ => t.findVariance := by
  cases t with
  | definition d => exact d.transfers_findVariance
  | applied d _ =>
    exact Transfers.remember (fun _ => rfl) trivial
      (fun _ => trivial) d.transfers_findVariance
  | parameter | var | shaped => exact .pure _

theorem transfers_findAttributeFlags (t : Ty) :
    t.findAttributeFlags.Transfers gap before after always
      fun _ => t.findAttributeFlags := by
  cases t with
  | definition d => exact d.transfers_findAttributeFlags
  | applied d _ =>
    exact Transfers.remember (fun _ => rfl) trivial
      (fun _ => trivial) d.transfers_findAttributeFlags
  | parameter | var | shaped => exact .pure _

theorem transfers_findFinalizer (owns : after.OwnsMembers) {t : Ty}
    (ht : t.IsNode after.modules fun _ => True) :
    (do return (← t.finalizer).isSome : Query Bool).Transfers gap before
      after always
      fun _ => do return (← t.finalizer).isSome :=
  (transfers_finalizer owns ht).bind fun _ => .pure _

/-! ### Requests -/

theorem transfers_establishPart (t : Ty) (aspect : TypeAspect)
    {part : Option aspect.Value}
    (settled : ∀ value ∈ part, (Fact.ofType t aspect).IsSettled after value)
    (allowed : ∀ value, (Fact.ofType t aspect).IsAllowed after.modules value) :
    (t.establishPart aspect part).Transfers gap before after always
      fun _ => t.establishPart aspect part := by
  cases part with
  | some value => exact Transfers.establish (settled value rfl) (allowed value)
  | none => exact .pure _

/-- Flags that were established together are the flags that are found one by
one. -/
theorem transfers_findFlags (owns : after.OwnsMembers) {t : Ty}
    (ht : t.IsNode after.modules fun _ => True) (request : FlagRequest) :
    (t.findFlags request).Transfers gap before after always
      fun _ => t.findFlags request := by
  -- The parts are looked for in turn.
  refine t.transfers_part_bind .category trivial (fun _ => rfl)
    (fun _ _ => t.transfers_findCategory) _ fun category hcategory => ?_
  refine t.transfers_part_bind .variance trivial (fun _ => rfl)
    (fun _ _ => t.transfers_findVariance) _ fun variance hvariance => ?_
  refine t.transfers_part_bind .finalizer trivial (fun _ => rfl)
    (fun _ _ => transfers_findFinalizer owns ht) _
      fun finalizer hfinalizer => ?_
  refine t.transfers_part_bind .attributeFlags trivial (fun _ => rfl)
    (fun _ _ => t.transfers_findAttributeFlags) _
      fun attributes hattributes => ?_
  -- They are published when all of them are there.
  refine (t.transfers_establishPart .category hcategory fun _ => trivial).bind
    fun _ => ?_
  refine (t.transfers_establishPart .variance hvariance fun _ => trivial).bind
    fun _ => ?_
  refine (t.transfers_establishPart .finalizer hfinalizer fun _ => ht).bind
    fun _ => ?_
  refine (t.transfers_establishPart .attributeFlags hattributes
    fun _ => trivial).bind fun _ => ?_
  exact .pure _

theorem transfers_category (t : Ty) :
    t.category.Transfers gap before after always fun _ => t.category :=
  Transfers.remember (fun _ => rfl) trivial (fun _ => trivial)
    t.transfers_findCategory

theorem transfers_hasVariance (t : Ty) :
    t.hasVariance.Transfers gap before after always fun _ => t.hasVariance :=
  Transfers.remember (fun _ => rfl) trivial (fun _ => trivial)
    t.transfers_findVariance

theorem transfers_attributeFlags (t : Ty) :
    t.attributeFlags.Transfers gap before after always
      fun _ => t.attributeFlags :=
  Transfers.remember (fun _ => rfl) trivial (fun _ => trivial)
    t.transfers_findAttributeFlags

theorem transfers_hasFinalizer (owns : after.OwnsMembers) {t : Ty}
    (ht : t.IsNode after.modules fun _ => True) :
    t.hasFinalizer.Transfers gap before after always fun _ => t.hasFinalizer :=
  Transfers.remember (fun _ => rfl) trivial (fun _ => ht)
    (transfers_findFinalizer owns ht)

/-! ### What follows from the flags -/

theorem transfers_isSealed (t : Ty) :
    t.isSealed.Transfers gap before after always fun _ => t.isSealed := by
  rw [isSealed.eq_def]
  cases t.definition? with
  | some d => exact .pure _
  | none =>
    exact .ite (fun _ => .pure _) fun _ => t.transfers_category.bind
      fun _ => .pure _

theorem transfers_inlineLength (t : Ty) :
    t.inlineLength.Transfers gap before after always
      fun _ => t.inlineLength := by
  refine t.transfers_attributeFlags.bind fun flags => .ite
    (fun _ => ?_) fun _ => ?_
  · -- The type has the flag, and its row says how long it is.
    cases t.definition? with
    | none => exact .pure _
    | some d =>
      refine transfers_reachModule_bind fun m _ _ => (Transfers.lift _).bind
        fun found => ?_
      cases found with
      | none => exact .pure _
      | some row =>
        refine .of_leads fun leads _ => .read_bind (fun _ => rfl) fun _ => ?_
        rw [leads.options]
        exact (Transfers.lift _).bind fun _ => .pure _
  · -- Any other type is an error.
    exact t.transfers_fullName.bind_fails (fun _ => .throw_bind _)
      fun _ => .throw_bind _ _

theorem transfers_underlying (owns : after.OwnsMembers) {t : Ty}
    (ht : t.IsNode after.modules fun _ => True) :
    t.underlying.Transfers gap before after always fun _ => t.underlying := by
  refine t.transfers_category.bind fun category => .ite
    (fun _ => .pure _) fun _ => ?_
  refine (t.transfers_fields none).bind_told (tells_fields owns ht none)
    fun members hmembers => ?_
  refine (Members.transfers_find hmembers fun _ => .pure _).bind
    fun stored => ?_
  cases stored with
  | some field => exact field.transfers_type
  | none => exact t.transfers_subject.bind_throw

/-- A layout lasts; that there is none is also said where the module cannot be
reached. -/
theorem transfers_layout (t : Ty) :
    t.layout.Transfers gap before after (fun _ layout => layout ≠ (0, 0))
      fun _ => t.layout := by
  rw [layout.eq_def]
  cases t.definition? with
  | none => exact .pure _
  | some d =>
    refine (transfers_reachModule d.module).attempt.bind_of .trivial
      (fun result _ => ?_) ?_
    · -- A module that is not reached tells no layout.
      cases result with
      | error _ => exact .pure _
      | ok m =>
        dsimp only
        cases m.image.layoutOf? d.token with
        | some row => exact .pure _
        | none => exact .pure _
    · rintro (error | m) _ lost _ _ layout answer stated
      · exact stated (Except.ok.inj answer).symm
      · exact lost ⟨m, rfl, trivial⟩

theorem transfers_typesOf {m : Module} (hm : m ∈ after.modules)
    (tokens : List Token) :
    (typesOf m tokens).Transfers gap before after whereComplete
      fun _ => typesOf m tokens := by
  induction tokens with
  | nil => exact .pure _
  | cons token rest ih =>
    have first : (m.type token).Transfers gap before after whereComplete
        fun _ => m.type token :=
      (transfers_type m hm token).imp fun _ _ complete same =>
        absurd same complete
    exact first.bind_alike fun _ => ih.bind_alike fun _ => .pure _

theorem transfers_nestedTypes (t : Ty) :
    t.nestedTypes.Transfers gap before after whereComplete
      fun _ => t.nestedTypes := by
  rw [nestedTypes.eq_def]
  cases t.definition? with
  | none => exact .pure _
  | some d =>
    exact transfers_reachModule_bind fun m hm _ => transfers_typesOf hm _

theorem transfers_hasAttribute (t : Ty) (namespaceName name : String) :
    (t.hasAttribute namespaceName name).Transfers gap before after always
      fun _ => t.hasAttribute namespaceName name := by
  rw [hasAttribute.eq_def]
  cases t.definition? with
  | none => exact .pure _
  | some d => exact transfers_reachModule_bind fun m _ _ => .lift _

end Ty

theorem Method.transfers_hasAttribute (method : Method)
    (namespaceName name : String) :
    (method.hasAttribute namespaceName name).Transfers gap before after always
      fun _ => method.hasAttribute namespaceName name :=
  transfers_reachModule_bind fun _ _ _ => .lift _

theorem Field.transfers_hasAttribute (field : Field)
    (namespaceName name : String) :
    (field.hasAttribute namespaceName name).Transfers gap before after always
      fun _ => field.hasAttribute namespaceName name :=
  transfers_reachModule_bind fun _ _ _ => .lift _

end CliMetadata
