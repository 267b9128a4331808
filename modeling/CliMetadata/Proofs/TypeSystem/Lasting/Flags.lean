import CliMetadata.Proofs.TypeSystem.Lasting.Signatures
import CliMetadata.TypeSystem.Hashing

/-!
# Flags and hashes only add

Flags and hashes are found without changing what is known.  A request for
several flags establishes them in the end, when its own search may have
established some of them already.  What was known before the request is not
changed for all that, since it was taken over to begin with.
-/

namespace CliMetadata

open Query

/-! ### Hashes -/

mutual

theorem Ty.adds_hashFrom {hashOf : TypeDefinition → Query UInt32}
    (hashes : ∀ d, (hashOf d).Adds) :
    (t : Ty) → (t.hashFrom hashOf).Adds
  | .definition d => hashes d
  | .applied d arguments =>
    Lasts.adding <| .rememberIf <| (hashes d).bind_adds fun _ =>
      (Ty.adds_hashesFrom hashes arguments).bind_adds fun _ => .pure _
  | .parameter p =>
    Lasts.adding <| .rememberIf <| p.stays_simpleName.bind_adds fun _ => .pure _
  | .var .. => .pure _
  | .shaped shape element => by
    refine Lasts.adding
      (.rememberIf ((Ty.adds_hashFrom hashes element).bind_adds fun hash => ?_))
    cases shape with
    | _ => exact .pure _

theorem Ty.adds_hashesFrom {hashOf : TypeDefinition → Query UInt32}
    (hashes : ∀ d, (hashOf d).Adds) :
    (types : List Ty) → (Ty.hashesFrom hashOf types).Adds
  | [] => .pure _
  | t :: rest => (Ty.adds_hashFrom hashes t).bind_adds fun _ =>
      (Ty.adds_hashesFrom hashes rest).bind_adds fun _ => .pure _

end

theorem TypeDefinition.adds_hashWithin (room : Nat) (d : TypeDefinition) :
    (TypeDefinition.hashWithin room d).Adds := by
  induction room generalizing d with
  | zero => exact .throw _
  | succ room ih =>
    refine Lasts.adding (.rememberIf (d.stays_simpleName.bind fun name => ?_))
    refine d.finds_containing.bind_adds fun outer => ?_
    cases outer with
    | none => exact d.stays_namespaceText.bind fun _ => .pure _
    | some outer => exact (outer.adds_hashFrom ih).bind_adds fun _ => .pure _

theorem Ty.adds_hash (t : Ty) : t.hash.Adds :=
  .read_adds fun _ => t.adds_hashFrom (TypeDefinition.adds_hashWithin _)

/-! ### Category, variance and attributes -/

theorem TypeDefinition.stays_declaredCategory (d : TypeDefinition) :
    d.declaredCategory.Stays := by
  refine stays_requireTypeSystem.bind fun _ => (stays_wellKnown .valueType).bind
    fun _ => ?_
  refine (stays_wellKnown .enum).bind fun _ => d.stays_baseType.bind
    fun base => ?_
  exact .ite (fun _ => .pure _) fun _ => .ite (fun _ => .pure _)
    fun _ => .pure _

theorem TypeDefinition.adds_findCategory (d : TypeDefinition) :
    d.findCategory.Adds := by
  refine .read_adds fun registry => ?_
  split
  · exact .pure _
  · exact d.stays_declaredCategory.adding

/-- Once the category of a definition is known, it does not change, also if it
is fixed later. -/
theorem TypeDefinition.stays_category (d : TypeDefinition) : d.category.Stays :=
  .remember d.adds_findCategory

theorem TypeDefinition.stays_findVariance (d : TypeDefinition) :
    d.findVariance.Stays :=
  d.stays_parameters.bind fun _ => .pure _

theorem TypeDefinition.stays_findAttributeFlags (d : TypeDefinition) :
    d.findAttributeFlags.Stays :=
  d.stays_category.bind fun _ => (stays_reachModule _).bind fun _ => .lift _

namespace Ty

theorem adds_findCategory (t : Ty) : t.findCategory.Adds := by
  cases t with
  | definition d => exact d.adds_findCategory
  | applied d _ => exact d.stays_category.adding
  | parameter | var | shaped => exact .pure _

theorem stays_findVariance (t : Ty) : t.findVariance.Stays := by
  cases t with
  | definition d => exact d.stays_findVariance
  | applied d _ => exact .remember d.stays_findVariance.adding
  | parameter | var | shaped => exact .pure _

theorem stays_findAttributeFlags (t : Ty) : t.findAttributeFlags.Stays := by
  cases t with
  | definition d => exact d.stays_findAttributeFlags
  | applied d _ => exact .remember d.stays_findAttributeFlags.adding
  | parameter | var | shaped => exact .pure _

theorem stays_findFinalizer (t : Ty) :
    (do return (← t.finalizer).isSome : Query Bool).Stays :=
  t.stays_finalizer.bind fun _ => .pure _

theorem stays_category (t : Ty) :
    t.category.Stays := .remember t.adds_findCategory

theorem stays_hasVariance (t : Ty) :
    t.hasVariance.Stays := .remember t.stays_findVariance.adding

theorem stays_hasFinalizer (t : Ty) :
    t.hasFinalizer.Stays := .remember t.stays_findFinalizer.adding

theorem stays_attributeFlags (t : Ty) : t.attributeFlags.Stays :=
  .remember t.stays_findAttributeFlags.adding

end Ty

/-! ### Requests -/

section
variable {α β : Type} {earlier : Memory}

/-- Asked at any time after an earlier one, the query keeps what was known at
that time, and its answers satisfy a condition. -/
def Query.KeepsSince (earlier : Memory) (query : Query α) (P : α → Prop) :
    Prop :=
  ∀ (registry : Registry) (memory : Memory), earlier.Precedes memory →
    earlier.Precedes (query registry memory).2 ∧
      ∀ a, (query registry memory).1 = .ok a → P a

namespace Query.KeepsSince

variable {query : Query α} {P : α → Prop} {P' : β → Prop}

theorem of_adds (h : query.Adds) : query.KeepsSince earlier fun _ => True :=
  fun registry memory precedes => ⟨precedes.trans (h.adds registry memory),
    fun _ _ => trivial⟩

theorem adds (h : ∀ earlier, query.KeepsSince earlier P) : query.Adds where
  adds registry memory := (h memory registry memory (.refl memory)).1
  again _ _ _ _ := False.elim

theorem bind {next : α → Query β} (first : query.KeepsSince earlier P)
    (second : ∀ a, P a → (next a).KeepsSince earlier P') :
    (query >>= next).KeepsSince earlier P' := by
  intro registry memory precedes
  obtain ⟨kept, told⟩ := first registry memory precedes
  rcases hrun : query registry memory with ⟨error | a, memory'⟩
  · rw [hrun] at kept
    rw [bind_apply_error hrun]
    exact ⟨kept, fun _ answer => by cases answer⟩
  · rw [hrun] at kept told
    rw [bind_apply_ok hrun]
    exact second a (told a rfl) registry memory' kept

theorem pure (a : α) :
    (Pure.pure a : Query α).KeepsSince earlier fun _ => True :=
  fun _ _ precedes => ⟨precedes, fun _ _ => trivial⟩

end Query.KeepsSince

namespace Ty

/-- The parts of the flags agree with what was known earlier. -/
def AgreesSince (earlier : Memory) (t : Ty) (aspect : TypeAspect)
    (part : Option aspect.Value) :
    Prop :=
  ∀ value ∈ part, ∀ known, earlier.facts.get? (.ofType t aspect) = some known →
  value = known

/-- What was known of a part is taken over. -/
theorem keepsSince_part (t : Ty) (isWanted : Bool) (aspect : TypeAspect)
    {find : Query aspect.Value} (h : find.Adds) :
    (t.part isWanted aspect find).KeepsSince earlier
      (t.AgreesSince earlier aspect) := by
  intro registry memory precedes
  rw [part]
  cases isWanted with
  | false => exact ⟨precedes, fun _ answer => by cases answer; exact nofun⟩
  | true =>
    have asked : Query.established? (.ofType t aspect) registry memory
        = (.ok (memory.facts.get? (.ofType t aspect)), memory) := rfl
    rw [if_neg (by simp), bind_apply_ok asked]
    cases now : memory.facts.get? (.ofType t aspect) with
    | some value =>
      refine ⟨precedes, ?_⟩
      rintro _ ⟨⟩ _ ⟨⟩ known hknown
      rw [precedes.facts _ known hknown] at now
      exact (Option.some.inj now).symm
    | none =>
      -- Then nothing was known earlier.
      have unknown (known : aspect.Value) :
          earlier.facts.get? (.ofType t aspect) ≠ some known := by
        intro hknown
        rw [precedes.facts _ known hknown] at now
        cases now
      have kept := ((KeepsSince.of_adds h).bind fun a _ => .pure (some a))
        registry memory precedes
      exact ⟨kept.1, fun _ _ _ _ known hknown => absurd hknown (unknown known)⟩

/-- What agrees with all that was known earlier may be established. -/
theorem keepsSince_establishPart (t : Ty) (aspect : TypeAspect)
    {part : Option aspect.Value} (agrees : t.AgreesSince earlier aspect part) :
    (t.establishPart aspect part).KeepsSince earlier fun _ => True := by
  cases part with
  | none => exact .pure _
  | some value =>
    intro registry memory precedes
    exact ⟨precedes.establish (agrees value rfl), fun _ _ => trivial⟩

/-- A request for flags only adds to what is known. -/
theorem adds_findFlags (t : Ty) (request : FlagRequest) :
    (t.findFlags request).Adds := by
  refine KeepsSince.adds (P := fun _ => True) fun earlier => ?_
  refine (t.keepsSince_part _ .category t.adds_findCategory).bind
    fun category hcategory => ?_
  refine (t.keepsSince_part _ .variance t.stays_findVariance.adding).bind
    fun variance hvariance => ?_
  refine (t.keepsSince_part _ .finalizer t.stays_findFinalizer.adding).bind
    fun finalizer hfinalizer => ?_
  refine (t.keepsSince_part _ .attributeFlags
    t.stays_findAttributeFlags.adding).bind
    fun attributes hattributes => ?_
  refine (t.keepsSince_establishPart .category hcategory).bind fun _ _ => ?_
  refine (t.keepsSince_establishPart .variance hvariance).bind fun _ _ => ?_
  refine (t.keepsSince_establishPart .finalizer hfinalizer).bind fun _ _ => ?_
  exact (t.keepsSince_establishPart .attributeFlags hattributes).bind
    fun _ _ => .pure _

end Ty

end

/-! ### What follows from the flags -/

namespace Ty

theorem stays_isSealed (t : Ty) : t.isSealed.Stays := by
  rw [isSealed.eq_def]
  cases t.definition? with
  | some d => exact .pure _
  | none =>
    exact .ite (fun _ => .pure _) fun _ => t.stays_category.bind
      fun _ => .pure _

theorem stays_inlineLength (t : Ty) : t.inlineLength.Stays := by
  refine t.stays_attributeFlags.bind fun flags => .ite (fun _ => ?_) fun _ => ?_
  · cases t.definition? with
    | none => exact .pure _
    | some d =>
      refine (stays_reachModule _).bind fun m => (Lasts.lift _).bind
        fun found => ?_
      cases found with
      | none => exact .pure _
      | some row =>
        refine .read_options_bind (fun _ => ?_) fun _ _ options => by
          rw [options]
        exact (Lasts.lift _).bind fun _ => .pure _
  · exact t.adds_fullName.bind_fails (fun _ => .throw_bind _ _)
      fun _ => .throw_bind _ _

/-- The type that an enumeration is stored as stays. -/
theorem stays_underlying (t : Ty) : t.underlying.Stays := by
  refine t.stays_category.bind fun category => .ite
    (fun _ => .pure _) fun _ => ?_
  refine t.lasts_fields_bind none fun members stay => ?_
  refine (stay.stays_find fun _ => .pure _).bind fun stored => ?_
  cases stored with
  | some field => exact field.stays_type
  | none => exact t.adds_subject.bind_throw

theorem adds_layout (t : Ty) : t.layout.Adds := by
  rw [layout.eq_def]
  cases t.definition? with
  | none => exact .pure _
  | some d =>
    refine (stays_reachModule d.module).attempt.bind_adds fun result => ?_
    cases result with
    | error _ => exact .pure _
    | ok m =>
      dsimp only
      cases m.image.layoutOf? d.token with
      | some row => exact .pure _
      | none => exact .pure _

theorem adds_typesOf (m : Module) (tokens : List Token) :
    (typesOf m tokens).Adds := by
  induction tokens with
  | nil => exact .pure _
  | cons token rest ih =>
    exact (finds_type m token).bind_adds fun _ => ih.bind_adds fun _ => .pure _

theorem adds_nestedTypes (t : Ty) : t.nestedTypes.Adds := by
  rw [nestedTypes.eq_def]
  cases t.definition? with
  | none => exact .pure _
  | some d => exact (stays_reachModule _).bind fun m => adds_typesOf m _

theorem stays_hasAttribute (t : Ty) (namespaceName name : String) :
    (t.hasAttribute namespaceName name).Stays := by
  rw [hasAttribute.eq_def]
  cases t.definition? with
  | none => exact .pure _
  | some d => exact (stays_reachModule _).bind fun _ => .lift _

end Ty

theorem Method.stays_hasAttribute (method : Method)
    (namespaceName name : String) :
    (method.hasAttribute namespaceName name).Stays :=
  (stays_reachModule _).bind fun _ => .lift _

theorem Field.stays_hasAttribute (field : Field) (namespaceName name : String) :
    (field.hasAttribute namespaceName name).Stays :=
  (stays_reachModule _).bind fun _ => .lift _

end CliMetadata
