import CliMetadata.Proofs.TypeSystem.Transfer.Members

/-!
# Signatures and methods from one type system to another

What members say transfers, and so does finding a method by what it says.  A
search needs a node to start from, since it asks the members of types; the
signature of a member does not.
-/

namespace CliMetadata

open Filter Query

variable {gap : Gap} {before after : Registry}

/-! ### Signatures -/

section
variable {m : Module} (hm : m ∈ after.modules)
include hm

theorem Module.transfers_resolveModifiers (position : Nat)
    (modifiers : List Modifier) :
    (m.resolveModifiers position modifiers).Transfers gap before after always
      fun _ => m.resolveModifiers position modifiers := by
  induction modifiers with
  | nil => exact .pure _
  | cons modifier rest ih =>
    exact (Module.transfers_requiredType hm _).bind fun _ => ih.bind
      fun _ => .pure _

theorem Module.transfers_resolveParam (position : Nat) (param : ParamSig) :
    (m.resolveParam position param).Transfers gap before after always
      fun _ => m.resolveParam position param := by
  refine (Module.transfers_resolveModifiers hm position _).bind fun _ => ?_
  refine (Module.transfers_resolve hm param.type).bind fun type => .ite
    (fun _ => ?_) fun _ => ?_
  · exact (transfers_shapeOf .byRef type).bind fun _ => .pure _
  · exact .pure _

theorem Module.transfers_resolveParams (position : Nat)
    (params : List ParamSig) :
    (m.resolveParams position params).Transfers gap before after always
      fun _ => m.resolveParams position params := by
  induction params generalizing position with
  | nil => exact .pure _
  | cons param rest ih =>
    refine (Module.transfers_resolveParam hm position param).bind fun _ => ?_
    exact (ih (position + 1)).bind fun _ => .pure _

theorem Module.transfers_resolveMethod (signature : MethodSig) :
    (m.resolveMethod signature).Transfers gap before after always
      fun _ => m.resolveMethod signature := by
  refine transfers_requireTypeSystem.bind fun _ => ?_
  refine (Module.transfers_resolveParam hm 0 _).bind fun _ => ?_
  exact (Module.transfers_resolveParams hm 1 _).bind fun _ => .pure _

end

theorem transfers_mapM {α β : Type} {change : α → Query β}
    (changes : ∀ a, (change a).Transfers gap before after always
      fun _ => change a)
    (items : List α) :
    (items.mapM change).Transfers gap before after always
      fun _ => items.mapM change := by
  induction items with
  | nil =>
    simp only [List.mapM_nil]
    exact .pure _
  | cons a items ih =>
    simp only [List.mapM_cons]
    exact (changes a).bind fun _ => ih.bind fun _ => .pure _

theorem MethodSignature.transfers_substituted (signature : MethodSignature)
    (types : List Ty) :
    (signature.substituted types).Transfers gap before after always
      fun _ => signature.substituted types := by
  refine .ite (fun _ => .pure _) fun _ => ?_
  refine (transfers_mapM (fun t : Ty => t.transfers_substituted types [])
    _).bind fun _ => ?_
  have modifier (modifier : ResolvedModifier) :
      (modifier.substituted types).Transfers gap before after always
        fun _ => modifier.substituted types :=
    (modifier.type.transfers_substituted types []).bind fun _ => .pure _
  refine (transfers_mapM modifier _).bind fun _ => ?_
  exact (signature.result.transfers_substituted types []).bind fun _ => .pure _

/-! ### Methods and fields -/

theorem MethodDefinition.transfers_text (d : MethodDefinition) :
    d.text.Transfers gap before after always fun _ => d.text := by
  refine Transfers.remember (fun _ => rfl) trivial (fun _ => trivial) ?_
  exact transfers_reachModule_bind fun m _ _ => .lift _

theorem FieldDefinition.transfers_text (d : FieldDefinition) :
    d.text.Transfers gap before after always fun _ => d.text := by
  refine Transfers.remember (fun _ => rfl) trivial (fun _ => trivial) ?_
  exact transfers_reachModule_bind fun m _ _ => .lift _

theorem Method.transfers_name (method : Method) :
    method.name.Transfers gap before after always fun _ => method.name :=
  method.declaration.transfers_text

theorem Field.transfers_name (field : Field) :
    field.name.Transfers gap before after always fun _ => field.name :=
  field.declaration.transfers_text

theorem MethodDefinition.transfers_resolved (d : MethodDefinition) :
    d.resolved.Transfers gap before after always fun _ => d.resolved := by
  refine Transfers.remember (fun _ => rfl) trivial (fun _ => trivial) ?_
  refine transfers_reachModule_bind fun m hm _ => (Transfers.lift _).bind
    fun blob => ?_
  refine .of_leads fun leads _ => .read_bind (fun _ => rfl) fun _ => ?_
  rw [leads.options]
  exact (Transfers.lift _).bind fun signature => Module.transfers_resolveMethod
    hm signature

theorem FieldDefinition.transfers_type (d : FieldDefinition) :
    d.type.Transfers gap before after always fun _ => d.type := by
  refine Transfers.remember (fun _ => rfl) trivial (fun _ => trivial) ?_
  refine transfers_reachModule_bind fun m hm _ => (Transfers.lift _).bind
    fun blob => ?_
  refine .of_leads fun leads _ => .read_bind (fun _ => rfl) fun _ => ?_
  rw [leads.options]
  exact (Transfers.lift _).bind fun signature => Module.transfers_resolve hm _

theorem MethodDefinition.transfers_parameters (d : MethodDefinition) :
    d.parameters.Transfers gap before after always fun _ => d.parameters := by
  refine Transfers.remember (fun _ => rfl) trivial (fun _ => trivial) ?_
  exact transfers_reachModule_bind fun m _ _ => m.transfers_parameters _

/-- What the signature of a method says lasts, also through views. -/
theorem Method.transfers_signature : (method : Method) →
    method.signature.Transfers gap before after always fun _ => method.signature
  | .definition d => d.transfers_resolved
  | .view method owner => by
    refine Transfers.remember (fun _ => rfl) trivial (fun _ => trivial) ?_
    refine method.transfers_signature.bind fun signature => ?_
    exact owner.transfers_instantiation.bind fun types =>
      signature.transfers_substituted types

theorem Method.transfers_parameters : (method : Method) →
    method.parameters.Transfers gap before after always
      fun _ => method.parameters
  | .definition d => d.transfers_parameters
  | .view method _ => by
    refine Transfers.remember (fun _ => rfl) trivial (fun _ => trivial) ?_
    exact method.transfers_parameters

theorem Field.transfers_type : (field : Field) →
    field.type.Transfers gap before after always fun _ => field.type
  | .definition d => d.transfers_type
  | .view field owner => by
    refine Transfers.remember (fun _ => rfl) trivial (fun _ => trivial) ?_
    refine field.transfers_type.bind fun type => ?_
    exact owner.transfers_instantiation.bind fun types =>
      type.transfers_substituted types []

theorem Method.transfers_isConstructor (method : Method) :
    method.isConstructor.Transfers gap before after always
      fun _ => method.isConstructor :=
  .ite (fun _ => .pure _) fun _ => method.transfers_name.bind fun _ => .pure _

theorem Method.transfers_isStaticConstructor (method : Method) :
    method.isStaticConstructor.Transfers gap before after always
      fun _ => method.isStaticConstructor :=
  .ite (fun _ => .pure _) fun _ => method.transfers_name.bind fun _ => .pure _

/-! ### Finding methods -/

section
variable (owns : after.OwnsMembers)
include owns

section
variable {t : Ty} (ht : t.IsNode after.modules fun _ => True)
include ht

theorem Ty.transfers_findMethod (name : String)
    (wanted : Option MethodSignature) (substitution : List Ty)
    (relates : MethodSignature → MethodSignature → Bool) :
    (t.findMethod name wanted substitution relates).Transfers gap before
      after always
      fun _ => t.findMethod name wanted substitution relates := by
  refine (t.transfers_methods _).bind_told (Ty.tells_methods owns ht _)
    fun members hmembers => ?_
  refine Members.transfers_find hmembers fun method => ?_
  cases wanted with
  | none => exact .pure true
  | some wanted =>
    refine method.transfers_signature.bind fun signature => ?_
    exact (signature.transfers_substituted substitution).bind fun _ => .pure _

theorem Ty.transfers_staticConstructor :
    t.staticConstructor.Transfers gap before after always
      fun _ => t.staticConstructor :=
  (t.transfers_methods _).bind_told (Ty.tells_methods owns ht _)
    fun _ members =>
    Members.transfers_find members fun _ => .pure _

theorem Ty.transfers_defaultConstructor :
    t.defaultConstructor.Transfers gap before after always
      fun _ => t.defaultConstructor := by
  refine .ite (fun _ => .pure _) fun _ => ?_
  refine (t.transfers_methods _).bind_told (Ty.tells_methods owns ht _)
    fun members hmembers => ?_
  refine Members.transfers_find hmembers fun method => .ite
    (fun _ => .pure _) fun _ => ?_
  exact method.transfers_signature.bind fun _ => .pure _

/-- A virtual call reaches the same method again. -/
theorem Ty.transfers_dispatch (declaration : Method) :
    (t.dispatch declaration).Transfers gap before after always
      fun _ => t.dispatch declaration := by
  refine declaration.transfers_name.bind fun name => ?_
  refine declaration.transfers_signature.bind fun signature => ?_
  refine transfers_requireTypeSystem.bind fun _ => transfers_alongBases
    (fun candidate node => ?_) ht
  refine (candidate.transfers_methods _).bind_told
    (Ty.tells_methods owns node _) fun _ members => ?_
  refine Members.transfers_find members fun method => .ite
    (fun _ => .pure _) fun _ => ?_
  refine .ite (fun _ => .pure _) fun _ => ?_
  exact method.transfers_signature.bind fun _ => .pure _

/-- A type has the same finalizer again. -/
theorem Ty.transfers_finalizer :
    t.finalizer.Transfers gap before after always fun _ => t.finalizer := by
  refine t.transfers_hasBase.bind fun based => .ite (fun _ => ?_)
    fun _ => .pure _
  refine transfers_requireTypeSystem.bind fun _ => ?_
  -- The finalizer is a method that reuses the slot of the root.
  have root : (wellKnown .object).Transfers gap before after always
      fun _ => wellKnown .object :=
    transfers_wellKnown .object
  refine root.bind_told (root.tells_nodes fun _ => gives_wellKnown .object)
    fun root hroot => ?_
  refine (Ty.transfers_findMethod owns (hroot trivial).head _ none [] _).bind
    fun found => ?_
  cases found with
  | none => exact .pure _
  | some declaration =>
    refine (Ty.transfers_dispatch owns ht declaration).bind fun target => ?_
    cases target with
    | none => exact t.transfers_subject.bind_throw
    | some target => exact .ite (fun _ => .pure _) fun _ => .pure _

end

/-! ### From tokens to members -/

theorem Ty.transfers_inheritedField {t : Ty}
    (ht : t.IsNode after.modules fun _ => True) (name : String) :
    (t.inheritedField name).Transfers gap before after always
      fun _ => t.inheritedField name :=
  transfers_alongBases (fun _ node => Ty.transfers_fieldNamed owns node name) ht

theorem Ty.transfers_inheritedMethod {t : Ty}
    (ht : t.IsNode after.modules fun _ => True) (name : String)
    (signature : MethodSignature) :
    (t.inheritedMethod name signature).Transfers gap before after always
      fun _ => t.inheritedMethod name signature :=
  transfers_alongBases
    (fun _ node => Ty.transfers_findMethod owns node name _ _ _) ht

omit owns in
theorem MethodSignature.transfers_seenFrom (signature : MethodSignature)
    (t : Ty) :
    (signature.seenFrom t).Transfers gap before after always
      fun _ => signature.seenFrom t := by
  cases t with
  | applied _ arguments => exact signature.transfers_substituted arguments
  | _ => exact .pure _

section
variable {m : Module} (hm : m ∈ after.modules) (token : Token)
include hm

theorem Module.transfers_inheritedMember (row : MemberRefRow) :
    (m.inheritedMember row).Transfers gap before after whereFound
      fun _ => m.inheritedMember row := by
  have parent : (m.type row.parent).Transfers gap before after whereFound
      fun _ => m.type row.parent :=
    transfers_type m hm row.parent
  have nodes (l : Nat) : (m.type row.parent).Gives (after.withPatience l) false
      (fun _ => True)
      Option.toList :=
    givesNodes_type m (show m ∈ (after.withPatience l).modules from hm)
      row.parent
  refine parent.bind_of (parent.tells_nodes nodes) ?_ ?_
  · intro found node
    -- What is found is a node, so that its members transfer.
    cases found with
    | none => exact .pure none
    | some parent =>
      have hparent := (node fun _ => rfl).head
      refine (Transfers.lift _).bind fun name => (Transfers.lift _).bind
        fun blob => ?_
      refine transfers_requireTypeSystem.bind
        fun _ => .ite (fun _ => ?_) fun _ => ?_
      · exact (Ty.transfers_inheritedField owns hparent name).bind
          fun _ => .pure _
      · refine .of_leads fun leads _ => .read_bind (fun _ => rfl) fun _ => ?_
        rw [leads.options]
        refine (Transfers.lift _).bind fun spelled => ?_
        refine (Module.transfers_resolveMethod hm spelled).bind
          fun signature => ?_
        refine (signature.transfers_seenFrom parent).bind fun wanted => ?_
        exact (Ty.transfers_inheritedMethod owns hparent name wanted).bind
          fun _ => .pure _
  · -- Where the type is not found, nothing is.
    intro found _ lost registry memory member answer
    obtain ⟨hgap, rfl⟩ := not_whereFound lost
    cases answer
    exact fun lasts => Bool.false_ne_true (lasts hgap)

theorem Module.transfers_referencedMember :
    (m.referencedMember token).Transfers gap before after whereFound
      fun _ => m.referencedMember token := by
  rw [Module.referencedMember.eq_def]
  cases m.image.memberRef? token with
  | none => exact .throw _
  | some row =>
    refine .ite (fun _ => ?_) fun _ => .ite (fun _ => .throw_bind _) fun _ => ?_
    · exact (Module.transfers_declaredMethod hm row.parent).bind
        fun _ => .pure _
    · exact Module.transfers_inheritedMember owns hm row

theorem Module.transfers_entity :
    (m.entity token).Transfers gap before after whereFound
      fun _ => m.entity token := by
  rw [Module.entity.eq_def]
  cases token.kind? with
  | none => exact .throw _
  | some kind =>
    cases kind with
    | typeDef =>
      -- A type.
      exact (transfers_type m hm token).bind_found (fun _ => .pure _) rfl
        fun _ => rfl
    | typeRef =>
      exact (transfers_type m hm token).bind_found (fun _ => .pure _) rfl
        fun _ => rfl
    | typeSpec =>
      exact (transfers_type m hm token).bind_found (fun _ => .pure _) rfl
        fun _ => rfl
    -- A generic parameter or a member.
    | genericParam => exact (m.transfers_parameter token).bind fun _ => .pure _
    | methodDef =>
      exact (Module.transfers_declaredMethod hm token).bind fun _ => .pure _
    | field =>
      exact (Module.transfers_declaredField hm token).bind fun _ => .pure _
    | memberRef => exact Module.transfers_referencedMember owns hm token
    | _ => exact .throw _

end

end

end CliMetadata
