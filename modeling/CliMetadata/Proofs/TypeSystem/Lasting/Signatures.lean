import CliMetadata.Proofs.TypeSystem.Lasting.Members

/-!
# Signatures and methods that stay as they were

What a member says is remembered.  A search for a method therefore compares the
same signatures in the same order when it is made again: a candidate that was
passed over does not become a match, and a virtual call reaches the method that
it reached before.
-/

namespace CliMetadata

open Query

/-! ### Signatures -/

section
variable (m : Module)

theorem Module.stays_resolveModifiers (position : Nat)
    (modifiers : List Modifier) :
    (m.resolveModifiers position modifiers).Stays := by
  induction modifiers with
  | nil => exact .pure _
  | cons modifier rest ih =>
    exact (m.stays_requiredType _).bind fun _ => ih.bind fun _ => .pure _

theorem Module.stays_resolveParam (position : Nat) (param : ParamSig) :
    (m.resolveParam position param).Stays := by
  refine (m.stays_resolveModifiers position _).bind fun _ => ?_
  refine (m.stays_resolve param.type).bind fun type => .ite (fun _ => ?_)
    fun _ => .pure _
  exact (stays_shapeOf .byRef type).bind fun _ => .pure _

theorem Module.stays_resolveParams (position : Nat) (params : List ParamSig) :
    (m.resolveParams position params).Stays := by
  induction params generalizing position with
  | nil => exact .pure _
  | cons param rest ih =>
    exact (m.stays_resolveParam position param).bind
      fun _ => (ih (position + 1)).bind fun _ => .pure _

theorem Module.stays_resolveMethod (signature : MethodSig) :
    (m.resolveMethod signature).Stays := by
  refine stays_requireTypeSystem.bind fun _ => (m.stays_resolveParam 0 _).bind
    fun _ => ?_
  exact (m.stays_resolveParams 1 _).bind fun _ => .pure _

end

theorem stays_mapM {α β : Type} {change : α → Query β}
    (changes : ∀ a, (change a).Stays) (items : List α) :
    (items.mapM change).Stays := by
  induction items with
  | nil =>
    simp only [List.mapM_nil]
    exact .pure _
  | cons a items ih =>
    simp only [List.mapM_cons]
    exact (changes a).bind fun _ => ih.bind fun _ => .pure _

theorem MethodSignature.stays_substituted (signature : MethodSignature)
    (types : List Ty) :
    (signature.substituted types).Stays := by
  refine .ite (fun _ => .pure _) fun _ => ?_
  refine (stays_mapM (fun t : Ty => t.stays_substituted types []) _).bind
    fun _ => ?_
  have modifier (modifier : ResolvedModifier) :
      (modifier.substituted types).Stays :=
    (modifier.type.stays_substituted types []).bind fun _ => .pure _
  refine (stays_mapM modifier _).bind fun _ => ?_
  exact (signature.result.stays_substituted types []).bind fun _ => .pure _

/-! ### Methods and fields -/

theorem MethodDefinition.stays_text (d : MethodDefinition) : d.text.Stays :=
  .remember ((stays_reachModule _).bind fun _ => .lift _)

theorem FieldDefinition.stays_text (d : FieldDefinition) : d.text.Stays :=
  .remember ((stays_reachModule _).bind fun _ => .lift _)

theorem Method.stays_name (method : Method) :
    method.name.Stays := method.declaration.stays_text

theorem Field.stays_name (field : Field) :
    field.name.Stays := field.declaration.stays_text

theorem MethodDefinition.stays_resolved (d : MethodDefinition) :
    d.resolved.Stays := by
  refine .remember ((stays_reachModule _).bind fun m => (Lasts.lift _).bind
    fun blob => ?_)
  refine .read_options_bind (fun _ => ?_) fun _ _ options => by rw [options]
  exact (Lasts.lift _).bind fun signature =>
    (m.stays_resolveMethod signature).adding

theorem FieldDefinition.stays_type (d : FieldDefinition) : d.type.Stays := by
  refine .remember ((stays_reachModule _).bind fun m => (Lasts.lift _).bind
    fun blob => ?_)
  refine .read_options_bind (fun _ => ?_) fun _ _ options => by rw [options]
  exact (Lasts.lift _).bind fun signature => (m.stays_resolve _).adding

theorem MethodDefinition.stays_parameters (d : MethodDefinition) :
    d.parameters.Stays :=
  .remember ((stays_reachModule _).bind fun m => (m.stays_parameters _).adding)

/-- What the signature of a method says stays, also through views. -/
theorem Method.stays_signature : (method : Method) → method.signature.Stays
  | .definition d => d.stays_resolved
  | .view method owner =>
    .remember <| method.stays_signature.bind fun signature =>
      owner.stays_instantiation.bind fun types =>
        (signature.stays_substituted types).adding

theorem Method.stays_parameters : (method : Method) → method.parameters.Stays
  | .definition d => d.stays_parameters
  | .view method _ => .remember method.stays_parameters.adding

theorem Field.stays_type : (field : Field) → field.type.Stays
  | .definition d => d.stays_type
  | .view field owner => .remember <| field.stays_type.bind fun type =>
      owner.stays_instantiation.bind fun types =>
        (type.stays_substituted types []).adding

theorem Method.stays_isConstructor (method : Method) :
    method.isConstructor.Stays :=
  .ite (fun _ => .pure _) fun _ => method.stays_name.bind fun _ => .pure _

theorem Method.stays_isStaticConstructor (method : Method) :
    method.isStaticConstructor.Stays :=
  .ite (fun _ => .pure _) fun _ => method.stays_name.bind fun _ => .pure _

/-! ### Finding methods -/

namespace Ty

theorem stays_findMethod (t : Ty) (name : String)
    (wanted : Option MethodSignature) (substitution : List Ty)
    (relates : MethodSignature → MethodSignature → Bool) :
    (t.findMethod name wanted substitution relates).Stays := by
  refine t.lasts_methods_bind _ fun members stay => stay.stays_find
    fun method => ?_
  cases wanted with
  | none => exact .pure true
  | some wanted =>
    refine method.stays_signature.bind fun signature => ?_
    exact (signature.stays_substituted substitution).bind fun _ => .pure _

theorem stays_staticConstructor (t : Ty) : t.staticConstructor.Stays :=
  t.lasts_methods_bind _ fun _ stay => stay.stays_find fun _ => .pure _

theorem stays_defaultConstructor (t : Ty) : t.defaultConstructor.Stays := by
  refine .ite (fun _ => .pure _) fun _ => t.lasts_methods_bind _
    fun members stay => ?_
  refine stay.stays_find fun method => .ite (fun _ => .pure _) fun _ => ?_
  exact method.stays_signature.bind fun _ => .pure _

/-- A virtual call reaches the same method again. -/
theorem stays_dispatch (t : Ty) (declaration : Method) :
    (t.dispatch declaration).Stays := by
  refine declaration.stays_name.bind fun name =>
    declaration.stays_signature.bind fun signature => ?_
  refine stays_requireTypeSystem.bind fun _ => stays_alongBases
    (fun candidate => ?_) t
  refine candidate.lasts_methods_bind _ fun members stay => stay.stays_find
    fun method => ?_
  refine .ite (fun _ => .pure _) fun _ => .ite (fun _ => .pure _) fun _ => ?_
  exact method.stays_signature.bind fun _ => .pure _

theorem stays_finalizer (t : Ty) : t.finalizer.Stays := by
  refine t.stays_hasBase.bind fun based => .ite (fun _ => ?_) fun _ => .pure _
  refine stays_requireTypeSystem.bind fun _ => (stays_wellKnown .object).bind
    fun root => ?_
  refine (root.stays_findMethod _ none [] _).bind fun found => ?_
  cases found with
  | none => exact .pure _
  | some declaration =>
    refine (t.stays_dispatch declaration).bind fun target => ?_
    cases target with
    | none => exact t.adds_subject.bind_throw
    | some target => exact .ite (fun _ => .pure _) fun _ => .pure _

/-! ### From tokens to members -/

theorem stays_inheritedField (t : Ty) (name : String) :
    (t.inheritedField name).Stays :=
  stays_alongBases (·.stays_fieldNamed name) t

theorem stays_inheritedMethod (t : Ty) (name : String)
    (signature : MethodSignature) :
    (t.inheritedMethod name signature).Stays :=
  stays_alongBases (·.stays_findMethod name _ _ _) t

end Ty

theorem MethodSignature.stays_seenFrom (signature : MethodSignature) (t : Ty) :
    (signature.seenFrom t).Stays := by
  cases t with
  | applied _ arguments => exact signature.stays_substituted arguments
  | _ => exact .pure _

section
variable (m : Module)

/-- The member that a reference spells is found again; that there is none may
change with the type that it is looked for in. -/
theorem Module.finds_inheritedMember (row : MemberRefRow) :
    (m.inheritedMember row).Finds := by
  refine (finds_type m row.parent).bind_found (fun parent => ?_) rfl
  refine (Lasts.lift _).bind fun name => (Lasts.lift _).bind fun blob => ?_
  refine stays_requireTypeSystem.bind fun _ => .ite (fun _ => ?_) fun _ => ?_
  · exact (parent.stays_inheritedField name).bind fun _ => .pure _
  · refine .read_options_bind (fun _ => ?_) fun _ _ options => by rw [options]
    refine (Lasts.lift _).bind fun spelled => ?_
    refine (m.stays_resolveMethod spelled).bind fun signature => ?_
    refine (signature.stays_seenFrom parent).bind fun wanted => ?_
    exact (parent.stays_inheritedMethod name wanted).bind fun _ => .pure _

theorem Module.finds_referencedMember (token : Token) :
    (m.referencedMember token).Finds := by
  rw [Module.referencedMember.eq_def]
  cases m.image.memberRef? token with
  | none => exact .throw _
  | some row =>
    refine .ite (fun _ => ?_) fun _ => .ite (fun _ => .throw_bind _ _)
      fun _ => ?_
    · exact (m.stays_method row.parent none).bind fun _ => .pure _
    · exact m.finds_inheritedMember row

/-- Whatever a token was found to lead to, it leads to it again. -/
theorem Module.finds_entity (token : Token) : (m.entity token).Finds := by
  rw [Module.entity.eq_def]
  cases token.kind? with
  | none => exact .throw _
  | some kind =>
    cases kind with
    | typeDef => exact (finds_type m token).bind_found (fun _ => .pure _) rfl
    | typeRef => exact (finds_type m token).bind_found (fun _ => .pure _) rfl
    | typeSpec => exact (finds_type m token).bind_found (fun _ => .pure _) rfl
    | genericParam => exact (m.stays_parameter token).bind fun _ => .pure _
    | methodDef => exact (m.stays_method token none).bind fun _ => .pure _
    | field => exact (m.stays_field token none).bind fun _ => .pure _
    | memberRef => exact m.finds_referencedMember token
    | _ => exact .throw _

end

end CliMetadata
