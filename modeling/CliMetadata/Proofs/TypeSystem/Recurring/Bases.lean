import CliMetadata.Proofs.TypeSystem.Recurring.Building
import CliMetadata.TypeSystem.Classification

/-!
# Bases, signatures and flags recur

What a type derives from, what the signature of a method says, and what sort of
type a type is come to the same whenever they are asked for.  Of flags, those
count here that are told without members: the finalizer is not among them.
-/

namespace CliMetadata

open Filter Query

variable {registry : Registry} {base : Memory} {patience : Nat}

/-! ### Base types -/

theorem TypeDefinition.recurs_subject (d : TypeDefinition)
    (moduleName : String) :
    Recurs registry base patience fun _ => d.subject moduleName :=
  d.recurs_namespaceText.attempt.bind fun _ => d.recurs_simpleName.attempt.bind
    fun _ => .pure _

theorem Ty.recurs_subject (t : Ty) :
    Recurs registry base patience fun _ => t.subject :=
  t.recurs_module?.attempt.bind fun _ => t.recurs_namespaceText.attempt.bind
    fun _ =>
    t.recurs_simpleName.attempt.bind fun _ => .pure _

section
variable (proper : registry.IsProper)
include proper

theorem TypeDefinition.recurs_openBase (d : TypeDefinition) :
    Recurs registry base patience fun _ => d.openBase := by
  refine .ite (fun _ => .pure _) fun _ => recurs_reachModule_bind fun m hm => ?_
  refine (recurs_type proper m hm d.base).attempt.bind fun result => ?_
  rcases result with cause | _ | base
  · refine .ite (fun _ => .throw_bind _ _) fun _ => ?_
    exact (d.recurs_subject _).bind fun _ => .throw _
  · exact (d.recurs_subject _).bind fun _ => .throw _
  · refine .ite (fun _ => .pure _) fun _ => (base.recurs_display proper).bind
      fun _ => ?_
    exact (d.recurs_subject _).bind fun _ => .throw _

theorem TypeDefinition.recurs_baseType (d : TypeDefinition) :
    Recurs registry base patience fun _ => d.baseType := by
  refine .remember (fun _ => rfl) trivial
    ((d.recurs_openBase proper).bind fun found => ?_)
  cases found with
  | none => exact .pure _
  | some base =>
    refine .ite (fun _ => d.recurs_parameters.bind fun own => ?_)
      fun _ => .pure _
    exact (base.recurs_substituted proper own []).bind fun _ => .pure _

theorem Ty.recurs_base :
    (t : Ty) → Recurs registry base patience fun _ => t.base
  | .definition d => d.recurs_baseType proper
  | .applied d arguments => by
    -- The base of the definition, with the arguments put into it.
    refine .remember (fun _ => rfl) trivial
      ((d.recurs_openBase proper).bind fun found => ?_)
    cases found with
    | none => exact .pure _
    | some base =>
      exact (base.recurs_substituted proper arguments []).bind fun _ => .pure _
  | .shaped shape _ => by
    -- Of the shapes only arrays have a base.
    refine .ite (fun _ => .pure _) fun _ => recurs_requireTypeSystem.bind
      fun _ => ?_
    exact (recurs_wellKnown .array).bind fun _ => .pure _
  | .parameter _ | .var .. => .pure _

theorem Ty.recurs_hasBase (t : Ty) :
    Recurs registry base patience fun _ => t.hasBase :=
  (t.recurs_base proper).bind fun _ => .pure _

/-! ### Signatures -/

section
variable {m : Module} (hm : m ∈ registry.modules)
include hm

theorem Module.recurs_resolveModifiers (position : Nat)
    (modifiers : List Modifier) :
    Recurs registry base patience fun _ => m.resolveModifiers position
      modifiers := by
  induction modifiers with
  | nil => exact .pure _
  | cons modifier rest ih =>
    exact (Module.recurs_requiredType proper hm _).bind fun _ => ih.bind
      fun _ => .pure _

theorem Module.recurs_resolveParam (position : Nat) (param : ParamSig) :
    Recurs registry base patience fun _ => m.resolveParam position param := by
  refine (Module.recurs_resolveModifiers proper hm position _).bind fun _ => ?_
  refine (Module.recurs_resolve proper hm param.type).bind fun type => .ite
    (fun _ => ?_) fun _ => ?_
  · exact (recurs_shapeOf .byRef type).bind fun _ => .pure _
  · exact .pure _

theorem Module.recurs_resolveParams (position : Nat) (params : List ParamSig) :
    Recurs registry base patience fun _ => m.resolveParams position params := by
  induction params generalizing position with
  | nil => exact .pure _
  | cons param rest ih =>
    refine (Module.recurs_resolveParam proper hm position param).bind
      fun _ => ?_
    exact (ih (position + 1)).bind fun _ => .pure _

theorem Module.recurs_resolveMethod (signature : MethodSig) :
    Recurs registry base patience fun _ => m.resolveMethod signature := by
  refine recurs_requireTypeSystem.bind fun _ => ?_
  refine (Module.recurs_resolveParam proper hm 0 _).bind fun _ => ?_
  exact (Module.recurs_resolveParams proper hm 1 _).bind fun _ => .pure _

end

omit proper in
theorem recurs_mapM {α β : Type} {change : α → Query β}
    (changes : ∀ a, Recurs registry base patience fun _ => change a)
    (items : List α) :
    Recurs registry base patience fun _ => items.mapM change := by
  induction items with
  | nil =>
    simp only [List.mapM_nil]
    exact .pure _
  | cons a items ih =>
    simp only [List.mapM_cons]
    exact (changes a).bind fun _ => ih.bind fun _ => .pure _

theorem MethodSignature.recurs_substituted (signature : MethodSignature)
    (types : List Ty) :
    Recurs registry base patience fun _ => signature.substituted types := by
  refine .ite (fun _ => .pure _) fun _ => ?_
  refine (recurs_mapM (fun t : Ty => t.recurs_substituted proper types [])
    _).bind fun _ => ?_
  have modifier (modifier : ResolvedModifier) :
      Recurs registry base patience fun _ => modifier.substituted types :=
    (modifier.type.recurs_substituted proper types []).bind fun _ => .pure _
  refine (recurs_mapM modifier _).bind fun _ => ?_
  exact (signature.result.recurs_substituted proper types []).bind
    fun _ => .pure _

/-! ### What methods say -/

omit proper in
theorem Method.recurs_name (method : Method) :
    Recurs registry base patience fun _ => method.name :=
  .remember (fun _ => rfl) trivial
    ((recurs_reachModule _).bind fun _ => .lift _)

theorem MethodDefinition.recurs_resolved (d : MethodDefinition) :
    Recurs registry base patience fun _ => d.resolved := by
  refine .remember (fun _ => rfl) trivial
    (recurs_reachModule_bind fun m hm => ?_)
  refine (Recurs.lift _).bind fun blob => .read_bind (fun _ => rfl) ?_
  exact (Recurs.lift _).bind fun signature => Module.recurs_resolveMethod proper
    hm signature

theorem Method.recurs_signature : (method : Method) →
    Recurs registry base patience fun _ => method.signature
  | .definition d => d.recurs_resolved proper
  | .view method owner => by
    refine .remember (fun _ => rfl) trivial
      (method.recurs_signature.bind fun signature => ?_)
    exact owner.recurs_instantiation.bind fun types =>
      signature.recurs_substituted proper types

omit proper in
theorem Method.recurs_parameters : (method : Method) →
    Recurs registry base patience fun _ => method.parameters
  | .definition d =>
    .remember (fun _ => rfl) trivial
      ((recurs_reachModule d.module).bind fun m => m.recurs_parameters _)
  | .view method _ => .remember (fun _ => rfl) trivial method.recurs_parameters

/-! ### What fields say -/

omit proper in
theorem Field.recurs_name (field : Field) :
    Recurs registry base patience fun _ => field.name :=
  .remember (fun _ => rfl) trivial
    ((recurs_reachModule _).bind fun _ => .lift _)

theorem FieldDefinition.recurs_type (d : FieldDefinition) :
    Recurs registry base patience fun _ => d.type := by
  refine .remember (fun _ => rfl) trivial
    (recurs_reachModule_bind fun m hm => ?_)
  refine (Recurs.lift _).bind fun blob => .read_bind (fun _ => rfl) ?_
  exact (Recurs.lift _).bind fun signature => Module.recurs_resolve proper hm
    signature.type

theorem Field.recurs_type :
    (field : Field) → Recurs registry base patience fun _ => field.type
  | .definition d => d.recurs_type proper
  | .view field owner => by
    refine .remember (fun _ => rfl) trivial
      (field.recurs_type.bind fun type => ?_)
    exact owner.recurs_instantiation.bind fun types =>
      type.recurs_substituted proper types []

/-! ### Flags -/

theorem TypeDefinition.recurs_declaredCategory (d : TypeDefinition) :
    Recurs registry base patience fun _ => d.declaredCategory := by
  refine recurs_requireTypeSystem.bind fun _ =>
    (recurs_wellKnown .valueType).bind fun valueType => ?_
  refine (recurs_wellKnown .enum).bind fun enumType =>
    (d.recurs_baseType proper).bind fun base => ?_
  exact .ite (fun _ => .pure _) fun _ => .ite (fun _ => .pure _)
    fun _ => .pure _

theorem TypeDefinition.recurs_findCategory (d : TypeDefinition) :
    Recurs registry base patience fun _ => d.findCategory := by
  refine .read_bind (fun _ => rfl) ?_
  cases registry.fixedCategories.lookup (.definition d) with
  | some category => exact .pure category
  | none => exact d.recurs_declaredCategory proper

theorem TypeDefinition.recurs_category (d : TypeDefinition) :
    Recurs registry base patience fun _ => d.category :=
  .remember (fun _ => rfl) trivial (d.recurs_findCategory proper)

omit proper in
theorem TypeDefinition.recurs_findVariance (d : TypeDefinition) :
    Recurs registry base patience fun _ => d.findVariance :=
  d.recurs_parameters.bind fun _ => .pure _

theorem TypeDefinition.recurs_findAttributeFlags (d : TypeDefinition) :
    Recurs registry base patience fun _ => d.findAttributeFlags :=
  (d.recurs_category proper).bind fun _ => (recurs_reachModule _).bind
    fun _ => .lift _

namespace Ty

theorem recurs_findCategory (t : Ty) :
    Recurs registry base patience fun _ => t.findCategory := by
  cases t with
  | definition d => exact d.recurs_findCategory proper
  | applied d _ => exact d.recurs_category proper
  | parameter | var | shaped => exact .pure _

omit proper in
theorem recurs_findVariance (t : Ty) :
    Recurs registry base patience fun _ => t.findVariance := by
  cases t with
  | definition d => exact d.recurs_findVariance
  | applied d _ => exact .remember (fun _ => rfl) trivial d.recurs_findVariance
  | parameter | var | shaped => exact .pure _

theorem recurs_findAttributeFlags (t : Ty) :
    Recurs registry base patience fun _ => t.findAttributeFlags := by
  cases t with
  | definition d => exact d.recurs_findAttributeFlags proper
  | applied d _ =>
    exact .remember (fun _ => rfl) trivial (d.recurs_findAttributeFlags proper)
  | parameter | var | shaped => exact .pure _

theorem recurs_category (t : Ty) :
    Recurs registry base patience fun _ => t.category :=
  .remember (fun _ => rfl) trivial (t.recurs_findCategory proper)

omit proper in
theorem recurs_hasVariance (t : Ty) :
    Recurs registry base patience fun _ => t.hasVariance :=
  .remember (fun _ => rfl) trivial t.recurs_findVariance

theorem recurs_attributeFlags (t : Ty) :
    Recurs registry base patience fun _ => t.attributeFlags :=
  .remember (fun _ => rfl) trivial (t.recurs_findAttributeFlags proper)

end Ty

/-! ### Facts -/

/-- What is found of a plain fact comes to the same whenever it is asked for. -/
theorem Fact.recurs_ask {fact : Fact} (plain : fact.IsPlain) {room : Nat → Nat}
    (large : Tendsto room atTop atTop) :
    Recurs registry base patience fun l => fact.ask (room l) := by
  cases fact with
  | ofType t aspect =>
    cases aspect with
    | name => exact t.recurs_simpleName
    | namespaceName => exact t.recurs_namespaceText
    | base => exact t.recurs_base proper
    | parameters => exact t.recurs_instantiation
    | category => exact t.recurs_category proper
    | variance => exact t.recurs_hasVariance
    | attributeFlags => exact t.recurs_attributeFlags proper
    -- What these come to may depend on members that were met.
    | finalizer | hash => exact plain.elim
  | ofMethod method aspect =>
    cases aspect with
    | name => exact method.recurs_name
    | signature => exact method.recurs_signature proper
    | parameters => exact method.recurs_parameters
  | ofField field aspect =>
    cases aspect with
    | name => exact field.recurs_name
    | type => exact field.recurs_type proper
  | resolved name token =>
    -- Whether the module is there never changes.
    refine .read_bind (fun _ => rfl) ?_
    cases there : registry.module? name with
    | none => exact .pure none
    | some m =>
      exact recurs_typeWithin proper large m
        (Registry.mem_of_module? there).1 token

/-- What is found of a plain fact from the base is found from any memory that is
true since. -/
theorem Fact.IsFoundFrom.settles {fact : Fact} {value : fact.Value}
    (found : fact.IsFoundFrom registry base value) (plain : fact.IsPlain)
    (allowed : fact.IsAllowed registry.modules value) :
    fact.IsSettledSince registry base value := by
  refine ⟨allowed, fun room large => ?_⟩
  obtain ⟨l, answer⟩ := (found room large).exists
  have recurs : Recurs registry base l fun l => fact.ask (room l) :=
    recurs_ask proper plain large
  have reached := recurs.reaches base (Memory.isSettledSince_base registry base)
  rw [answer] at reached
  exact reached (.ok value)

end

end CliMetadata
