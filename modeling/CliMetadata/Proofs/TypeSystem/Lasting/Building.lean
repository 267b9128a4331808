import CliMetadata.Proofs.TypeSystem.Lasting.Basic
import CliMetadata.Proofs.TypeSystem.Transfer.Members

/-!
# Names, parts and tokens that stay as they were

Names and parameters are remembered, and types are built from what is at hand,
so that all of this stays.  Where a token leads is remembered once it leads
somewhere.  A reference into a module that is not there leads nowhere for the
time being, and a full name may change with it: nothing is said here of names
that tell the types around a type.
-/

namespace CliMetadata

open Query

/-! ### The type system -/

theorem stays_requireTypeSystem : requireTypeSystem.Stays := by
  refine Lasts.read_bind (fun _ => .ite (fun _ => .pure _) fun _ => .throw _) ?_
  intro registry memory a answer _ later grows
  -- It was live if there was an answer, and it is live now.
  have live : later.isLive = true := by
    rw [Registry.isLive, grows.live, Option.isNone_none]
  cases held : registry.isLive with
  | true => rw [live]
  | false =>
    rw [held] at answer
    cases answer

theorem stays_reachModule (name : String) : (reachModule name).Stays := by
  refine Lasts.read_bind (fun registry => ?_) ?_
  · split
    · exact .ite (fun _ => .pure _) fun _ => .throw _
    · exact .throw _
  intro registry memory m answer _ later grows
  cases found : registry.module? name with
  | none =>
    rw [found] at answer
    cases answer
  | some n =>
    -- Modules that are there stay, and none is released.
    have reached : later.reaches name = true := by
      rw [Registry.reaches, grows.live]
    rw [grows.modules name n found]
    cases held : registry.reaches name with
    | true => rw [reached]
    | false =>
      -- A module that was released does not answer.
      rw [found, held] at answer
      cases answer

theorem stays_wellKnown (kind : WellKnown) : (wellKnown kind).Stays := by
  refine Lasts.read_bind (fun registry => ?_) ?_
  · split
    · exact .pure _
    · exact .throw _
  intro registry memory t answer _ later grows
  cases known : registry.wellKnown with
  | some types => rw [grows.wellKnown types known]
  | none =>
    rw [known] at answer
    cases answer

theorem Ty.adds_isWellKnown (t : Ty) (kind : WellKnown) :
    (t.isWellKnown kind).Adds := by
  refine Lasts.read_adds fun registry => .ite (fun _ => .pure _) fun _ => ?_
  exact (stays_wellKnown kind).attempt.bind_adds fun _ => .pure _

/-! ### Names -/

theorem TypeDefinition.stays_simpleName (d : TypeDefinition) :
    d.simpleName.Stays :=
  .remember ((stays_reachModule d.module).bind fun _ => .lift _)

theorem TypeDefinition.stays_namespaceText (d : TypeDefinition) :
    d.namespaceText.Stays :=
  .remember ((stays_reachModule d.module).bind fun _ => .lift _)

theorem GenericParameter.stays_simpleName (p : GenericParameter) :
    p.simpleName.Stays :=
  .remember ((stays_reachModule p.module).bind fun _ => .lift _)

theorem Ty.stays_simpleName (t : Ty) : t.simpleName.Stays := by
  cases t with
  | definition d | applied d _ => exact d.stays_simpleName
  | parameter p => exact p.stays_simpleName
  | var => exact .pure _
  | shaped _ element => exact element.stays_simpleName.bind fun _ => .pure _

theorem Ty.stays_namespaceText (t : Ty) : t.namespaceText.Stays := by
  cases t with
  | definition d | applied d _ => exact d.stays_namespaceText
  | parameter | var => exact .pure _
  | shaped _ element => exact element.stays_namespaceText

theorem Ty.stays_module? : (t : Ty) → t.module?.Stays
  | .definition d | .applied d _ =>
    (stays_reachModule d.module).bind fun _ => .pure _
  | .parameter p => (stays_reachModule p.module).bind fun _ => .pure _
  | .shaped _ element => element.stays_module?
  | .var .. => .pure _

/-! ### Following tokens -/

/-- Wherever a token was found to lead, it leads there again. -/
def Resolver.Finds (resolve : Resolver) :
    Prop := ∀ m token, (resolve m token).Finds

section
variable {resolve : Resolver} (hresolve : resolve.Finds)
include hresolve

theorem TypeDefinition.finds_containingWith (d : TypeDefinition) :
    (d.containingWith resolve).Finds := by
  refine .ite (fun _ => .pure _) fun _ => (stays_reachModule d.module).bind
    fun m => ?_
  cases m.image.enclosing? d.token with
  | none => exact .throw _
  | some enclosing =>
    refine stays_requireTypeSystem.bind fun _ => .read_options_bind
      (fun registry => ?_) ?_
    · exact .ite (fun _ => hresolve m enclosing) fun _ => .throw_bind _ _
    · exact fun _ _ options => by rw [options]

omit hresolve

mutual

theorem Ty.adds_fullNameFrom {nameOf : TypeDefinition → Query String}
    (names : ∀ d, (nameOf d).Adds) : (t : Ty) → (t.fullNameFrom nameOf).Adds
  | .definition d => names d
  | .applied d arguments =>
    (Ty.adds_fullNamesFrom names arguments).bind_adds fun _ =>
      (names d).bind_adds fun _ => .pure _
  | .parameter p => p.stays_simpleName.adding
  | .var .. => .pure _
  | .shaped _ element =>
    (Ty.adds_fullNameFrom names element).bind_adds fun _ => .pure _

theorem Ty.adds_fullNamesFrom {nameOf : TypeDefinition → Query String}
    (names : ∀ d, (nameOf d).Adds) :
    (types : List Ty) → (Ty.fullNamesFrom nameOf types).Adds
  | [] => .pure _
  | t :: rest =>
    (Ty.adds_fullNameFrom names t).bind_adds fun _ =>
      (Ty.adds_fullNamesFrom names rest).bind_adds fun _ => .pure _

end

include hresolve

theorem TypeDefinition.adds_fullNameWithin (room : Nat) (d : TypeDefinition) :
    (d.fullNameWithin resolve room).Adds := by
  induction room generalizing d with
  | zero => exact .throw _
  | succ room ih =>
    refine d.stays_simpleName.bind fun name => ?_
    refine (d.finds_containingWith hresolve).bind_adds fun outer => ?_
    cases outer with
    | some outer =>
      exact (outer.adds_fullNameFrom ih).bind_adds fun _ => .pure _
    | none => exact d.stays_namespaceText.bind fun _ => .pure _

theorem Ty.adds_fullNameWith (t : Ty) : (t.fullNameWith resolve).Adds :=
  .read_adds fun _ => t.adds_fullNameFrom
    (TypeDefinition.adds_fullNameWithin hresolve _)

theorem Ty.adds_displayWith (t : Ty) : (t.displayWith resolve).Adds :=
  (t.adds_fullNameWith hresolve).attempt.bind_adds fun _ => .pure _

end

/-! ### Parameters -/

theorem Module.stays_parameter (m : Module) (token : Token) :
    (m.parameter token).Stays :=
  (Lasts.lift _).bind fun t => .share t

theorem Module.stays_parameters (m : Module) (tokens : List Token) :
    (m.parameters tokens).Stays := by
  induction tokens with
  | nil => exact .pure _
  | cons token rest ih =>
    exact (m.stays_parameter token).bind fun _ => ih.bind fun _ => .pure _

theorem TypeDefinition.stays_parameters (d : TypeDefinition) :
    d.parameters.Stays :=
  .remember ((stays_reachModule d.module).bind
    fun m => (m.stays_parameters _).adding)

theorem Ty.stays_instantiation : (t : Ty) → t.instantiation.Stays
  | .definition d => d.stays_parameters
  | .applied .. | .parameter _ | .var .. | .shaped .. => .pure _

theorem Ty.stays_isGenericDefinition : (t : Ty) → t.isGenericDefinition.Stays
  | .definition d => d.stays_parameters.bind fun _ => .pure _
  | .applied .. | .parameter _ | .var .. | .shaped .. => .pure _

/-! ### Types from types -/

theorem stays_variableOf (index : UInt32) (isMethod : Bool) :
    (variableOf index isMethod).Stays :=
  .share _

theorem stays_shapeOf (shape : Shape) (element : Ty) :
    (shapeOf shape element).Stays := by
  cases shape with
  | array rank => exact .ite (fun _ => .throw_bind _ _) fun _ => .share _
  | vector => exact .share _
  | byRef => exact .share _
  | pointer => exact .share _

section
variable {resolve : Resolver} (hresolve : resolve.Finds)
include hresolve

theorem stays_instantiateWith (definition : Ty) (arguments : List Ty) :
    (instantiateWith resolve definition arguments).Stays := by
  cases definition with
  | definition d =>
    refine d.stays_parameters.bind fun own => ?_
    exact .ite (fun _ => (Ty.adds_displayWith hresolve _).bind_throw)
      fun _ => .share _
  | _ => exact (Ty.adds_displayWith hresolve _).bind_throw

omit hresolve

mutual

theorem Ty.stays_substituteWith (hresolve : resolve.Finds)
    (types methods : List Ty) :
    (t : Ty) → (t.substituteWith resolve types methods).Stays
  | .var index isMethod => .pure _
  | .applied d arguments => by
    refine (Ty.stays_substituteEachWith hresolve types methods arguments).bind
      fun replaced => ?_
    refine .ite (fun _ => .pure _) fun _ => stays_requireTypeSystem.bind
      fun _ => ?_
    exact stays_instantiateWith hresolve _ _
  | .shaped shape element => by
    refine (Ty.stays_substituteWith hresolve types methods element).bind
      fun replaced => ?_
    refine .ite (fun _ => .pure _) fun _ => stays_requireTypeSystem.bind
      fun _ => ?_
    exact stays_shapeOf shape replaced
  | .definition _ | .parameter _ => .pure _

theorem Ty.stays_substituteEachWith (hresolve : resolve.Finds)
    (types methods : List Ty) :
    (ts : List Ty) → (Ty.substituteEachWith resolve types methods ts).Stays
  | [] => .pure _
  | t :: rest =>
    (Ty.stays_substituteWith hresolve types methods t).bind fun _ =>
      (Ty.stays_substituteEachWith hresolve types methods rest).bind
        fun _ => .pure _

end

end

/-! ### Names, signatures and rows that lead to types -/

section
variable {resolve : Resolver} (hresolve : resolve.Finds)
include hresolve

theorem Module.finds_typeNamedWith (m : Module) (namespaceName name : String) :
    (m.typeNamedWith resolve namespaceName name).Finds := by
  refine (Lasts.lift _).bind fun index => ?_
  cases index.lookup (namespaceName, name) with
  | some token => exact hresolve m token
  | none => exact .pure _

theorem Module.finds_nestedNamedWith (m : Module) (name : String)
    (tokens : List Token) :
    (m.nestedNamedWith resolve name tokens).Finds := by
  induction tokens with
  | nil => exact .pure _
  | cons token rest ih =>
    rw [Module.nestedNamedWith]
    cases m.image.typeDef? token with
    | some row =>
      refine (Lasts.lift _).bind fun _ => (Lasts.lift _).bind fun _ => ?_
      exact .ite (fun _ => hresolve m token) fun _ => ih
    | none => exact .throw _

theorem Ty.finds_nestedTypeWith (t : Ty) (name : String) :
    (t.nestedTypeWith resolve name).Finds := by
  rw [Ty.nestedTypeWith]
  cases t.definition? with
  | some d =>
    refine (stays_reachModule d.module).bind fun m =>
      (Lasts.lift _).bind fun _ => ?_
    exact m.finds_nestedNamedWith hresolve name _
  | none => exact .pure _

theorem Module.stays_requiredTypeWith (m : Module) (token : Token) :
    (m.requiredTypeWith resolve token).Stays := by
  -- What is not found is a failure.
  refine (hresolve m token).bind_required (fun t => .pure t) ?_ ?_
  · dsimp only
    cases m.image.typeRef? token with
    | some row =>
      exact (Lasts.lift _).bind fun _ => (Lasts.lift _).bind fun _ => .throw _
    | none => exact .throw _
  · dsimp only
    cases m.image.typeRef? token with
    | some row => exact .bind fun _ => .bind fun _ => .throw _
    | none => exact .throw _

omit hresolve

mutual

/-- What a signature spells stays. -/
theorem TypeSig.stays_resolveWith (hresolve : resolve.Finds) (m : Module) :
    (signature : TypeSig) → (signature.resolveWith resolve m).Stays
  | .primitive _ => stays_requireTypeSystem.bind fun _ => stays_wellKnown _
  | .valueType token | .referenceType token =>
    stays_requireTypeSystem.bind fun _ => m.stays_requiredTypeWith
      hresolve token
  | .typeVar index =>
    stays_requireTypeSystem.bind fun _ => stays_variableOf index false
  | .methodVar index =>
    stays_requireTypeSystem.bind fun _ => stays_variableOf index true
  | .pinned inner =>
    stays_requireTypeSystem.bind fun _ => TypeSig.stays_resolveWith
      hresolve m inner
  | .pointer _ inner | .byRef inner | .vector _ inner | .array inner _ _ _ =>
    stays_requireTypeSystem.bind fun _ =>
      (TypeSig.stays_resolveWith hresolve m inner).bind
        fun _ => stays_shapeOf _ _
  | .generic definition arguments =>
    stays_requireTypeSystem.bind fun _ =>
      (TypeSig.stays_resolveWith hresolve m definition).bind fun _ =>
        (TypeSig.stays_resolveEachWith hresolve m arguments).bind fun _ =>
          stays_instantiateWith hresolve _ _
  | .function _ => stays_requireTypeSystem.bind fun _ => .throw _

theorem TypeSig.stays_resolveEachWith (hresolve : resolve.Finds) (m : Module) :
    (signatures : List TypeSig) →
    (TypeSig.resolveEachWith resolve m signatures).Stays
  | [] => .pure _
  | signature :: rest =>
    (TypeSig.stays_resolveWith hresolve m signature).bind fun _ =>
      (TypeSig.stays_resolveEachWith hresolve m rest).bind fun _ => .pure _

end

include hresolve

theorem Module.finds_referencedTypeWith (m : Module) (token : Token) :
    (m.referencedTypeWith resolve token).Finds := by
  rw [Module.referencedTypeWith]
  cases m.image.typeRef? token with
  | none => exact .throw _
  | some row =>
    refine (Lasts.lift _).bind fun name => (Lasts.lift _).bind
      fun namespaceName => ?_
    cases row.scope.kind? with
    | none => exact .throw _
    | some kind =>
      cases kind with
      | assemblyRef =>
        dsimp only
        cases m.image.assemblyRef? row.scope with
        | none => exact .throw _
        | some assembly =>
          refine (Lasts.lift _).bind fun assemblyName => ?_
          refine stays_requireTypeSystem.bind fun _ => Lasts.read_bind
            (fun registry => ?_) ?_
          · cases registry.module? assemblyName with
            | some other => exact other.finds_typeNamedWith hresolve _ _
            | none => exact .pure none
          · -- If something was found, the assembly was there, and it is there now.
            intro registry memory found answer some later grows
            cases there : registry.module? assemblyName with
            | some other => rw [grows.modules assemblyName other there]
            | none =>
              rw [there] at answer
              cases answer
              cases some
      | module => exact m.finds_typeNamedWith hresolve _ _
      | typeRef =>
        refine (hresolve m row.scope).bind_found (fun enclosing => ?_) rfl
        exact enclosing.finds_nestedTypeWith hresolve _
      | moduleRef => exact .throw _
      | _ => exact .throw _

theorem Module.stays_specifiedTypeWith (m : Module) (token : Token) :
    (m.specifiedTypeWith resolve token).Stays := by
  rw [Module.specifiedTypeWith]
  cases m.image.typeSpec? token with
  | none => exact .throw _
  | some row =>
    refine (Lasts.lift _).bind fun blob => .read_options_bind
      (fun registry => ?_) ?_
    · exact (Lasts.lift _).bind fun signature =>
        signature.stays_resolveWith hresolve m
    · exact fun _ _ options => by rw [options]

theorem Module.finds_typeWith (m : Module) (token : Token) :
    (m.typeWith resolve token).Finds := by
  rw [Module.typeWith]
  cases token.kind? with
  | none => exact .throw _
  | some kind =>
    cases kind with
    | typeDef =>
      exact (Lasts.lift _).bind fun _ => (Lasts.share _).bind fun _ => .pure _
    | typeRef => exact m.finds_referencedTypeWith hresolve token
    | typeSpec =>
      exact (m.stays_specifiedTypeWith hresolve token).bind fun _ => .pure _
    | _ => exact .throw _

end

/-- Where a token was found to lead is remembered, whatever the number of
steps. -/
theorem finds_typeWithin (room : Nat) :
    Resolver.Finds (Module.typeWithin room) := by
  induction room with
  | zero => exact fun m token => .ite (fun _ => .pure _) fun _ => .throw _
  | succ room ih =>
    exact fun m token => .ite (fun _ => .pure _) fun _ => .rememberIf
      (m.finds_typeWith ih token).adding

/-- Another number of steps leads to the same type, since it is remembered. -/
theorem finds_type : Resolver.Finds Module.type := by
  intro m token
  refine ⟨fun registry =>
    (finds_typeWithin registry.referenceBound m token).adds registry, ?_⟩
  intro registry memory found answer some later more _ precedes
  by_cases hnull : token.isNull = true
  · rw [Module.type_of_isNull hnull] at answer
    cases answer
    cases some
  · obtain ⟨room, run⟩ := m.type_apply token registry memory
    obtain ⟨roomLater, runLater⟩ := m.type_apply token later more
    rw [run, Module.typeWithin_succ hnull] at answer precedes
    have known :=
      precedes.facts _ found (Lasts.established_of_rememberIf answer some)
    rw [runLater, Module.typeWithin_succ hnull, rememberIf_apply_some known]

/-! ### What follows any token -/

theorem Module.finds_typeNamed (m : Module) (namespaceName name : String) :
    (m.typeNamed namespaceName name).Finds :=
  m.finds_typeNamedWith finds_type namespaceName name

theorem Module.stays_requiredType (m : Module) (token : Token) :
    (m.requiredType token).Stays :=
  m.stays_requiredTypeWith finds_type token

theorem Module.stays_resolve (m : Module) (signature : TypeSig) :
    (m.resolve signature).Stays :=
  signature.stays_resolveWith finds_type m

theorem Ty.finds_nestedType (t : Ty) (name : String) :
    (t.nestedType name).Finds :=
  t.finds_nestedTypeWith finds_type name

theorem TypeDefinition.finds_containing (d : TypeDefinition) :
    d.containing.Finds :=
  d.finds_containingWith finds_type

theorem Ty.finds_containing (t : Ty) : t.containing.Finds := by
  rw [Ty.containing]
  cases t.definition? with
  | some d => exact d.finds_containing
  | none => exact .pure _

theorem Ty.adds_fullName (t : Ty) :
    t.fullName.Adds := t.adds_fullNameWith finds_type

theorem Ty.adds_display (t : Ty) :
    t.display.Adds := t.adds_displayWith finds_type

theorem stays_instantiate (definition : Ty) (arguments : List Ty) :
    (instantiate definition arguments).Stays :=
  stays_instantiateWith finds_type definition arguments

theorem Ty.stays_substituted (t : Ty) (types methods : List Ty) :
    (t.substituted types methods).Stays :=
  Ty.stays_substituteWith finds_type types methods t

end CliMetadata
