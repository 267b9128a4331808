import CliMetadata.Proofs.TypeSystem.Recurring.Basic
import CliMetadata.Proofs.TypeSystem.Transfer.Building

/-!
# Names, parts and tokens recur

Reading names and parameters, building types and following tokens come to the
same whenever they are asked for.  A way from tokens to types takes a number of
steps that grows with patience, so that it is given here as one way for each
patience.
-/

namespace CliMetadata

open Filter Query

variable {registry : Registry} {base : Memory} {patience : Nat}

/-! ### The type system -/

theorem recurs_requireTypeSystem :
    Recurs registry base patience fun _ => requireTypeSystem :=
  .read_bind (fun _ => rfl) (.ite (fun _ => .pure _) fun _ => .throw _)

theorem recurs_reachModule (name : String) :
    Recurs registry base patience fun _ => reachModule name := by
  refine .read_bind (fun _ => rfl) ?_
  cases registry.module? name with
  | none => exact .throw _
  | some m => exact .ite (fun _ => .pure m) fun _ => .throw _

/-- A module that can be reached has the name. -/
theorem module?_of_reachModule {name : String} {memory : Memory} {m : Module}
    (answer : (reachModule name registry memory).1 = .ok m) :
    registry.module? name = some m := by
  obtain ⟨_, _, ⟨⟩, answer⟩ := bind_eq_ok.mp answer
  cases found : registry.module? name with
  | none =>
    rw [found] at answer
    cases answer
  | some n =>
    rw [found] at answer
    dsimp only at answer
    split at answer
    · obtain rfl := Except.ok.inj answer
      rfl
    · cases answer

/-- A module that can be reached is one of the modules. -/
theorem mem_of_reachModule {name : String} {memory : Memory} {m : Module}
    (answer : (reachModule name registry memory).1 = .ok m) :
    m ∈ registry.modules :=
  (Registry.mem_of_module? (module?_of_reachModule answer)).1

/-- A query at a module that can be reached. -/
theorem recurs_reachModule_bind {α : Type} {name : String}
    {next : Nat → Module → Query α}
    (h : ∀ m ∈ registry.modules, Recurs registry base patience fun l =>
      next l m) :
    Recurs registry base patience fun l => reachModule name >>= next l :=
  (recurs_reachModule name).bind_told (fun _ _ => mem_of_reachModule) h

theorem recurs_wellKnown (kind : WellKnown) :
    Recurs registry base patience fun _ => wellKnown kind := by
  refine .read_bind (fun _ => rfl) ?_
  cases registry.wellKnown.bind (·[WellKnown.all.findIdx (· == kind)]?) with
  | some t => exact .pure t
  | none => exact .throw _

/-! ### Names -/

theorem TypeDefinition.recurs_simpleName (d : TypeDefinition) :
    Recurs registry base patience fun _ => d.simpleName :=
  .remember (fun _ => rfl) trivial
    ((recurs_reachModule d.module).bind fun _ => .lift _)

theorem TypeDefinition.recurs_namespaceText (d : TypeDefinition) :
    Recurs registry base patience fun _ => d.namespaceText :=
  .remember (fun _ => rfl) trivial
    ((recurs_reachModule d.module).bind fun _ => .lift _)

theorem GenericParameter.recurs_simpleName (p : GenericParameter) :
    Recurs registry base patience fun _ => p.simpleName :=
  .remember (fun _ => rfl) trivial
    ((recurs_reachModule p.module).bind fun _ => .lift _)

theorem Ty.recurs_simpleName (t : Ty) :
    Recurs registry base patience fun _ => t.simpleName := by
  cases t with
  | definition d | applied d _ => exact d.recurs_simpleName
  | parameter p => exact p.recurs_simpleName
  | var => exact .pure _
  | shaped _ element => exact element.recurs_simpleName.bind fun _ => .pure _

theorem Ty.recurs_namespaceText (t : Ty) :
    Recurs registry base patience fun _ => t.namespaceText := by
  cases t with
  | definition d | applied d _ => exact d.recurs_namespaceText
  | parameter | var => exact .pure _
  | shaped _ element => exact element.recurs_namespaceText

theorem Ty.recurs_module? :
    (t : Ty) → Recurs registry base patience fun _ => t.module?
  | .definition d | .applied d _ =>
    (recurs_reachModule d.module).bind fun _ => .pure _
  | .parameter p => (recurs_reachModule p.module).bind fun _ => .pure _
  | .shaped _ element => element.recurs_module?
  | .var .. => .pure _

/-! ### Following tokens -/

/-- Wherever the tokens of modules lead, they lead there again. -/
def Resolver.Recurs (registry : Registry) (base : Memory) (patience : Nat)
    (resolve : Nat → Resolver) : Prop :=
  ∀ m ∈ registry.modules, ∀ token,
    Query.Recurs registry base patience fun l => resolve l m token

section
variable {resolve : Nat → Resolver}

theorem TypeDefinition.recurs_containingWith
    (hresolve : Resolver.Recurs registry base patience resolve)
    (d : TypeDefinition) :
    Recurs registry base patience fun l => d.containingWith (resolve l) := by
  refine .ite (fun _ => .pure _) fun _ => recurs_reachModule_bind fun m hm => ?_
  cases m.image.enclosing? d.token with
  | none => exact .throw _
  | some enclosing =>
    refine recurs_requireTypeSystem.bind fun _ => .read_bind (fun _ => rfl) ?_
    exact .ite (fun _ => hresolve m hm enclosing) fun _ => .throw_bind _ _

mutual

theorem Ty.recurs_fullNameFrom {nameOf : Nat → TypeDefinition → Query String}
    (names : ∀ d, Recurs registry base patience fun l => nameOf l d) :
    (t : Ty) → Recurs registry base patience fun l => t.fullNameFrom (nameOf l)
  | .definition d => names d
  | .applied d arguments =>
    (Ty.recurs_fullNamesFrom names arguments).bind fun _ => (names d).bind
      fun _ => .pure _
  | .parameter p => p.recurs_simpleName
  | .var .. => .pure _
  | .shaped _ element =>
    (Ty.recurs_fullNameFrom names element).bind fun _ => .pure _

theorem Ty.recurs_fullNamesFrom {nameOf : Nat → TypeDefinition → Query String}
    (names : ∀ d, Recurs registry base patience fun l => nameOf l d) :
    (types : List Ty) → Recurs registry base patience fun l => Ty.fullNamesFrom
      (nameOf l) types
  | [] => .pure _
  | t :: rest =>
    (Ty.recurs_fullNameFrom names t).bind fun _ =>
      (Ty.recurs_fullNamesFrom names rest).bind fun _ => .pure _

end

theorem TypeDefinition.recurs_fullNameWithin
    (hresolve : Resolver.Recurs registry base patience resolve)
    {room : Nat → Nat} (large : Tendsto room atTop atTop) (d : TypeDefinition) :
    Recurs registry base patience fun l => d.fullNameWithin (resolve l)
      (room l) := by
  induction hroom : room patience generalizing d room with
  | zero =>
    -- Without room a circle is reported, and that need not come out again.
    refine .of_circular d.module d.token fun memory => ?_
    rw [hroom]
    rfl
  | succ steps ih =>
    suffices h : Recurs registry base patience
        -- With room left, there is one less for what is asked next.
        fun l => d.fullNameWithin (resolve l) (room l - 1 + 1) by
      refine h.congr (by simp [hroom]) ?_
      exact (eventually_sub_add_one large).mono fun l hl => by rw [hl]
    refine d.recurs_simpleName.bind fun name => ?_
    refine (d.recurs_containingWith hresolve).bind fun outer => ?_
    cases outer with
    | none => exact d.recurs_namespaceText.bind fun _ => .pure _
    | some outer =>
      have inner := outer.recurs_fullNameFrom
        fun d => ih (tendsto_sub_one large) d (by rw [hroom]; rfl)
      exact inner.bind fun _ => .pure _

theorem Ty.recurs_fullNameWith
    (hresolve : Resolver.Recurs registry base patience resolve) (t : Ty) :
    Recurs registry base patience fun l => t.fullNameWith (resolve l) :=
  .read (t.recurs_fullNameFrom fun d =>
    d.recurs_fullNameWithin hresolve registry.tendsto_nestingBound)

theorem Ty.recurs_displayWith
    (hresolve : Resolver.Recurs registry base patience resolve) (t : Ty) :
    Recurs registry base patience fun l => t.displayWith (resolve l) :=
  (t.recurs_fullNameWith hresolve).attempt.bind fun _ => .pure _

end

/-! ### Parameters -/

theorem Module.recurs_parameters (m : Module) (tokens : List Token) :
    Recurs registry base patience fun _ => m.parameters tokens := by
  have parameter (token : Token) :
      Recurs registry base patience fun _ => m.parameter token :=
    (Recurs.lift _).bind fun t => .share t
  induction tokens with
  | nil => exact .pure _
  | cons token rest ih =>
    exact (parameter token).bind fun _ => ih.bind fun _ => .pure _

theorem TypeDefinition.recurs_parameters (d : TypeDefinition) :
    Recurs registry base patience fun _ => d.parameters :=
  .remember (fun _ => rfl) trivial
    ((recurs_reachModule d.module).bind fun m => m.recurs_parameters _)

theorem Ty.recurs_instantiation : (t : Ty) →
    Recurs registry base patience fun _ => t.instantiation
  | .definition d => d.recurs_parameters
  | .applied .. | .parameter _ | .var .. | .shaped .. => .pure _

/-! ### Types from types -/

theorem recurs_shapeOf (shape : Shape) (element : Ty) :
    Recurs registry base patience fun _ => shapeOf shape element := by
  cases shape with
  | array rank => exact .ite (fun _ => .throw_bind _ _) fun _ => .share _
  | vector => exact .share _
  | byRef => exact .share _
  | pointer => exact .share _

section
variable {resolve : Nat → Resolver}
  (hresolve : Resolver.Recurs registry base patience resolve)
include hresolve

theorem recurs_instantiateWith (definition : Ty) (arguments : List Ty) :
    Recurs registry base patience fun l => instantiateWith
      (resolve l) definition arguments := by
  have display : Recurs registry base patience fun l => definition.displayWith
      (resolve l) :=
    definition.recurs_displayWith hresolve
  cases definition with
  | definition d =>
    refine d.recurs_parameters.bind fun own => ?_
    exact .ite (fun _ => display.bind fun _ => .throw_bind _ _)
      fun _ => .share _
  | _ => exact display.bind fun _ => .throw _

omit hresolve

mutual

theorem Ty.recurs_substituteWith
    (hresolve : Resolver.Recurs registry base patience resolve)
    (types methods : List Ty) : (t : Ty) →
    Recurs registry base patience fun l => t.substituteWith
      (resolve l) types methods
  | .var .. => .pure _
  | .applied d arguments => by
    refine (Ty.recurs_substituteEachWith hresolve types methods arguments).bind
      fun replaced => ?_
    -- If nothing was replaced, the type itself is answered.
    refine .ite (fun _ => .pure _) fun _ => recurs_requireTypeSystem.bind
      fun _ => ?_
    exact recurs_instantiateWith hresolve _ _
  | .shaped shape element => by
    refine (Ty.recurs_substituteWith hresolve types methods element).bind
      fun replaced => ?_
    refine .ite (fun _ => .pure _) fun _ => recurs_requireTypeSystem.bind
      fun _ => ?_
    exact recurs_shapeOf shape replaced
  | .definition _ | .parameter _ => .pure _

theorem Ty.recurs_substituteEachWith
    (hresolve : Resolver.Recurs registry base patience resolve)
    (types methods : List Ty) : (ts : List Ty) →
    Recurs registry base patience fun l => Ty.substituteEachWith
      (resolve l) types methods ts
  | [] => .pure _
  | t :: rest =>
    (Ty.recurs_substituteWith hresolve types methods t).bind fun _ =>
      (Ty.recurs_substituteEachWith hresolve types methods rest).bind
        fun _ => .pure _

end

end

/-! ### Names, signatures and rows that lead to types -/

section
variable {resolve : Nat → Resolver} {m : Module}
  (hresolve : Resolver.Recurs registry base patience resolve)
  (hm : m ∈ registry.modules)
include hresolve hm

theorem Module.recurs_typeNamedWith (namespaceName name : String) :
    Recurs registry base patience fun l => m.typeNamedWith
      (resolve l) namespaceName name := by
  refine (Recurs.lift _).bind fun index => ?_
  cases index.lookup (namespaceName, name) with
  | some token => exact hresolve m hm token
  | none => exact .pure _

theorem Module.recurs_nestedNamedWith (name : String) (tokens : List Token) :
    Recurs registry base patience fun l => m.nestedNamedWith
      (resolve l) name tokens := by
  induction tokens with
  | nil => exact .pure _
  | cons token rest ih =>
    simp only [Module.nestedNamedWith]
    cases m.image.typeDef? token with
    | some row =>
      refine (Recurs.lift _).bind fun _ => (Recurs.lift _).bind fun _ => ?_
      exact .ite (fun _ => hresolve m hm token) fun _ => ih
    | none => exact .throw _

omit hm in
theorem Ty.recurs_nestedTypeWith (t : Ty) (name : String) :
    Recurs registry base patience fun l => t.nestedTypeWith
      (resolve l) name := by
  simp only [Ty.nestedTypeWith]
  cases t.definition? with
  | none => exact .pure _
  | some d =>
    refine recurs_reachModule_bind fun m hm => (Recurs.lift _).bind fun _ => ?_
    exact Module.recurs_nestedNamedWith hresolve hm name _

theorem Module.recurs_requiredTypeWith (token : Token) :
    Recurs registry base patience fun l => m.requiredTypeWith
      (resolve l) token := by
  refine (hresolve m hm token).bind fun found => ?_
  cases found with
  | some t => exact .pure t
  | none =>
    dsimp only
    cases m.image.typeRef? token with
    | some row =>
      exact (Recurs.lift _).bind fun _ => (Recurs.lift _).bind fun _ => .throw _
    | none => exact .throw _

omit hresolve hm

mutual

theorem TypeSig.recurs_resolveWith
    (hresolve : Resolver.Recurs registry base patience resolve)
    (hm : m ∈ registry.modules) (signature : TypeSig) :
    Recurs registry base patience fun l => signature.resolveWith
      (resolve l) m := by
  match signature with
  | .primitive kind =>
    exact recurs_requireTypeSystem.bind fun _ => recurs_wellKnown _
  | .valueType token | .referenceType token =>
    exact recurs_requireTypeSystem.bind fun _ => Module.recurs_requiredTypeWith
      hresolve hm token
  | .typeVar _ | .methodVar _ =>
    exact recurs_requireTypeSystem.bind fun _ => .share _
  | .pinned inner =>
    exact recurs_requireTypeSystem.bind fun _ =>
      TypeSig.recurs_resolveWith hresolve hm inner
  | .pointer _ inner | .byRef inner | .vector _ inner | .array inner _ _ _ =>
    refine recurs_requireTypeSystem.bind fun _ => ?_
    exact (TypeSig.recurs_resolveWith hresolve hm inner).bind
      fun _ => recurs_shapeOf _ _
  | .generic definition arguments =>
    refine recurs_requireTypeSystem.bind fun _ => ?_
    refine (TypeSig.recurs_resolveWith hresolve hm definition).bind fun _ => ?_
    refine (TypeSig.recurs_resolveEachWith hresolve hm arguments).bind
      fun _ => ?_
    exact recurs_instantiateWith hresolve _ _
  | .function _ => exact recurs_requireTypeSystem.bind fun _ => .throw _

theorem TypeSig.recurs_resolveEachWith
    (hresolve : Resolver.Recurs registry base patience resolve)
    (hm : m ∈ registry.modules) (signatures : List TypeSig) :
    Recurs registry base patience fun l => TypeSig.resolveEachWith
      (resolve l) m signatures := by
  match signatures with
  | [] => exact .pure _
  | signature :: rest =>
    exact (TypeSig.recurs_resolveWith hresolve hm signature).bind fun _ =>
      (TypeSig.recurs_resolveEachWith hresolve hm rest).bind fun _ => .pure _

end

include hresolve hm

theorem Module.recurs_referencedTypeWith (token : Token) :
    Recurs registry base patience fun l => m.referencedTypeWith
      (resolve l) token := by
  simp only [Module.referencedTypeWith]
  cases m.image.typeRef? token with
  | none => exact .throw _
  | some row =>
    refine (Recurs.lift _).bind fun name => (Recurs.lift _).bind
      fun namespaceName => ?_
    cases row.scope.kind? with
    | none => exact .throw _
    | some kind =>
      cases kind with
      | assemblyRef =>
        -- In another assembly, if its module is there.
        dsimp only
        cases m.image.assemblyRef? row.scope with
        | none => exact .throw _
        | some assembly =>
          refine (Recurs.lift _).bind fun assemblyName => ?_
          refine recurs_requireTypeSystem.bind fun _ => .read_bind
            (fun _ => rfl) ?_
          cases there : registry.module? assemblyName with
          | none => exact .pure _
          | some other =>
            exact Module.recurs_typeNamedWith hresolve
              (Registry.mem_of_module? there).1 _ _
      -- In the module itself.
      | module => exact Module.recurs_typeNamedWith hresolve hm _ _
      | typeRef =>
        -- Inside another type.
        refine (hresolve m hm row.scope).bind fun enclosing => ?_
        cases enclosing with
        | none => exact .pure _
        | some enclosing => exact enclosing.recurs_nestedTypeWith hresolve _
      | moduleRef => exact .throw _
      | _ => exact .throw _

theorem Module.recurs_specifiedTypeWith (token : Token) :
    Recurs registry base patience fun l => m.specifiedTypeWith
      (resolve l) token := by
  simp only [Module.specifiedTypeWith]
  cases m.image.typeSpec? token with
  | none => exact .throw _
  | some row =>
    refine (Recurs.lift _).bind fun blob => .read_bind (fun _ => rfl) ?_
    exact (Recurs.lift _).bind fun signature =>
      signature.recurs_resolveWith hresolve hm

theorem Module.recurs_typeWith (token : Token) :
    Recurs registry base patience fun l => m.typeWith (resolve l) token := by
  simp only [Module.typeWith]
  cases token.kind? with
  | none => exact .throw _
  | some kind =>
    cases kind with
    | typeDef =>
      exact (Recurs.lift _).bind fun _ => (Recurs.share _).bind fun _ => .pure _
    | typeRef => exact Module.recurs_referencedTypeWith hresolve hm token
    | typeSpec =>
      exact (Module.recurs_specifiedTypeWith hresolve hm token).bind
        fun _ => .pure _
    | _ => exact .throw _

end

section
variable (proper : registry.IsProper)
include proper

/-- The way from tokens to types recurs, however many steps it may take. -/
theorem recurs_typeWithin {room : Nat → Nat}
    (large : Tendsto room atTop atTop) :
    Resolver.Recurs registry base patience fun l => Module.typeWithin
      (room l) := by
  induction hroom : room patience generalizing room with
  | zero =>
    intro m hm token
    by_cases hnull : token.isNull = true
    · -- A null token needs no room.
      simp only [Module.typeWithin_of_isNull hnull]
      exact .pure none
    · -- Any other token is reported as a circle.
      refine .of_circular m.name token fun memory => ?_
      have run : Module.typeWithin 0 m token = throw (.circular m.name token) :=
        if_neg hnull
      dsimp only
      rw [hroom, run]
      rfl
  | succ steps ih =>
    intro m hm token
    suffices h : Recurs registry base patience
        fun l => Module.typeWithin (room l - 1 + 1) m token by
      refine h.congr ?_ ((eventually_sub_add_one large).mono
        fun l hl => by rw [hl])
      dsimp only
      simp [hroom]
    refine .ite (fun _ => .pure _) fun hnull => ?_
    -- What a token was resolved to is remembered.
    refine Recurs.rememberIf (Module.remembers_typeWithin proper hm hnull)
      trivial (fun _ => id) large fun room' large' now => ?_
    exact Module.recurs_typeWith (ih (tendsto_sub_one large')
      (by rw [now, hroom]; rfl)) hm token

/-- The way from tokens to types recurs. -/
theorem recurs_type :
    Resolver.Recurs registry base patience fun _ => Module.type :=
  fun m hm token => .read
    (recurs_typeWithin proper registry.tendsto_referenceBound m hm token)

/-! ### What follows any token -/

theorem Module.recurs_requiredType {m : Module} (hm : m ∈ registry.modules)
    (token : Token) :
    Recurs registry base patience fun _ => m.requiredType token :=
  Module.recurs_requiredTypeWith (recurs_type proper) hm token

theorem Module.recurs_resolve {m : Module} (hm : m ∈ registry.modules)
    (signature : TypeSig) :
    Recurs registry base patience fun _ => m.resolve signature :=
  signature.recurs_resolveWith (recurs_type proper) hm

theorem Ty.recurs_display (t : Ty) :
    Recurs registry base patience fun _ => t.display :=
  t.recurs_displayWith (recurs_type proper)

theorem Ty.recurs_substituted (t : Ty) (types methods : List Ty) :
    Recurs registry base patience fun _ => t.substituted types methods :=
  Ty.recurs_substituteWith (recurs_type proper) types methods t

end

end CliMetadata
