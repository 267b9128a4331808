import CliMetadata.Proofs.TypeSystem.Ensures

/-!
# Nodes from names, parts and tokens

What is built from nodes is a node: names are read, parameters are looked up,
definitions are applied, and tokens are followed, and none of it leads out of
the nodes.  A way from tokens to types is at first any that gives nodes
(`Resolver.GivesNodes`); that the way of the type system does is an induction on
the number of steps that it may take.
-/

namespace CliMetadata

open Query

variable {registry : Registry} {tracked : Bool} {shared : Ty → Prop}

/-! ### The type system -/

theorem keeps_requireTypeSystem :
    requireTypeSystem.Keeps registry tracked shared := by
  refine Ensures.read_bind ?_
  exact .ite (fun _ => .pure fun _ _ => trivial) fun _ => .throw _

/-- A module that can be reached is one of the modules, and has the name that it
is reached by. -/
theorem ensures_reachModule (name : String) :
    (reachModule name).Ensures registry tracked shared
    fun _ m => m ∈ registry.modules ∧ m.name = name := by
  refine Ensures.read_bind ?_
  split
  · next m hm =>
    exact .ite (fun _ => .pure fun _ _ => Registry.mem_of_module? hm)
      fun _ => .throw _
  · exact .throw _

theorem gives_wellKnown (kind : WellKnown) :
    (wellKnown kind).Gives registry tracked shared fun t => [t] := by
  refine Ensures.read.bind fun _ _ r hr => ?_
  obtain ⟨rfl, hnodes⟩ := hr
  split
  · next t ht =>
    obtain ⟨types, htypes, hposition⟩ := Option.bind_eq_some_iff.mp ht
    have mem := List.mem_of_getElem? hposition
    exact .pure fun _ le => .singleton ((hnodes types htypes t mem).le le)
  · exact .throw _

theorem Ty.keeps_isWellKnown (t : Ty) (kind : WellKnown) :
    (t.isWellKnown kind).Keeps registry tracked shared := by
  refine Ensures.read_bind ?_
  refine .ite (fun _ => .pure fun _ _ => trivial) fun _ => ?_
  exact (gives_wellKnown kind).attempt.bind fun _ _ _ _ => .pure
    fun _ _ => trivial

/-! ### Names -/

theorem TypeDefinition.keeps_simpleName (d : TypeDefinition) :
    d.simpleName.Keeps registry tracked shared := by
  refine (Ensures.remember ?_).keeps
  exact (ensures_reachModule d.module).bind fun _ _ m _ => .lift
    fun _ _ _ _ => trivial

theorem TypeDefinition.keeps_namespaceText (d : TypeDefinition) :
    d.namespaceText.Keeps registry tracked shared := by
  refine (Ensures.remember ?_).keeps
  exact (ensures_reachModule d.module).bind fun _ _ m _ => .lift
    fun _ _ _ _ => trivial

theorem GenericParameter.keeps_simpleName (p : GenericParameter) :
    p.simpleName.Keeps registry tracked shared := by
  refine (Ensures.remember ?_).keeps
  exact (ensures_reachModule p.module).bind fun _ _ m _ => .lift
    fun _ _ _ _ => trivial

theorem Ty.keeps_simpleName :
    (t : Ty) → t.simpleName.Keeps registry tracked shared
  | .definition d | .applied d _ => d.keeps_simpleName
  | .parameter p => p.keeps_simpleName
  | .var .. => .pure fun _ _ => trivial
  | .shaped _ element =>
    element.keeps_simpleName.bind fun _ _ _ _ => .pure fun _ _ => trivial

theorem Ty.keeps_namespaceText :
    (t : Ty) → t.namespaceText.Keeps registry tracked shared
  | .definition d | .applied d _ => d.keeps_namespaceText
  | .parameter _ | .var .. => .pure fun _ _ => trivial
  | .shaped _ element => element.keeps_namespaceText

theorem Ty.keeps_module? : (t : Ty) → t.module?.Keeps registry tracked shared
  | .definition d | .applied d _ =>
      (ensures_reachModule d.module).bind fun _ _ _ _ => .pure
        fun _ _ => trivial
  | .parameter p =>
    (ensures_reachModule p.module).bind fun _ _ _ _ => .pure fun _ _ => trivial
  | .shaped _ element => element.keeps_module?
  | .var .. => .pure fun _ _ => trivial

/-! ### Following tokens -/

/-- Wherever the tokens of a module lead is a node. -/
def Resolver.GivesNodes (registry : Registry) (tracked : Bool)
    (shared : Ty → Prop) (resolve : Resolver) : Prop :=
  ∀ m ∈ registry.modules, ∀ token,
    (resolve m token).Gives registry tracked shared Option.toList

theorem Resolver.GivesNodes.le {resolve : Resolver} {shared' : Ty → Prop}
    (h : resolve.GivesNodes registry tracked shared)
    (le : ∀ t, shared t → shared' t) :
    resolve.GivesNodes registry tracked shared' :=
  fun m hm token => (h m hm token).le le

section
variable {resolve : Resolver}

theorem TypeDefinition.gives_containingWith
    (hresolve : resolve.GivesNodes registry tracked shared)
    (d : TypeDefinition) :
    (d.containingWith resolve).Gives registry tracked shared
      Option.toList := by
  refine .ite (fun _ => .pure fun _ _ => .nil) fun _ => ?_
  refine (ensures_reachModule d.module).bind fun _ le m hm => ?_
  split
  · next enclosing _ =>
    refine keeps_requireTypeSystem.bind fun _ le' _ _ => Ensures.read_bind ?_
    have follow := (hresolve.le le).le le' m hm.1 enclosing
    exact .ite (fun _ => follow) fun _ => (Ensures.throw _).bind
      fun _ _ _ h => h
  · exact .throw _

mutual

theorem Ty.keeps_fullNameFrom {nameOf : TypeDefinition → Query String}
    (names : ∀ d, (nameOf d).Keeps registry tracked shared) :
    (t : Ty) → (t.fullNameFrom nameOf).Keeps registry tracked shared
  | .definition d => names d
  | .applied d arguments => by
    refine (Ty.keeps_fullNamesFrom names arguments).bind fun _ le _ _ => ?_
    exact ((names d).le le).bind fun _ _ _ _ => .pure fun _ _ => trivial
  | .parameter p => p.keeps_simpleName
  | .var .. => .pure fun _ _ => trivial
  | .shaped _ element =>
    (Ty.keeps_fullNameFrom names element).bind fun _ _ _ _ => .pure
      fun _ _ => trivial

theorem Ty.keeps_fullNamesFrom {nameOf : TypeDefinition → Query String}
    (names : ∀ d, (nameOf d).Keeps registry tracked shared) :
    (types : List Ty) → (Ty.fullNamesFrom nameOf types).Keeps registry
      tracked shared
  | [] => .pure fun _ _ => trivial
  | t :: rest => by
    refine (Ty.keeps_fullNameFrom names t).bind fun _ le _ _ => ?_
    refine ((Ty.keeps_fullNamesFrom names rest).le le).bind fun _ _ _ _ => ?_
    exact .pure fun _ _ => trivial

end

theorem TypeDefinition.keeps_fullNameWithin
    (hresolve : resolve.GivesNodes registry tracked shared) (room : Nat)
    (d : TypeDefinition) :
    (d.fullNameWithin resolve room).Keeps registry tracked shared := by
  induction room generalizing d shared with
  | zero => exact .throw _
  | succ room ih =>
    refine d.keeps_simpleName.bind fun _ le _ _ => ?_
    refine (d.gives_containingWith (hresolve.le le)).bind
      fun _ le' outer _ => ?_
    cases outer with
    | some outer =>
      have names := outer.keeps_fullNameFrom (ih ((hresolve.le le).le le'))
      exact names.bind fun _ _ _ _ => .pure fun _ _ => trivial
    | none =>
      exact d.keeps_namespaceText.bind fun _ _ _ _ => .pure fun _ _ => trivial

theorem Ty.keeps_fullNameWith
    (hresolve : resolve.GivesNodes registry tracked shared) (t : Ty) :
    (t.fullNameWith resolve).Keeps registry tracked shared :=
  Ensures.read_bind
    (t.keeps_fullNameFrom (TypeDefinition.keeps_fullNameWithin hresolve _))

theorem Ty.keeps_displayWith
    (hresolve : resolve.GivesNodes registry tracked shared) (t : Ty) :
    (t.displayWith resolve).Keeps registry tracked shared :=
  (t.keeps_fullNameWith hresolve).attempt.bind fun _ _ _ _ => .pure
    fun _ _ => trivial

end

/-! ### Parameters -/

theorem Module.ensures_genericParameter {m : Module} (hm : m ∈ registry.modules)
    (token : Token) :
    (liftM (m.genericParameter token) : Query Ty).Ensures registry
      tracked shared
      fun _ t => (m.image.genericParam? token).isSome ∧
        ∃ p, t = .parameter p ∧ p.IsDeclared registry.modules := by
  refine Ensures.of_proper fun proper => .lift fun t ht _ _ => ?_
  rw [Module.genericParameter] at ht
  split at ht
  · next row hrow =>
    cases ht
    refine ⟨by simp [hrow], _, rfl, m, hm, row, ?_, rfl⟩
    show m.image.genericParam? row.token = some row
    rw [(proper.rows m hm).genericParam hrow, hrow]
  · cases ht

/-- A token of a generic parameter leads to a node, and has a row. -/
theorem Module.ensures_parameter {m : Module} (hm : m ∈ registry.modules)
    (token : Token) :
    (m.parameter token).Ensures registry tracked shared fun shared t =>
      (m.image.genericParam? token).isSome ∧
      t.IsNode registry.modules shared := by
  refine (Module.ensures_genericParameter hm token).bind fun _ _ t ht => ?_
  obtain ⟨found, p, rfl, declared⟩ := ht
  exact (Ensures.share fun _ _ hshared => .parameter declared hshared).imp
    fun _ _ hu =>
    ⟨found, hu.2⟩

/-- What a token of a generic parameter leads to is a node. -/
theorem Module.gives_parameter {m : Module} (hm : m ∈ registry.modules)
    (token : Token) :
    (m.parameter token).Gives registry tracked shared fun t => [t] :=
  (Module.ensures_parameter hm token).imp fun _ _ h => .singleton h.2

theorem Module.ensures_parameters {m : Module} (hm : m ∈ registry.modules)
    (tokens : List Token) :
    (m.parameters tokens).Ensures registry tracked shared
      fun shared ts => AreNodes registry.modules shared ts ∧
        ts.length = tokens.length ∧
        ∀ token ∈ tokens, (m.image.genericParam? token).isSome := by
  induction tokens generalizing shared with
  | nil => exact .pure fun _ _ => ⟨.nil, rfl, nofun⟩
  | cons token rest ih =>
    refine (Module.ensures_parameter hm token).bind fun _ _ first hfirst => ?_
    refine ih.bind fun _ le others hothers => .pure fun _ le' => ?_
    refine ⟨.cons ?_ (hothers.1.le le'), by simp [hothers.2.1],
      List.forall_mem_cons.mpr ⟨hfirst.1, hothers.2.2⟩⟩
    exact (hfirst.2.le le).le le'

/-- A definition has the parameters that its module declares. -/
theorem TypeDefinition.ensures_parameters (d : TypeDefinition) :
    d.parameters.Ensures registry tracked shared fun shared ts =>
      AreNodes registry.modules shared ts ∧
      d.HasParameters registry.modules ts.length := by
  refine Ensures.imp (Ensures.remember ?_) fun _ ts h => ⟨h.1, h.2 d rfl⟩
  refine (ensures_reachModule d.module).bind fun _ _ m hm => ?_
  refine (Module.ensures_parameters hm.1 _).imp fun _ ts hts => ⟨hts.1, ?_⟩
  rintro _ ⟨⟩
  exact ⟨m, hm.1, hm.2, hts.2.1.symm, hts.2.2⟩

theorem Ty.gives_instantiation : {t : Ty} → t.IsNode registry.modules shared →
    t.instantiation.Gives registry tracked shared id
  | .definition d, _ => d.ensures_parameters.imp fun _ _ h => h.1
  | .applied .., .applied _ hs _ _ _ => .pure fun _ le => AreNodes.le hs le
  | .parameter _, _ | .var .., _ | .shaped .., _ => .pure fun _ _ => .nil

theorem Ty.keeps_isGenericDefinition : (t : Ty) →
    t.isGenericDefinition.Keeps registry tracked shared
  | .definition d =>
    d.ensures_parameters.bind fun _ _ _ _ => .pure fun _ _ => trivial
  | .applied .. | .parameter _ | .var .. | .shaped .. =>
    .pure fun _ _ => trivial

/-! ### Types from types -/

theorem gives_variableOf (index : UInt32) (isMethod : Bool) :
    (variableOf index isMethod).Gives registry tracked shared fun t => [t] :=
  (Ensures.share fun _ _ hshared => .var hshared).imp
    fun _ _ h => .singleton h.2

theorem gives_shared_shape {shape : Shape} {element : Ty}
    (helement : element.IsNode registry.modules shared)
    (allowed : shape.IsAllowed) :
    (Query.share (.shaped shape element)).Gives registry tracked shared
      fun t => [t] := by
  refine Ensures.imp (Ensures.share fun _ le hshared => ?_)
    fun _ _ h => .singleton h.2
  exact .shaped (helement.le le) allowed hshared

theorem gives_shapeOf (shape : Shape) {element : Ty}
    (helement : element.IsNode registry.modules shared) :
    (shapeOf shape element).Gives registry tracked shared fun t => [t] := by
  cases shape with
  | array rank =>
    refine .ite (fun _ => .throw _) fun hrank => gives_shared_shape helement ?_
    obtain ⟨hzero, hmax⟩ := not_or.mp hrank
    have positive : rank.toNat ≠ 0 := fun h => hzero (UInt32.toNat_inj.mp h)
    exact ⟨UInt32.le_iff_toNat_le.mpr (Nat.pos_of_ne_zero positive),
      UInt32.not_lt.mp hmax⟩
  | vector => exact gives_shared_shape helement trivial
  | byRef => exact gives_shared_shape helement trivial
  | pointer => exact gives_shared_shape helement trivial

section
variable {resolve : Resolver} {types methods : List Ty}

/-- What a definition with parameters is applied to is a node if the arguments
are. -/
theorem ensures_instantiateWith
    (hresolve : resolve.GivesNodes registry tracked shared) {definition : Ty}
    (hdefinition : definition.IsNode registry.modules shared)
    {arguments : List Ty}
    (harguments : AreNodes registry.modules shared arguments) :
    (instantiateWith resolve definition arguments).Ensures registry
      tracked shared
      fun shared t => t.IsNode registry.modules shared ∧
        t.canBeBase = true := by
  cases definition with
  | definition d =>
    refine d.ensures_parameters.bind fun _ le own hown => ?_
    refine .ite (fun _ => ?_) fun hcount => ?_
    · -- Another number of arguments is refused.
      exact (Ty.keeps_displayWith (hresolve.le le) _).bind
        fun _ _ _ _ => .throw _
    · -- There are as many arguments as parameters, and at least one.
      obtain ⟨hzero, hlength⟩ := not_or.mp hcount
      rw [not_not] at hlength
      have parameters := hlength ▸ hown.2
      refine Ensures.imp (Ensures.share fun _ le' hshared => ?_)
        fun _ _ h => ⟨h.2, h.1 ▸ rfl⟩
      exact .applied ((hdefinition.le le).le le') ((harguments.le le).le le')
        (Nat.pos_of_ne_zero (hlength ▸ hzero)) parameters hshared
  | _ => exact (Ty.keeps_displayWith hresolve _).bind fun _ _ _ _ => .throw _

theorem gives_instantiateWith
    (hresolve : resolve.GivesNodes registry tracked shared) {definition : Ty}
    (hdefinition : definition.IsNode registry.modules shared)
    {arguments : List Ty}
    (harguments : AreNodes registry.modules shared arguments) :
    (instantiateWith resolve definition arguments).Gives registry tracked shared
      fun t => [t] :=
  (ensures_instantiateWith hresolve hdefinition harguments).imp
    fun _ _ h => .singleton h.1

mutual

/-- Nodes in place of variables make a node. -/
theorem Ty.gives_substituteWith
    (hresolve : resolve.GivesNodes registry tracked shared)
    (htypes : AreNodes registry.modules shared types)
    (hmethods : AreNodes registry.modules shared methods) :
    (t : Ty) → t.IsNode registry.modules shared →
      (t.substituteWith resolve types methods).Gives registry tracked shared
        fun t => [t]
  | .var index isMethod, h => by
    refine .pure fun _ le => .singleton (Ty.IsNode.le ?_ le)
    have hchosen : AreNodes registry.modules shared
        (if isMethod then methods else types) := by
      split
      exacts [hmethods, htypes]
    -- An index beyond the list leaves the variable as it is.
    cases hget : (if isMethod then methods else types)[index.toNat]? with
    | none => exact h
    | some t => exact hchosen t (List.mem_of_getElem? hget)
  | .applied d arguments, h => by
    have ⟨hd, harguments⟩ : Ty.IsNode registry.modules shared (.definition d) ∧
        AreNodes registry.modules shared arguments := by
      cases h with | applied hd hs => exact ⟨hd, hs⟩
    refine (Ty.gives_substituteEachWith hresolve htypes hmethods arguments
      harguments).bind
      fun _ le replaced hreplaced => ?_
    -- If nothing was replaced, the type itself is answered.
    refine .ite (fun _ => .pure fun _ le' => .singleton ((h.le le).le le'))
      fun _ => ?_
    refine keeps_requireTypeSystem.bind fun _ le' _ _ => ?_
    exact gives_instantiateWith ((hresolve.le le).le le') ((hd.le le).le le')
      (hreplaced.le le')
  | .shaped shape element, h => by
    have helement : element.IsNode registry.modules shared := by
      cases h with | shaped helement => exact helement
    refine (Ty.gives_substituteWith hresolve htypes hmethods element
      helement).bind
      fun _ le replaced hreplaced => ?_
    -- If nothing was replaced, the type itself is answered.
    refine .ite (fun _ => .pure fun _ le' => .singleton ((h.le le).le le'))
      fun _ => ?_
    refine keeps_requireTypeSystem.bind fun _ le' _ _ => ?_
    exact gives_shapeOf shape (hreplaced.head.le le')
  | .definition _, h | .parameter _, h => .pure fun _ le => .singleton (h.le le)

theorem Ty.gives_substituteEachWith
    (hresolve : resolve.GivesNodes registry tracked shared)
    (htypes : AreNodes registry.modules shared types)
    (hmethods : AreNodes registry.modules shared methods) :
    (ts : List Ty) → AreNodes registry.modules shared ts →
      (Ty.substituteEachWith resolve types methods ts).Gives registry
        tracked shared id
  | [], _ => .pure fun _ _ => .nil
  | t :: rest, h => by
    refine (Ty.gives_substituteWith hresolve htypes hmethods t h.head).bind
      fun _ le first hfirst => ?_
    have others := Ty.gives_substituteEachWith hresolve htypes
      hmethods rest h.tail
    refine (others.le le).bind fun _ le' _ hrest => .pure fun _ le'' => ?_
    exact .cons ((hfirst.head.le le').le le'') (AreNodes.le hrest le'')

end

/-- What can be a base still can where variables are replaced. -/
theorem Ty.ensures_substituteWith
    (hresolve : resolve.GivesNodes registry tracked shared)
    (htypes : AreNodes registry.modules shared types)
    (hmethods : AreNodes registry.modules shared methods) {t : Ty}
    (ht : t.IsNode registry.modules shared) (suits : t.canBeBase = true) :
    (t.substituteWith resolve types methods).Ensures registry tracked shared
      fun shared u => u.IsNode registry.modules shared ∧
        u.canBeBase = true := by
  refine ((Ty.gives_substituteWith hresolve htypes hmethods t ht).imp
    fun _ _ h => h.head).and ?_
  cases ht with
  | definition => exact .pure fun _ _ => rfl
  | applied hd harguments =>
    refine (Ty.gives_substituteEachWith hresolve htypes hmethods _
      harguments).bind
      fun _ le replaced hreplaced => .ite (fun _ => .pure fun _ _ => rfl)
        fun _ => ?_
    refine keeps_requireTypeSystem.bind fun _ le' _ _ => ?_
    exact (ensures_instantiateWith ((hresolve.le le).le le') ((hd.le le).le le')
      (hreplaced.le le')).imp fun _ _ h => h.2
  -- No other type can be a base.
  | parameter | var | shaped => cases suits

end

/-! ### Names, signatures and rows that lead to types -/

section
variable {resolve : Resolver} {m : Module}

theorem Module.gives_typeNamedWith
    (hresolve : resolve.GivesNodes registry tracked shared)
    (hm : m ∈ registry.modules) (namespaceName name : String) :
    (m.typeNamedWith resolve namespaceName name).Gives registry tracked shared
      Option.toList := by
  refine Ensures.lift_bind fun _ => ?_
  split
  · exact hresolve m hm _
  · exact .pure fun _ _ => .nil

theorem Module.gives_nestedNamedWith
    (hresolve : resolve.GivesNodes registry tracked shared)
    (hm : m ∈ registry.modules) (name : String) (tokens : List Token) :
    (m.nestedNamedWith resolve name tokens).Gives registry tracked shared
      Option.toList := by
  induction tokens generalizing shared with
  | nil => exact .pure fun _ _ => .nil
  | cons token rest ih =>
    rw [Module.nestedNamedWith]
    split
    · refine Ensures.lift_bind fun _ => Ensures.lift_bind fun _ => ?_
      exact .ite (fun _ => hresolve m hm token) fun _ => ih hresolve
    · exact .throw _

theorem Ty.gives_nestedTypeWith
    (hresolve : resolve.GivesNodes registry tracked shared) (t : Ty)
    (name : String) :
    (t.nestedTypeWith resolve name).Gives registry tracked shared
      Option.toList := by
  rw [Ty.nestedTypeWith]
  split
  · next d _ =>
    refine (ensures_reachModule d.module).bind fun _ le m hm => ?_
    refine Ensures.lift_bind fun _ => ?_
    exact Module.gives_nestedNamedWith (hresolve.le le) hm.1 name _
  · exact .pure fun _ _ => .nil

theorem Module.gives_requiredTypeWith
    (hresolve : resolve.GivesNodes registry tracked shared)
    (hm : m ∈ registry.modules) (token : Token) :
    (m.requiredTypeWith resolve token).Gives registry tracked shared
      fun t => [t] := by
  refine (hresolve m hm token).bind fun _ _ found hfound => ?_
  cases found with
  | some t => exact .pure fun _ le => hfound.le le
  | none =>
    dsimp only
    split
    · exact Ensures.lift_bind fun _ => Ensures.lift_bind fun _ => .throw _
    · exact .throw _

mutual

/-- What a signature spells is a node. -/
theorem TypeSig.gives_resolveWith
    (hresolve : resolve.GivesNodes registry tracked shared)
    (hm : m ∈ registry.modules) (signature : TypeSig) :
    (signature.resolveWith resolve m).Gives registry tracked shared
      fun t => [t] := by
  rw [TypeSig.resolveWith.eq_def]
  refine keeps_requireTypeSystem.bind fun _ le _ _ => ?_
  match signature with
  | .primitive kind => exact gives_wellKnown kind.wellKnown
  | .valueType token | .referenceType token =>
    exact Module.gives_requiredTypeWith (hresolve.le le) hm token
  | .typeVar index => exact gives_variableOf index false
  | .methodVar index => exact gives_variableOf index true
  | .pinned inner => exact (TypeSig.gives_resolveWith hresolve hm inner).le le
  | .pointer _ inner | .byRef inner | .vector _ inner | .array inner _ _ _ =>
    have hinner := (TypeSig.gives_resolveWith hresolve hm inner).le le
    exact hinner.bind fun _ _ _ h => gives_shapeOf _ h.head
  | .generic definition arguments =>
    have hdefinition := (TypeSig.gives_resolveWith hresolve hm definition).le le
    have harguments :=
      (TypeSig.gives_resolveEachWith hresolve hm arguments).le le
    refine hdefinition.bind fun _ le' d hd => ?_
    refine (harguments.le le').bind fun _ le'' ts hts => ?_
    exact gives_instantiateWith (((hresolve.le le).le le').le le'')
      (hd.head.le le'') hts
  | .function _ => exact .throw _

theorem TypeSig.gives_resolveEachWith
    (hresolve : resolve.GivesNodes registry tracked shared)
    (hm : m ∈ registry.modules) (signatures : List TypeSig) :
    (TypeSig.resolveEachWith resolve m signatures).Gives registry tracked
      shared id := by
  match signatures with
  | [] => exact .pure fun _ _ => .nil
  | signature :: rest =>
    refine (TypeSig.gives_resolveWith hresolve hm signature).bind
      fun _ le first hfirst => ?_
    have others := TypeSig.gives_resolveEachWith hresolve hm rest
    refine (others.le le).bind fun _ le' _ hrest => ?_
    exact .pure fun _ le'' => .cons ((hfirst.head.le le').le le'')
      (AreNodes.le hrest le'')

end

theorem Module.gives_referencedTypeWith
    (hresolve : resolve.GivesNodes registry tracked shared)
    (hm : m ∈ registry.modules) (token : Token) :
    (m.referencedTypeWith resolve token).Gives registry tracked shared
      Option.toList := by
  rw [Module.referencedTypeWith]
  split
  · next row _ =>
    refine Ensures.lift_bind fun _ => Ensures.lift_bind fun _ => ?_
    split
    · split
      · -- In another assembly, if its module is there.
        refine Ensures.lift_bind fun _ => ?_
        refine keeps_requireTypeSystem.bind fun _ le _ _ => Ensures.read_bind ?_
        split
        · next hother =>
          exact Module.gives_typeNamedWith (hresolve.le le)
            (Registry.mem_of_module? hother).1 _ _
        · exact .pure fun _ _ => .nil
      · exact .throw _
    · -- In the module itself.
      exact Module.gives_typeNamedWith hresolve hm _ _
    · -- Inside another type.
      refine (hresolve m hm row.scope).bind fun _ le enclosing _ => ?_
      cases enclosing with
      | some enclosing =>
        exact enclosing.gives_nestedTypeWith (hresolve.le le) _
      | none => exact .pure fun _ _ => .nil
    · exact .throw _
    · exact .throw _
  · exact .throw _

theorem Module.gives_specifiedTypeWith
    (hresolve : resolve.GivesNodes registry tracked shared)
    (hm : m ∈ registry.modules) (token : Token) :
    (m.specifiedTypeWith resolve token).Gives registry tracked shared
      fun t => [t] := by
  rw [Module.specifiedTypeWith]
  split
  · refine Ensures.lift_bind fun _ => Ensures.read_bind
      (Ensures.lift_bind fun _ => ?_)
    exact TypeSig.gives_resolveWith hresolve hm _
  · exact .throw _

theorem Module.ensures_definition (hm : m ∈ registry.modules) (token : Token) :
    (liftM (m.definition token) : Query TypeDefinition).Ensures registry
      tracked shared
      fun _ d => d.IsDeclared registry.modules := by
  refine Ensures.of_proper fun proper => .lift fun d hd _ _ => ?_
  rw [Module.definition] at hd
  split at hd
  · next row hrow =>
    cases hd
    refine ⟨m, hm, row, ?_, rfl⟩
    show m.image.typeDef? row.token = some row
    rw [(proper.rows m hm).typeDef hrow, hrow]
  · cases hd

theorem gives_shared_definition {d : TypeDefinition}
    (hd : d.IsDeclared registry.modules) :
    (Query.share (.definition d)).Gives registry tracked shared fun t => [t] :=
  (Ensures.share fun _ _ hshared => .definition hd hshared).imp
    fun _ _ hu => .singleton hu.2

/-- What a token leads to is a node if this is so of further tokens. -/
theorem Module.gives_typeWith
    (hresolve : resolve.GivesNodes registry tracked shared)
    (hm : m ∈ registry.modules) (token : Token) :
    (m.typeWith resolve token).Gives registry tracked shared Option.toList := by
  rw [Module.typeWith]
  split
  · refine (Module.ensures_definition hm token).bind fun _ _ d hd => ?_
    refine (gives_shared_definition hd).bind fun _ _ t ht => ?_
    exact .pure fun _ le => ht.le le
  · exact Module.gives_referencedTypeWith hresolve hm token
  · refine (Module.gives_specifiedTypeWith hresolve hm token).bind
      fun _ _ t ht => ?_
    exact .pure fun _ le => ht.le le
  · exact .throw _

/-- A token of a definition leads to the definition of its row, if it has
one. -/
theorem Module.typeWith_of_isIn {m : Module} {token : Token}
    (isIn : token.isIn .typeDef) (resolve : Resolver) (registry : Registry)
    (memory : Memory) :
    (m.typeWith resolve token registry memory).1
      = (m.definition token).map fun d => some (.definition d) := by
  rw [Module.typeWith, Token.kind?_of_isIn isIn]
  cases m.definition token with
  | error error => rfl
  | ok d =>
    show ((do return some (← share (.definition d)) : Query (Option Ty))
        registry memory).1 = _
    rw [bind_apply_ok (share_eq (.definition d) registry memory)]
    rfl

/-- What a token leads to may be remembered. -/
theorem Module.ensures_typeWith
    (hresolve : resolve.GivesNodes registry tracked shared)
    (hm : m ∈ registry.modules) (token : Token) :
    (m.typeWith resolve token).Ensures registry tracked shared
      ((Fact.resolved m.name token).Holds registry.modules) := by
  intro memory faithful hshared
  obtain ⟨grows, kept, nodes⟩ :=
    Module.gives_typeWith hresolve hm token memory faithful hshared
  refine ⟨grows, kept, fun found answer => ⟨nodes found answer,
    fun isIn t ht => ?_⟩⟩
  -- A token of a definition is resolved to the definition at its row.
  rw [Module.typeWith_of_isIn isIn, Module.definition] at answer
  cases hrow : m.image.typeDef? token with
  | none =>
    rw [hrow] at answer
    cases answer
  | some row =>
    rw [hrow] at answer
    cases answer
    cases ht
    exact ⟨m.definitionOfRow row, rfl, rfl,
      (faithful.proper.rows m hm).typeDef hrow⟩

end

/-- What a token leads to is as it may be remembered, however many steps may be
taken. -/
theorem Module.ensures_typeWithin (room : Nat) {m : Module}
    (hm : m ∈ registry.modules) (token : Token) :
    (Module.typeWithin room m token).Ensures registry tracked shared
      ((Fact.resolved m.name token).Holds registry.modules) := by
  have nothing {shared : Ty → Prop} {m : Module} {token : Token} :
      (pure none : Query (Option Ty)).Ensures registry tracked shared
        ((Fact.resolved m.name token).Holds registry.modules) :=
    .pure fun _ _ => ⟨.nil, fun _ t ht => absurd ht (Option.not_mem_none t)⟩
  induction room generalizing shared m token with
  | zero => exact .ite (fun _ => nothing) fun _ => .throw _
  | succ room ih =>
    have further : (Module.typeWithin room).GivesNodes registry
        tracked shared :=
      fun _ hn other => (ih hn other).imp fun _ _ h => h.1
    refine .ite (fun _ => nothing) fun _ => ?_
    exact Ensures.rememberIf (Module.ensures_typeWith further hm token)

/-- The way from tokens to types gives nodes, however many steps it may take. -/
theorem givesNodes_typeWithin (room : Nat) :
    (Module.typeWithin room).GivesNodes registry tracked shared :=
  fun _ hm token => (Module.ensures_typeWithin room hm token).imp
    fun _ _ h => h.1

theorem givesNodes_type :
    Resolver.GivesNodes registry tracked shared Module.type :=
  fun m hm token => Ensures.read_bind (givesNodes_typeWithin _ m hm token)

/-! ### What follows any token -/

section
variable {m : Module}

theorem Module.gives_typeNamed (hm : m ∈ registry.modules)
    (namespaceName name : String) :
    (m.typeNamed namespaceName name).Gives registry tracked shared
      Option.toList :=
  Module.gives_typeNamedWith givesNodes_type hm namespaceName name

theorem Module.gives_requiredType (hm : m ∈ registry.modules) (token : Token) :
    (m.requiredType token).Gives registry tracked shared fun t => [t] :=
  Module.gives_requiredTypeWith givesNodes_type hm token

theorem Module.gives_resolve (hm : m ∈ registry.modules) (signature : TypeSig) :
    (m.resolve signature).Gives registry tracked shared fun t => [t] :=
  TypeSig.gives_resolveWith givesNodes_type hm signature

theorem Ty.gives_nestedType (t : Ty) (name : String) :
    (t.nestedType name).Gives registry tracked shared Option.toList :=
  t.gives_nestedTypeWith givesNodes_type name

theorem TypeDefinition.gives_containing (d : TypeDefinition) :
    d.containing.Gives registry tracked shared Option.toList :=
  d.gives_containingWith givesNodes_type

theorem Ty.gives_containing (t : Ty) :
    t.containing.Gives registry tracked shared
    Option.toList := by
  rw [Ty.containing]
  split
  · next d _ => exact d.gives_containing
  · exact .pure fun _ _ => .nil

theorem Ty.keeps_fullName (t : Ty) : t.fullName.Keeps registry tracked shared :=
  t.keeps_fullNameWith givesNodes_type

theorem Ty.keeps_display (t : Ty) : t.display.Keeps registry tracked shared :=
  t.keeps_displayWith givesNodes_type

theorem gives_instantiate {definition : Ty} {arguments : List Ty}
    (hdefinition : definition.IsNode registry.modules shared)
    (harguments : AreNodes registry.modules shared arguments) :
    (instantiate definition arguments).Gives registry tracked shared
      fun t => [t] :=
  gives_instantiateWith givesNodes_type hdefinition harguments

theorem Ty.gives_substituted {t : Ty} {types methods : List Ty}
    (ht : t.IsNode registry.modules shared)
    (htypes : AreNodes registry.modules shared types)
    (hmethods : AreNodes registry.modules shared methods) :
    (t.substituted types methods).Gives registry tracked shared fun t => [t] :=
  Ty.gives_substituteWith givesNodes_type htypes hmethods t ht

theorem Ty.ensures_substituted {t : Ty} {types methods : List Ty}
    (ht : t.IsNode registry.modules shared)
    (htypes : AreNodes registry.modules shared types)
    (hmethods : AreNodes registry.modules shared methods)
    (suits : t.canBeBase = true) :
    (t.substituted types methods).Ensures registry tracked shared
      fun shared u => u.IsNode registry.modules shared ∧ u.canBeBase = true :=
  Ty.ensures_substituteWith givesNodes_type htypes hmethods ht suits

end

/-! ### Hashes -/

mutual

theorem Ty.keeps_hashFrom {hashOf : TypeDefinition → Query UInt32}
    (hashes : ∀ d, (hashOf d).Keeps registry tracked shared) :
    (t : Ty) → (t.hashFrom hashOf).Keeps registry tracked shared
  | .definition d => hashes d
  | .applied d arguments => by
    refine (Ensures.rememberIf ?_).keeps
    refine (hashes d).bind fun _ le _ _ => ?_
    exact ((Ty.keeps_hashesFrom hashes arguments).le le).bind fun _ _ _ _ =>
      .pure fun _ _ => trivial
  | .parameter p => by
    refine (Ensures.rememberIf ?_).keeps
    exact p.keeps_simpleName.bind fun _ _ _ _ => .pure fun _ _ => trivial
  | .var .. => .pure fun _ _ => trivial
  | .shaped shape element => by
    refine (Ensures.rememberIf ?_).keeps
    refine (Ty.keeps_hashFrom hashes element).bind fun _ _ _ _ => ?_
    cases shape with
    | _ => exact .pure fun _ _ => trivial

theorem Ty.keeps_hashesFrom {hashOf : TypeDefinition → Query UInt32}
    (hashes : ∀ d, (hashOf d).Keeps registry tracked shared) :
    (types : List Ty) → (Ty.hashesFrom hashOf types).Keeps registry
      tracked shared
  | [] => .pure fun _ _ => trivial
  | t :: rest => by
    refine (Ty.keeps_hashFrom hashes t).bind fun _ le _ _ => ?_
    refine ((Ty.keeps_hashesFrom hashes rest).le le).bind fun _ _ _ _ => ?_
    exact .pure fun _ _ => trivial

end

theorem TypeDefinition.keeps_hashWithin (room : Nat) (d : TypeDefinition) :
    (d.hashWithin room).Keeps registry tracked shared := by
  induction room generalizing d shared with
  | zero => exact .throw _
  | succ room ih =>
    refine (Ensures.rememberIf ?_).keeps
    refine d.keeps_simpleName.bind fun _ _ _ _ => ?_
    refine d.gives_containing.bind fun _ _ outer _ => ?_
    cases outer with
    | some outer =>
      exact (outer.keeps_hashFrom ih).bind fun _ _ _ _ => .pure
        fun _ _ => trivial
    | none =>
      exact d.keeps_namespaceText.bind fun _ _ _ _ => .pure fun _ _ => trivial

theorem Ty.keeps_hash (t : Ty) : t.hash.Keeps registry tracked shared :=
  Ensures.read_bind (t.keeps_hashFrom (TypeDefinition.keeps_hashWithin _))

/-! ### Bases -/

theorem TypeDefinition.keeps_subject (d : TypeDefinition)
    (moduleName : String) :
    (d.subject moduleName).Keeps registry tracked shared := by
  refine d.keeps_namespaceText.attempt.bind fun _ _ _ _ => ?_
  exact d.keeps_simpleName.attempt.bind fun _ _ _ _ => .pure fun _ _ => trivial

theorem Ty.keeps_subject (t : Ty) :
    t.subject.Keeps registry tracked shared := by
  refine t.keeps_module?.attempt.bind fun _ _ _ _ => ?_
  refine t.keeps_namespaceText.attempt.bind fun _ _ _ _ => ?_
  exact t.keeps_simpleName.attempt.bind fun _ _ _ _ => .pure fun _ _ => trivial

theorem TypeDefinition.ensures_openBase (d : TypeDefinition) :
    d.openBase.Ensures registry tracked shared fun shared base =>
      AreNodes registry.modules shared base.toList ∧ d.AllowsBase base := by
  refine .ite (fun null => .pure
    fun _ _ => ⟨.nil, ⟨fun _ => null, fun _ => rfl⟩, nofun⟩) fun named => ?_
  refine (ensures_reachModule d.module).bind fun _ _ m hm => ?_
  refine (givesNodes_type m hm.1 d.base).attempt.bind fun _ _ found hfound => ?_
  rcases found with cause | _ | base
  · refine .ite (fun _ => .throw _) fun _ => ?_
    exact (d.keeps_subject m.name).bind fun _ _ _ _ => .throw _
  · exact (d.keeps_subject m.name).bind fun _ _ _ _ => .throw _
  · refine .ite (fun suits => .pure fun _ le => ⟨(hfound _ rfl).le le, ?_⟩)
      fun _ => ?_
    · exact ⟨⟨nofun, fun null => absurd null named⟩, by simpa using suits⟩
    · refine base.keeps_display.bind fun _ _ _ _ => ?_
      exact (d.keeps_subject m.name).bind fun _ _ _ _ => .throw _

theorem TypeDefinition.gives_openBase (d : TypeDefinition) :
    d.openBase.Gives registry tracked shared Option.toList :=
  d.ensures_openBase.imp fun _ _ h => h.1

/-- A definition has a base exactly if its row names one, and this is a
definition or applies one. -/
theorem TypeDefinition.ensures_baseType (d : TypeDefinition) :
    d.baseType.Ensures registry tracked shared fun shared base =>
      AreNodes registry.modules shared base.toList ∧ d.AllowsBase base := by
  refine Ensures.imp (Ensures.remember ?_) fun _ base h => ⟨h.1, h.2 d rfl⟩
  suffices found : Ensures registry tracked shared _ fun shared base =>
      AreNodes registry.modules shared base.toList ∧ d.AllowsBase base from
    found.imp fun _ base h => ⟨h.1, fun e same => by cases same; exact h.2⟩
  refine d.ensures_openBase.bind fun _ _ base ⟨hbase, allowed⟩ => ?_
  cases base with
  | none => exact .pure fun _ _ => ⟨.nil, allowed⟩
  | some base =>
    refine .ite (fun _ => ?_) fun _ => .pure fun _ le => ⟨hbase.le le, allowed⟩
    -- The variables of a generic base stand for the parameters of the type.
    refine d.ensures_parameters.bind fun _ le own hown => ?_
    refine (Ty.ensures_substituted (hbase.head.le le) hown.1 .nil
      (allowed.2 base rfl)).bind
      fun _ _ t ht => .pure fun _ le => ⟨.singleton (ht.1.le le),
        ⟨nofun, fun null => ?_⟩, ?_⟩
    · cases allowed.1.mpr null
    · rintro _ ⟨⟩
      exact ht.2

theorem TypeDefinition.gives_baseType (d : TypeDefinition) :
    d.baseType.Gives registry tracked shared Option.toList :=
  d.ensures_baseType.imp fun _ _ h => h.1

/-- The base of a node is a node. -/
theorem Ty.gives_base {t : Ty} (ht : t.IsNode registry.modules shared) :
    t.base.Gives registry tracked shared Option.toList := by
  cases ht with
  | @definition d => exact d.gives_baseType
  | @applied d arguments _ harguments =>
    refine Ensures.imp (Ensures.remember ?_) fun _ _ h => h.1
    refine d.gives_openBase.bind fun _ le base hbase => ?_
    cases base with
    | none => exact .pure fun _ _ => ⟨.nil, nofun⟩
    | some base =>
      refine (Ty.gives_substituted hbase.head
        (AreNodes.le harguments le) .nil).bind
        fun _ _ t ht => ?_
      exact .pure fun _ le => ⟨ht.le le, nofun⟩
  | shaped =>
    -- Of the shapes only arrays have a base.
    refine .ite (fun _ => .pure fun _ _ => .nil) fun _ => ?_
    refine keeps_requireTypeSystem.bind fun _ _ _ _ => ?_
    exact (gives_wellKnown .array).bind fun _ _ _ h => .pure fun _ le => h.le le
  | _ => exact .pure fun _ _ => .nil

theorem Ty.keeps_hasBase {t : Ty} (ht : t.IsNode registry.modules shared) :
    t.hasBase.Keeps registry tracked shared :=
  (Ty.gives_base ht).bind fun _ _ _ _ => .pure fun _ _ => trivial

theorem TypeDefinition.ensures_baseState (d : TypeDefinition) :
    d.baseState.Ensures registry tracked shared fun shared state =>
      ∀ base, state = .resolved base → base.IsNode registry.modules shared := by
  refine (Ensures.established? _).bind fun _ _ known hknown => ?_
  rcases known with _ | _ | base
  · exact .pure nofun
  · exact .pure nofun
  · refine .pure fun _ le => ?_
    rintro _ ⟨⟩
    exact AreNodes.head ((hknown _ rfl).1.le le)

section
variable {α : Type} {types : α → List Ty} {ask : Ty → Query (Option α)}

theorem gives_alongBasesWithin (limit room : Nat)
    (answers : ∀ shared', (∀ t, shared t → shared' t) → ∀ t,
      t.IsNode registry.modules shared' →
      (ask t).Gives registry tracked shared'
        fun answer => answer.toList.flatMap types)
    {t : Option Ty} (ht : AreNodes registry.modules shared t.toList) :
    (alongBasesWithin ask limit room t).Gives registry tracked shared
      fun answer => answer.toList.flatMap types := by
  induction room generalizing shared t with
  | zero =>
    cases t with
    | none => exact .pure fun _ _ => .nil
    | some t => exact .throw _
  | succ room ih =>
    cases t with
    | none => exact .pure fun _ _ => .nil
    | some t =>
      refine (answers _ (fun _ => id) t ht.head).bind
        fun _ le answer hanswer => ?_
      -- The first answer ends the search; a base is a node as the type is.
      cases answer with
      | some answer => exact .pure fun _ le => hanswer.le le
      | none =>
        refine (Ty.gives_base (ht.head.le le)).bind fun _ le' base hbase => ?_
        refine ih (fun shared' le'' => answers shared' fun t ht => ?_) hbase
        exact le'' t (le' t (le t ht))

/-- What is found in a type or its bases is a matter of nodes, if it is one in
each of them. -/
theorem gives_alongBases
    (answers : ∀ shared', (∀ t, shared t → shared' t) → ∀ t,
      t.IsNode registry.modules shared' →
      (ask t).Gives registry tracked shared'
        fun answer => answer.toList.flatMap types)
    {t : Ty} (ht : t.IsNode registry.modules shared) :
    (alongBases ask t).Gives registry tracked shared
      fun answer => answer.toList.flatMap types :=
  Ensures.read_bind (gives_alongBasesWithin _ _ answers (.singleton ht))

end

end CliMetadata
