import CliMetadata.Proofs.TypeSystem.Transfer.Basic

/-!
# Names, parts and tokens from one type system to another

Reading names and parameters, building types and following tokens transfer.  The
ways from tokens to types on the two sides may take different numbers of steps;
on the other side the number only has to grow with patience.  What takes a name,
as messages do, is not said to last where modules may be missing: a nested type
is named like any other while the type around it cannot be found.
-/

namespace CliMetadata

open Filter Query

variable {gap : Gap} {before after : Registry}

/-! ### The type system -/

namespace Registry

theorem LeadsTo.module?_eq_some (leads : before.LeadsTo gap after)
    (proper : after.IsProper) {name : String} {m : Module}
    (h : before.module? name = some m) :
    after.module? name = some m := by
  obtain ⟨hm, rfl⟩ := mem_of_module? h
  exact proper.module?_eq_some (leads.modules m hm)

theorem LeadsTo.module?_eq_none (leads : before.LeadsTo gap after)
    (hgap : gap ≠ .growth) {name : String} (h : before.module? name = none) :
    after.module? name = none := by
  refine List.find?_eq_none.mpr fun m hm => ?_
  exact List.find?_eq_none.mp h m (leads.sameModules hgap m hm)

end Registry

/-- A failure that does not last is followed by anything. -/
theorem Query.Transfers.lost {α : Type} {lasting : Gap → α → Prop}
    {again : Nat → Query α} (hgap : gap ≠ .none) (error : Error) :
    (MonadExcept.throw error : Query α).Transfers gap before after
      lasting again :=
  .of_outcome _ (fun _ => rfl) fun carried => absurd carried.1 hgap

theorem transfers_requireTypeSystem :
    requireTypeSystem.Transfers gap before after always
    fun _ => requireTypeSystem := by
  refine .of_leads fun leads sound => .read_bind (fun _ => rfl) fun _ => ?_
  have live : after.isLive = true := by
    rw [Registry.isLive, sound.live, Option.isNone_none]
  rw [if_pos live]
  by_cases hgap : gap = .release
  · by_cases held : before.isLive = true
    · rw [if_pos held]
      exact .pure _
    · rw [if_neg held]
      exact .lost (by rw [hgap]; exact nofun) _
  · rw [if_pos (by rw [Registry.isLive, leads.live hgap, Option.isNone_none])]
    exact .pure _

theorem transfers_reachModule (name : String) :
    (reachModule name).Transfers gap before after always
    fun _ => reachModule name := by
  refine .of_leads fun leads sound => .read_bind (fun _ => rfl) fun _ => ?_
  cases hm : before.module? name with
  | some m =>
    rw [leads.module?_eq_some sound.proper hm]
    dsimp only
    -- The module is there in both, and whether it is reached depends on the
    -- release.
    rw [if_pos (Registry.reaches_of_live sound.live name)]
    by_cases reached : before.reaches name = true
    · rw [if_pos reached]
      exact .pure m
    · rw [if_neg reached]
      refine .lost (fun hgap => reached ?_) _
      exact Registry.reaches_of_live (leads.live (by rw [hgap]; exact nofun))
        name
  | none =>
    -- Without a gap no module was added.
    by_cases hgap : gap = .none
    · -- A module may have been added since.
      rw [leads.module?_eq_none (by rw [hgap]; exact nofun) hm]
      exact .throw _
    · exact .lost hgap _

theorem tells_reachModule (name : String) :
    (reachModule name).Tells gap before after
    fun m => m ∈ after.modules ∧ m.name = name := by
  refine .read_bind ?_
  cases hm : before.module? name with
  | none => exact (Fails.throw _).tells
  | some m =>
    obtain ⟨mem, named⟩ := Registry.mem_of_module? hm
    refine .ite (fun _ => fun leads => ?_) fun _ => (Fails.throw _).tells
    exact Tells.pure ⟨leads.modules m mem, named⟩ leads

/-- A query at a module that can be reached. -/
theorem transfers_reachModule_bind {α : Type} {lasting : Gap → α → Prop}
    {name : String} {next : Module → Query α} {again : Nat → Module → Query α}
    (h : ∀ m ∈ after.modules, m.name = name →
      (next m).Transfers gap before after lasting fun l => again l m) :
    (reachModule name >>= next).Transfers gap before after lasting
      fun l => reachModule name >>= again l :=
  (transfers_reachModule name).bind_told (tells_reachModule name)
    fun m hm => h m hm.1 hm.2

theorem transfers_wellKnown (kind : WellKnown) :
    (wellKnown kind).Transfers gap before after always
    fun _ => wellKnown kind := by
  refine .of_leads fun leads sound => .read_bind (fun _ => rfl) fun _ => ?_
  cases hknown : before.wellKnown with
  | some types =>
    rw [leads.wellKnown types hknown]
    split
    · exact .pure _
    · exact .throw _
  | none =>
    by_cases hgap : gap = .none
    · rw [leads.sameWellKnown (by rw [hgap]; exact nofun), hknown]
      exact .throw _
    · exact .lost hgap _

/-- That a type is well known lasts; that it is not is also said where nothing
can be known. -/
theorem Ty.transfers_isWellKnown (t : Ty) (kind : WellKnown) :
    (t.isWellKnown kind).Transfers gap before after
      (fun _ answer => answer = true)
      fun _ => t.isWellKnown kind := by
  refine .of_leads fun leads sound => .read_bind (fun _ => rfl) fun _ => ?_
  have live : after.isLive = true := by
    rw [Registry.isLive, sound.live, Option.isNone_none]
  have asked : (wellKnown kind).Transfers gap before after always
      fun _ => wellKnown kind :=
    transfers_wellKnown kind
  -- What counts is whether there was a type system before.
  rw [live]
  by_cases held : before.isLive = true
  · -- There was, and an error in asking for the kind is an answer of no.
    rw [held]
    refine asked.attempt.bind_of .trivial (fun _ _ => .pure _) ?_
    rintro (error | found) _ lost _ _ answer ⟨⟩
    · exact nofun
    · exact absurd ⟨found, rfl, trivial⟩ lost
  · rw [if_pos held]
    -- There was none, so that there is none without a gap.
    refine .of_outcome _ (fun _ => rfl) fun carried => ?_
    have hgap : gap = .none := carried.resolve_right nofun
    rw [Registry.isLive, leads.live (by rw [hgap]; exact nofun)] at held
    exact absurd rfl held

/-! ### Names -/

theorem TypeDefinition.transfers_simpleName (d : TypeDefinition) :
    d.simpleName.Transfers gap before after always fun _ => d.simpleName := by
  refine Transfers.remember (fun _ => rfl) trivial (fun _ => trivial) ?_
  exact transfers_reachModule_bind fun m _ _ => .lift _

theorem TypeDefinition.transfers_namespaceText (d : TypeDefinition) :
    d.namespaceText.Transfers gap before after always
      fun _ => d.namespaceText := by
  refine Transfers.remember (fun _ => rfl) trivial (fun _ => trivial) ?_
  exact transfers_reachModule_bind fun m _ _ => .lift _

theorem GenericParameter.transfers_simpleName (p : GenericParameter) :
    p.simpleName.Transfers gap before after always fun _ => p.simpleName := by
  refine Transfers.remember (fun _ => rfl) trivial (fun _ => trivial) ?_
  exact transfers_reachModule_bind fun m _ _ => .lift _

theorem Ty.transfers_simpleName (t : Ty) :
    t.simpleName.Transfers gap before after always fun _ => t.simpleName := by
  cases t with
  | definition d | applied d _ => exact d.transfers_simpleName
  | parameter p => exact p.transfers_simpleName
  | var => exact .pure _
  | shaped _ element => exact element.transfers_simpleName.bind fun _ => .pure _

theorem Ty.transfers_namespaceText (t : Ty) :
    t.namespaceText.Transfers gap before after always
      fun _ => t.namespaceText := by
  cases t with
  | definition d | applied d _ => exact d.transfers_namespaceText
  | parameter | var => exact .pure _
  | shaped _ element => exact element.transfers_namespaceText

theorem Ty.transfers_module? : (t : Ty) →
    t.module?.Transfers gap before after always fun _ => t.module?
  | .definition d | .applied d _ =>
    (transfers_reachModule d.module).bind fun _ => .pure _
  | .parameter p => (transfers_reachModule p.module).bind fun _ => .pure _
  | .shaped _ element => element.transfers_module?
  | .var .. => .pure _

/-! ### Following tokens -/

/-- Where the tokens of modules lead is found again, on a way that may take more
steps. -/
def Resolver.Transfers (gap : Gap) (before after : Registry)
    (resolve : Resolver) (again : Nat → Resolver) : Prop :=
  ∀ m ∈ after.modules, ∀ token,
    (resolve m token).Transfers gap before after whereFound
      fun l => again l m token

/-- What a query with a result that is found or not does where nothing is
found. -/
theorem not_whereFound {α : Type} {found : Option α}
    (h : ¬ whereFound gap found) :
    gap = .growth ∧ found = none := by
  obtain ⟨hgap, hfound⟩ := Classical.not_imp.mp h
  exact ⟨hgap, Option.not_isSome_iff_eq_none.mp hfound⟩

/-- That nothing is found does not last where modules may be missing. -/
theorem Query.Transfers.nothing {α : Type} {again : Nat → Query (Option α)}
    (hgap : gap = .growth) :
    (Pure.pure none : Query (Option α)).Transfers gap before after
      whereFound again := by
  refine .of_outcome _ (fun _ => rfl) fun carried => ?_
  rcases carried with rfl | carried
  · cases hgap
  · cases carried hgap

/-- Where nothing is found by the first query, nothing is found in the end. -/
theorem Query.Transfers.bind_found {α β : Type} {query : Query (Option α)}
    {again : Nat → Query (Option α)} {next : Option α → Query (Option β)}
    {nextAgain : Nat → Option α → Query (Option β)}
    (first : query.Transfers gap before after whereFound again)
    (second : ∀ a, (next (some a)).Transfers gap before after whereFound
      fun l => nextAgain l (some a))
    (nothing : next none = Pure.pure none)
    (nothingAgain : ∀ l, nextAgain l none = Pure.pure none) :
    (query >>= next).Transfers gap before after whereFound fun l => again l >>=
      nextAgain l := by
  refine first.bind_of .trivial (fun found _ => ?_)
    fun found _ hlost registry memory b answer => ?_
  · -- The same is found, or the same is missing.
    cases found with
    | some a => exact second a
    | none =>
      simp only [nothing, nothingAgain]
      exact .pure none
  · -- Nothing was found, and that need not last.
    obtain ⟨hgap, rfl⟩ := not_whereFound hlost
    rw [nothing] at answer
    cases answer
    exact fun lasts => Bool.false_ne_true (lasts hgap)

section
variable {resolve : Resolver} {again : Nat → Resolver}

theorem TypeDefinition.transfers_containingWith
    (hresolve : resolve.Transfers gap before after again) (d : TypeDefinition) :
    (d.containingWith resolve).Transfers gap before after whereFound
      fun l => d.containingWith (again l) := by
  refine .ite (fun _ => .pure _) fun _ => ?_
  refine transfers_reachModule_bind fun m hm _ => ?_
  cases m.image.enclosing? d.token with
  | none => exact .throw _
  | some enclosing =>
    refine transfers_requireTypeSystem.bind fun _ => .of_leads fun leads _ => ?_
    refine .read_bind (fun _ => rfl) fun _ => ?_
    rw [leads.options]
    exact .ite (fun _ => hresolve m hm enclosing) fun _ => .throw _

/-- Names last where all modules are there. -/
abbrev whereComplete {α : Type} (gap : Gap) (_ : α) : Prop := gap ≠ .growth

mutual

theorem Ty.transfers_fullNameFrom {nameOf : TypeDefinition → Query String}
    {nameAgain : Nat → TypeDefinition → Query String}
    (names : ∀ d, (nameOf d).Transfers gap before after whereComplete
      fun l => nameAgain l d) :
    (t : Ty) → (t.fullNameFrom nameOf).Transfers gap before after whereComplete
      fun l => t.fullNameFrom (nameAgain l)
  | .definition d => names d
  | .applied d arguments =>
    (Ty.transfers_fullNamesFrom names arguments).bind_alike fun _ =>
      (names d).bind_alike fun _ => .pure _
  | .parameter p => p.transfers_simpleName.imp fun _ _ _ => trivial
  | .var .. => .pure _
  | .shaped _ element =>
    (Ty.transfers_fullNameFrom names element).bind_alike fun _ => .pure _

theorem Ty.transfers_fullNamesFrom {nameOf : TypeDefinition → Query String}
    {nameAgain : Nat → TypeDefinition → Query String}
    (names : ∀ d, (nameOf d).Transfers gap before after whereComplete
      fun l => nameAgain l d) :
    (types : List Ty) → (Ty.fullNamesFrom nameOf types).Transfers gap before
      after whereComplete
      fun l => Ty.fullNamesFrom (nameAgain l) types
  | [] => .pure _
  | t :: rest =>
    (Ty.transfers_fullNameFrom names t).bind_alike fun _ =>
      (Ty.transfers_fullNamesFrom names rest).bind_alike fun _ => .pure _

end

theorem TypeDefinition.transfers_fullNameWithin
    (hresolve : resolve.Transfers gap before after again) (room : Nat)
    {roomAgain : Nat → Nat} (large : Tendsto roomAgain atTop atTop)
    (d : TypeDefinition) :
    (d.fullNameWithin resolve room).Transfers gap before after whereComplete
      fun l => d.fullNameWithin (again l) (roomAgain l) := by
  induction room generalizing d roomAgain with
  | zero => exact .circular _ _
  | succ room ih =>
    suffices h : (d.fullNameWithin resolve (room + 1)).Transfers gap before
        after whereComplete
        fun l => d.fullNameWithin (again l) (roomAgain l - 1 + 1) from
      -- With room left, there is one less for the type outside.
      h.congr ((eventually_sub_add_one large).mono fun l hl => by rw [hl])
    refine d.transfers_simpleName.bind fun name => ?_
    refine (d.transfers_containingWith hresolve).bind_of .trivial
      (fun outer _ => ?_)
      fun found hgap lost _ _ _ _ complete => complete (not_whereFound lost).1
    cases outer with
    | some outer =>
      exact (outer.transfers_fullNameFrom
        (ih (tendsto_sub_one large))).bind_alike fun _ => .pure _
    | none => exact d.transfers_namespaceText.bind fun _ => .pure _

/-- Counting only adds. -/
theorem le_foldl {α : Type} {count : Nat → α → Nat}
    (grows : ∀ n a, n ≤ count n a) (items : List α) (n : Nat) :
    n ≤ items.foldl count n := by
  induction items generalizing n with
  | nil => exact le_rfl
  | cons a items ih => exact (grows n a).trans (ih _)

/-- The room that a registry gives grows with its patience. -/
theorem Registry.le_nestingBound (registry : Registry) (l : Nat) :
    l ≤ (registry.withPatience l).nestingBound :=
  (Nat.le_succ l).trans (le_foldl (fun _ _ => by omega) _ _)

theorem Registry.tendsto_nestingBound (registry : Registry) :
    Tendsto (fun l => (registry.withPatience l).nestingBound) atTop atTop :=
  tendsto_atTop_mono registry.le_nestingBound tendsto_id

theorem Ty.transfers_fullNameWith
    (hresolve : resolve.Transfers gap before after again) (t : Ty) :
    (t.fullNameWith resolve).Transfers gap before after whereComplete
      fun l => t.fullNameWith (again l) :=
  .read fun _ => t.transfers_fullNameFrom fun d =>
    d.transfers_fullNameWithin hresolve _ after.tendsto_nestingBound

/-- A name that is shown lasts as it does by itself; a placeholder is not meant
to. -/
theorem Ty.transfers_displayWith
    (hresolve : resolve.Transfers gap before after again) (t : Ty) :
    (t.displayWith resolve).Transfers gap before after
      (fun gap text => gap ≠ .growth ∧ text ≠ unreadableType)
        fun l => t.displayWith (again l) := by
  refine (t.transfers_fullNameWith hresolve).attempt.bind_of .trivial
    (fun _ _ => .pure _) ?_
  rintro (error | name) _ lost _ _ text ⟨⟩ ⟨complete, readable⟩
  · exact readable rfl
  · exact lost ⟨name, rfl, complete⟩

end

/-! ### Parameters -/

theorem Module.transfers_parameter (m : Module) (token : Token) :
    (m.parameter token).Transfers gap before after always
      fun _ => m.parameter token :=
  (Transfers.lift _).bind fun t => .share t

theorem Module.transfers_parameters (m : Module) (tokens : List Token) :
    (m.parameters tokens).Transfers gap before after always
      fun _ => m.parameters tokens := by
  induction tokens with
  | nil => exact .pure _
  | cons token rest ih =>
    exact (m.transfers_parameter token).bind fun _ => ih.bind fun _ => .pure _

theorem TypeDefinition.transfers_parameters (d : TypeDefinition) :
    d.parameters.Transfers gap before after always fun _ => d.parameters := by
  refine Transfers.remember (fun _ => rfl) trivial (fun _ => trivial) ?_
  exact transfers_reachModule_bind fun m _ _ => m.transfers_parameters _

theorem Ty.transfers_instantiation : (t : Ty) →
    t.instantiation.Transfers gap before after always fun _ => t.instantiation
  | .definition d => d.transfers_parameters
  | .applied .. | .parameter _ | .var .. | .shaped .. => .pure _

theorem Ty.transfers_isGenericDefinition : (t : Ty) →
    t.isGenericDefinition.Transfers gap before after always
      fun _ => t.isGenericDefinition
  | .definition d => d.transfers_parameters.bind fun _ => .pure _
  | .applied .. | .parameter _ | .var .. | .shaped .. => .pure _

/-! ### Types from types -/

theorem transfers_variableOf (index : UInt32) (isMethod : Bool) :
    (variableOf index isMethod).Transfers gap before after always
      fun _ => variableOf index isMethod :=
  .share _

theorem transfers_shapeOf (shape : Shape) (element : Ty) :
    (shapeOf shape element).Transfers gap before after always
      fun _ => shapeOf shape element := by
  cases shape with
  | array rank => exact .ite (fun _ => .throw_bind _) fun _ => .share _
  | vector => exact .share _
  | byRef => exact .share _
  | pointer => exact .share _

section
variable {resolve : Resolver} {again : Nat → Resolver}
  (hresolve : resolve.Transfers gap before after again)
include hresolve

theorem transfers_instantiateWith (definition : Ty) (arguments : List Ty) :
    (instantiateWith resolve definition arguments).Transfers gap before
      after always
      fun l => instantiateWith (again l) definition arguments := by
  cases definition with
  | definition d =>
    refine d.transfers_parameters.bind fun own => ?_
    exact .ite (fun _ => (Ty.transfers_displayWith hresolve _).bind_throw)
      fun _ => .share _
  | _ => exact (Ty.transfers_displayWith hresolve _).bind_throw

omit hresolve

mutual

theorem Ty.transfers_substituteWith
    (hresolve : resolve.Transfers gap before after again)
    (types methods : List Ty) : (t : Ty) →
    (t.substituteWith resolve types methods).Transfers gap before after always
      fun l => t.substituteWith (again l) types methods
  | .var index isMethod => .pure _
  | .applied d arguments => by
    refine (Ty.transfers_substituteEachWith hresolve types methods
      arguments).bind fun replaced => ?_
    -- If nothing was replaced, the type itself is answered.
    refine .ite (fun _ => .pure _) fun _ => transfers_requireTypeSystem.bind
      fun _ => ?_
    exact transfers_instantiateWith hresolve _ _
  | .shaped shape element => by
    refine (Ty.transfers_substituteWith hresolve types methods element).bind
      fun replaced => ?_
    -- If nothing was replaced, the type itself is answered.
    refine .ite (fun _ => .pure _) fun _ => transfers_requireTypeSystem.bind
      fun _ => ?_
    exact transfers_shapeOf shape replaced
  | .definition _ | .parameter _ => .pure _

theorem Ty.transfers_substituteEachWith
    (hresolve : resolve.Transfers gap before after again)
    (types methods : List Ty) : (ts : List Ty) →
    (Ty.substituteEachWith resolve types methods ts).Transfers gap before
      after always
      fun l => Ty.substituteEachWith (again l) types methods ts
  | [] => .pure _
  | t :: rest =>
    (Ty.transfers_substituteWith hresolve types methods t).bind fun _ =>
      (Ty.transfers_substituteEachWith hresolve types methods rest).bind
        fun _ => .pure _

end

end

/-! ### Names, signatures and rows that lead to types -/

section
variable {resolve : Resolver} {again : Nat → Resolver} {m : Module}
  (hresolve : resolve.Transfers gap before after again)
include hresolve

theorem Module.transfers_typeNamedWith (hm : m ∈ after.modules)
    (namespaceName name : String) :
    (m.typeNamedWith resolve namespaceName name).Transfers gap before
      after whereFound
      fun l => m.typeNamedWith (again l) namespaceName name := by
  refine (Transfers.lift _).bind fun index => ?_
  cases index.lookup (namespaceName, name) with
  | some token => exact hresolve m hm token
  | none => exact .pure _

theorem Module.transfers_nestedNamedWith (hm : m ∈ after.modules)
    (name : String) (tokens : List Token) :
    (m.nestedNamedWith resolve name tokens).Transfers gap before after
      whereFound fun l => m.nestedNamedWith (again l) name tokens := by
  induction tokens with
  | nil => exact .pure _
  | cons token rest ih =>
    simp only [Module.nestedNamedWith]
    cases m.image.typeDef? token with
    | some row =>
      refine (Transfers.lift _).bind fun _ =>
        (Transfers.lift _).bind fun _ => ?_
      exact .ite (fun _ => hresolve m hm token) fun _ => ih
    | none => exact .throw _

theorem Ty.transfers_nestedTypeWith (t : Ty) (name : String) :
    (t.nestedTypeWith resolve name).Transfers gap before after whereFound
      fun l => t.nestedTypeWith (again l) name := by
  simp only [Ty.nestedTypeWith]
  cases t.definition? with
  | some d =>
    refine transfers_reachModule_bind fun m hm _ =>
      (Transfers.lift _).bind fun _ => ?_
    exact Module.transfers_nestedNamedWith hresolve hm name _
  | none => exact .pure _

theorem Module.transfers_requiredTypeWith (hm : m ∈ after.modules)
    (token : Token) :
    (m.requiredTypeWith resolve token).Transfers gap before after always
      fun l => m.requiredTypeWith (again l) token := by
  -- What is not found is a failure.
  refine (hresolve m hm token).bind_required (fun t => .pure t) ?_ ?_
  · dsimp only
    cases m.image.typeRef? token with
    | some row =>
      exact (Transfers.lift _).bind fun _ => (Transfers.lift _).bind
        fun _ => .throw _
    | none => exact .throw _
  · dsimp only
    cases m.image.typeRef? token with
    | some row => exact .bind fun _ => .bind fun _ => .throw _
    | none => exact .throw _

omit hresolve

mutual

/-- What a signature spells lasts. -/
theorem TypeSig.transfers_resolveWith
    (hresolve : resolve.Transfers gap before after again)
    (hm : m ∈ after.modules) (signature : TypeSig) :
    (signature.resolveWith resolve m).Transfers gap before after always
      fun l => signature.resolveWith (again l) m := by
  match signature with
  | .primitive kind =>
    exact transfers_requireTypeSystem.bind fun _ => transfers_wellKnown _
  | .valueType token | .referenceType token =>
    exact transfers_requireTypeSystem.bind fun _ =>
      Module.transfers_requiredTypeWith hresolve hm token
  | .typeVar index =>
    exact transfers_requireTypeSystem.bind fun _ =>
      transfers_variableOf index false
  | .methodVar index =>
    exact transfers_requireTypeSystem.bind fun _ =>
      transfers_variableOf index true
  | .pinned inner =>
    exact transfers_requireTypeSystem.bind fun _ =>
      TypeSig.transfers_resolveWith hresolve hm inner
  | .pointer _ inner | .byRef inner | .vector _ inner | .array inner _ _ _ =>
    refine transfers_requireTypeSystem.bind fun _ => ?_
    exact (TypeSig.transfers_resolveWith hresolve hm inner).bind
      fun _ => transfers_shapeOf _ _
  | .generic definition arguments =>
    refine transfers_requireTypeSystem.bind fun _ => ?_
    refine (TypeSig.transfers_resolveWith hresolve hm definition).bind
      fun _ => ?_
    refine (TypeSig.transfers_resolveEachWith hresolve hm arguments).bind
      fun _ => ?_
    exact transfers_instantiateWith hresolve _ _
  | .function _ => exact transfers_requireTypeSystem.bind fun _ => .throw _

theorem TypeSig.transfers_resolveEachWith
    (hresolve : resolve.Transfers gap before after again)
    (hm : m ∈ after.modules) (signatures : List TypeSig) :
    (TypeSig.resolveEachWith resolve m signatures).Transfers gap before
      after always
      fun l => TypeSig.resolveEachWith (again l) m signatures := by
  match signatures with
  | [] => exact .pure _
  | signature :: rest =>
    exact (TypeSig.transfers_resolveWith hresolve hm signature).bind fun _ =>
      (TypeSig.transfers_resolveEachWith hresolve hm rest).bind fun _ => .pure _

end

include hresolve

theorem Module.transfers_referencedTypeWith (hm : m ∈ after.modules)
    (token : Token) :
    (m.referencedTypeWith resolve token).Transfers gap before after whereFound
      fun l => m.referencedTypeWith (again l) token := by
  simp only [Module.referencedTypeWith]
  cases m.image.typeRef? token with
  | none => exact .throw _
  | some row =>
    refine (Transfers.lift _).bind fun name => (Transfers.lift _).bind
      fun namespaceName => ?_
    cases row.scope.kind? with
    | none => exact .throw _
    | some kind =>
      cases kind with
      | assemblyRef =>
        dsimp only
        cases m.image.assemblyRef? row.scope with
        | none => exact .throw _
        | some assembly =>
          refine (Transfers.lift _).bind fun assemblyName => ?_
          refine transfers_requireTypeSystem.bind fun _ => .of_leads
            fun leads sound => ?_
          refine .read_bind (fun _ => rfl) fun _ => ?_
          cases hother : before.module? assemblyName with
          | some other =>
            have found := leads.module?_eq_some sound.proper hother
            rw [found]
            exact Module.transfers_typeNamedWith hresolve
              (Registry.mem_of_module? found).1 _ _
          | none =>
            -- An assembly that is not there may be added, so that nothing is
            -- found yet.
            by_cases hgap : gap = .growth
            · exact .nothing hgap
            · rw [leads.module?_eq_none hgap hother]
              exact .pure _
      | module => exact Module.transfers_typeNamedWith hresolve hm _ _
      | typeRef =>
        refine (hresolve m hm row.scope).bind_found (fun enclosing => ?_) rfl
          fun _ => rfl
        exact Ty.transfers_nestedTypeWith hresolve enclosing _
      | moduleRef => exact .throw _
      | _ => exact .throw _

theorem Module.transfers_specifiedTypeWith (hm : m ∈ after.modules)
    (token : Token) :
    (m.specifiedTypeWith resolve token).Transfers gap before after always
      fun l => m.specifiedTypeWith (again l) token := by
  simp only [Module.specifiedTypeWith]
  cases m.image.typeSpec? token with
  | none => exact .throw _
  | some row =>
    refine (Transfers.lift _).bind fun blob => .of_leads fun leads _ => ?_
    refine .read_bind (fun _ => rfl) fun _ => ?_
    rw [leads.options]
    exact (Transfers.lift _).bind fun signature =>
      TypeSig.transfers_resolveWith hresolve hm signature

theorem Module.transfers_typeWith (hm : m ∈ after.modules) (token : Token) :
    (m.typeWith resolve token).Transfers gap before after whereFound
      fun l => m.typeWith (again l) token := by
  simp only [Module.typeWith]
  cases token.kind? with
  | none => exact .throw _
  | some kind =>
    cases kind with
    | typeDef =>
      exact (Transfers.lift _).bind fun _ => (Transfers.share _).bind
        fun _ => .pure _
    | typeRef => exact Module.transfers_referencedTypeWith hresolve hm token
    | typeSpec =>
      exact (Module.transfers_specifiedTypeWith hresolve hm token).bind
        fun _ => .pure _
    | _ => exact .throw _

end

@[simp]
theorem Module.typeWithin_of_isNull {m : Module} {token : Token}
    (hnull : token.isNull = true) (room : Nat) :
    Module.typeWithin room m token = pure none := by
  cases room with
  | zero => exact if_pos hnull
  | succ room => exact if_pos hnull

/-- What is asked of a token is where it leads. -/
theorem Fact.ask_resolved {registry : Registry} {name : String} {m : Module}
    (found : registry.module? name = some m) {token : Token} {room : Nat}
    {memory : Memory} :
    (Fact.resolved name token).ask room registry memory
      = Module.typeWithin room m token registry memory := by
  have run : (MonadReader.read : Query Registry) registry memory
      = (.ok registry, memory) := rfl
  refine (bind_apply_ok run).trans ?_
  rw [found]

theorem Module.remembers_typeWithin (proper : after.IsProper) {m : Module}
    (hm : m ∈ after.modules) {token : Token} (hnull : ¬ token.isNull = true) :
    Remembers after (.resolved m.name token) Option.isSome
      fun room => m.typeWith (Module.typeWithin (room - 1)) token := by
  filter_upwards [eventually_ge_atTop 1] with room hroom l memory
  obtain ⟨room, rfl⟩ := Nat.exists_eq_add_of_le' hroom
  have found : (after.withPatience l).module? m.name = some m :=
    proper.module?_eq_some hm
  rw [Fact.ask_resolved found]
  exact congrFun (congrFun (if_neg hnull) _) _

/-- The way from tokens to types transfers, however many steps it may take. -/
theorem transfers_typeWithin (room : Nat) {roomAgain : Nat → Nat}
    (large : Tendsto roomAgain atTop atTop) :
    (Module.typeWithin room).Transfers gap before after
      fun l => Module.typeWithin (roomAgain l) := by
  induction room generalizing roomAgain with
  | zero =>
    intro m hm token
    -- A null token needs no room.
    by_cases hnull : token.isNull = true
    · simp only [Module.typeWithin_of_isNull hnull]
      exact .pure none
    · -- Any other token is reported as a circle.
      have run : Module.typeWithin 0 m token = throw (.circular m.name token) :=
        if_neg hnull
      rw [run]
      exact .circular _ _
  | succ room ih =>
    intro m hm token
    suffices h : (Module.typeWithin (room + 1) m token).Transfers gap before
        after whereFound
        fun l => Module.typeWithin (roomAgain l - 1 + 1) m token from
      h.congr ((eventually_sub_add_one large).mono fun l hl => by rw [hl])
    refine .ite (fun _ => .pure _) fun hnull => .of_leads fun _ sound => ?_
    -- What a token was resolved to is remembered.
    refine Transfers.rememberIf
      (Module.remembers_typeWithin sound.proper hm hnull) trivial
      (fun _ => id) (fun _ found _ => found) (fun room large => ?_) large
    exact Module.transfers_typeWith (ih (tendsto_sub_one large)) hm token

theorem Registry.tendsto_referenceBound (registry : Registry) :
    Tendsto (fun l => (registry.withPatience l).referenceBound) atTop atTop :=
  tendsto_atTop_mono (fun l => (Nat.le_succ l).trans
    (le_foldl (fun _ _ => by omega) _ _)) tendsto_id

/-- The way from tokens to types transfers. -/
theorem transfers_type :
    Resolver.Transfers gap before after Module.type fun _ => Module.type :=
  fun m hm token => .read fun _ =>
    transfers_typeWithin _ after.tendsto_referenceBound m hm token

/-! ### What follows any token -/

section
variable {m : Module}

theorem Module.transfers_typeNamed (hm : m ∈ after.modules)
    (namespaceName name : String) :
    (m.typeNamed namespaceName name).Transfers gap before after whereFound
      fun _ => m.typeNamed namespaceName name :=
  Module.transfers_typeNamedWith transfers_type hm namespaceName name

theorem Module.transfers_requiredType (hm : m ∈ after.modules) (token : Token) :
    (m.requiredType token).Transfers gap before after always
      fun _ => m.requiredType token :=
  Module.transfers_requiredTypeWith transfers_type hm token

theorem Module.transfers_resolve (hm : m ∈ after.modules)
    (signature : TypeSig) :
    (m.resolve signature).Transfers gap before after always
      fun _ => m.resolve signature :=
  TypeSig.transfers_resolveWith transfers_type hm signature

theorem Ty.transfers_nestedType (t : Ty) (name : String) :
    (t.nestedType name).Transfers gap before after whereFound
      fun _ => t.nestedType name :=
  t.transfers_nestedTypeWith transfers_type name

theorem TypeDefinition.transfers_containing (d : TypeDefinition) :
    d.containing.Transfers gap before after whereFound fun _ => d.containing :=
  d.transfers_containingWith transfers_type

theorem Ty.transfers_containing (t : Ty) :
    t.containing.Transfers gap before after whereFound
      fun _ => t.containing := by
  simp only [Ty.containing]
  cases t.definition? with
  | some d => exact d.transfers_containing
  | none => exact .pure _

theorem Ty.transfers_fullName (t : Ty) :
    t.fullName.Transfers gap before after whereComplete fun _ => t.fullName :=
  t.transfers_fullNameWith transfers_type

theorem Ty.transfers_display (t : Ty) : t.display.Transfers gap before after
    (fun gap text => gap ≠ .growth ∧ text ≠ unreadableType)
      fun _ => t.display :=
  t.transfers_displayWith transfers_type

theorem transfers_instantiate (definition : Ty) (arguments : List Ty) :
    (instantiate definition arguments).Transfers gap before after always
      fun _ => instantiate definition arguments :=
  transfers_instantiateWith transfers_type definition arguments

theorem Ty.transfers_substituted (t : Ty) (types methods : List Ty) :
    (t.substituted types methods).Transfers gap before after always
      fun _ => t.substituted types methods :=
  Ty.transfers_substituteWith transfers_type types methods t

end

end CliMetadata
