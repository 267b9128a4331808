import CliMetadata.Proofs.TypeSystem.Failures

/-!
# Equivalent signatures

Signatures are equivalent if they are the same once conventions of native code
count as the managed one and optional modifiers are left out
(`MethodSignature.essence`).  Substitution does not interfere with that, and so
it leads from equivalent signatures to equivalent ones.

A search for a signature up to equivalence looks at the same rows as one for
exactly this signature, with the same traces, and what ends the latter ends the
former (`Ty.exists_findMethod`).  So it finds no less, and nothing that stands
further behind (`Session.IsReachable.matchesEquivalents`).
-/

namespace CliMetadata

open Query

/-! ### What equivalent signatures have in common -/

namespace MethodSignature

variable {a b : MethodSignature}

/-- A signature without what a runtime may vary. -/
def essence (signature : MethodSignature) : MethodSignature :=
  { signature with
    flags := signature.flags.withoutNativeConvention
    modifiers := signature.requiredModifiers }

@[simp]
theorem isEquivalent_iff : a.isEquivalent b = true ↔ a.essence = b.essence := by
  simp only [isEquivalent, essence, Bool.and_eq_true, beq_iff_eq,
    MethodSignature.mk.injEq, and_assoc]

theorem equivalence_isEquivalent :
    Equivalence fun a b : MethodSignature => a.isEquivalent b = true := by
  simp only [isEquivalent_iff]
  exact ⟨fun _ => rfl, Eq.symm, Eq.trans⟩

/-- Replacing variables changes neither conventions nor which modifiers are
required. -/
@[simp]
theorem essence_replaced (types : List Ty) (signature : MethodSignature) :
    (signature.replaced types).essence = signature.essence.replaced types := by
  simp only [essence, replaced, requiredModifiers, List.filter_map]
  rfl

theorem isEquivalent_replaced (types : List Ty) (h : a.isEquivalent b = true) :
    (a.replaced types).isEquivalent (b.replaced types) = true := by
  rw [isEquivalent_iff] at h ⊢
  rw [essence_replaced, essence_replaced, h]

end MethodSignature

/-! ### Substitution in signatures -/

section
variable {registry : Registry} {tracked : Bool} {shared : Ty → Prop}
  {types : List Ty}

theorem ResolvedModifier.answers_substituted (live : registry.held = none)
    {modifier : ResolvedModifier}
    (node : modifier.type.IsNode registry.modules shared)
    (htypes : AreNodes registry.modules shared types) :
    (modifier.substituted types).Answers registry tracked shared
      (· = { modifier with type := modifier.type.replaced types [] }) := by
  refine (Ty.answers_substituted live node htypes .nil).bind
    (Ty.gives_substituted node htypes .nil) fun _ _ type same _ => .pure ?_
  rw [same]

/-- In a live type system, substitution in a signature replaces the variables of
its types. -/
theorem MethodSignature.answers_substituted (live : registry.held = none)
    {signature : MethodSignature}
    (hsignature : AreNodes registry.modules shared signature.types)
    (htypes : AreNodes registry.modules shared types) :
    (signature.substituted types).Answers registry tracked shared
      (· = signature.replaced types) := by
  refine .ite (fun nothing => ?_) fun _ => ?_
  · obtain rfl := List.isEmpty_iff.mp nothing
    exact .pure signature.replaced_nil.symm
  -- What is shared grows with each of the parts, in the order in which they are
  -- changed.
  · obtain ⟨hparameters, hmodifiers⟩ :=
      List.forall_mem_append.mp hsignature.tail
    refine (Ty.answers_mapM_substituted live hparameters htypes .nil).bind
      (Ty.gives_mapM_substituted hparameters htypes .nil)
        fun _ le parameters same _ => ?_
    have nodes := AreNodes.le hmodifiers le
    refine (answers_mapM
      (fun _ le' _ node => ResolvedModifier.gives_substituted node
        ((htypes.le le).le le'))
      (fun _ le' _ node => ResolvedModifier.answers_substituted live node
        ((htypes.le le).le le'))
      nodes).bind (gives_mapM
        (fun _ le' _ node => ResolvedModifier.gives_substituted node
          ((htypes.le le).le le')) nodes) fun _ le' modifiers same' _ => ?_
    refine (Ty.answers_substituted live ((hsignature.head.le le).le le')
      ((htypes.le le).le le')
      .nil).bind (Ty.gives_substituted ((hsignature.head.le le).le le')
        ((htypes.le le).le le')
      .nil) fun _ _ result same'' _ => .pure ?_
    rw [replaced, same, same', same'']

end

/-! ### Searches -/

section
variable {registry : Registry}

/-- What passes a test also passes a coarser one, which leaves the same traces.
So a search with the coarser test finds something at the same row or at an
earlier one. -/
theorem Members.exists_findOf {μ : Type} {isWanted : Token → Query Bool}
    {member : Token → Query μ} {test coarser : μ → Query Bool}
    {token : μ → Token}
    (tells : ∀ row memory item memory',
      member row registry memory = (.ok item, memory') → token item = row)
    (follows : ∀ item memory passes memory',
      test item registry memory = (.ok passes, memory') →
        ∃ passes', coarser item registry memory = (.ok passes', memory') ∧
          (passes = true → passes' = true))
    {found : μ} (tokens : List Token) :
    ∀ memory, (findOf isWanted member test tokens registry memory).1
      = .ok (some found) →
      ∃ first, (findOf isWanted member coarser tokens registry memory).1
        = .ok (some first) ∧
        ∃ i j : Nat, i ≤ j ∧ tokens[i]? = some (token first) ∧
        tokens[j]? = some (token found) := by
  induction tokens with
  | nil =>
    intro memory h
    cases h
  | cons row rest ih =>
    -- What is found behind the first row is found one place further.
    have behind (memory : Memory)
        (h : (findOf isWanted member test rest registry memory).1
          = .ok (some found)) :
        ∃ first, (findOf isWanted member coarser rest registry memory).1
          = .ok (some first) ∧
          ∃ i j : Nat, i ≤ j ∧ (row :: rest)[i]? = some (token first) ∧
            (row :: rest)[j]? = some (token found) := by
      obtain ⟨first, finds, i, j, le, hi, hj⟩ := ih memory h
      exact ⟨first, finds, i + 1, j + 1, Nat.succ_le_succ le, hi, hj⟩
    intro memory h
    obtain ⟨wants, memory₁, wanted, h⟩ := bind_eq_ok.mp h
    simp only [findOf, bind_apply_ok wanted]
    cases wants with
    | false => exact behind memory₁ h
    | true =>
      obtain ⟨item, memory₂, made, h⟩ := bind_eq_ok.mp h
      obtain ⟨passes, memory₃, tested, h⟩ := bind_eq_ok.mp h
      obtain ⟨passes', tested', weaker⟩ :=
        follows item memory₂ passes memory₃ tested
      have told : row = token item := (tells row memory₁ item memory₂ made).symm
      simp only [if_true, bind_apply_ok made, bind_apply_ok tested']
      cases passes' with
      | false =>
        cases passes with
        | false => exact behind memory₃ h
        | true => exact absurd (weaker rfl) Bool.false_ne_true
      | true =>
        -- The coarser search ends here, and the other one here or further
        -- behind.
        cases passes with
        | false =>
          obtain ⟨-, -, -, j, -, -, hj⟩ := behind memory₃ h
          exact ⟨item, rfl, 0, j, Nat.zero_le j, congrArg some told, hj⟩
        | true =>
          cases h
          exact ⟨found, rfl, 0, 0, Nat.le_refl 0, congrArg some told,
            congrArg some told⟩

/-! ### Searches for methods -/

/-- The methods that are found by tokens have these tokens. -/
def Registry.FindsOwnMethods (registry : Registry) : Prop :=
  ∀ m ∈ registry.modules, ∀ token row, m.image.methodDef? token = some row →
  row.token = token

/-- The row of a type's definition lists one method at the place of another or
before it. -/
def Ty.ListsNoLater (modules : List Module) (t : Ty) (first second : Method) :
    Prop :=
  ∃ d m row, t.definition? = some d ∧ m ∈ modules ∧ m.name = d.module ∧
    m.image.typeDef? d.token = some row ∧
      ∃ i j : Nat, i ≤ j ∧ row.methods[i]? = some first.token ∧
      row.methods[j]? = some second.token

/-- Whether the signature of a method, with type variables replaced, relates to
the wanted one, if any is wanted. -/
def Method.isRelated (relates : MethodSignature → MethodSignature → Bool)
    (wanted : Option MethodSignature) (substitution : List Ty)
    (method : Method) : Query Bool := do
  let some wanted := wanted | return true
  let candidate ← (← method.signature).substituted substitution
  return relates wanted candidate

variable {memory memory' : Memory} {t : Ty}
  {relates coarser : MethodSignature → MethodSignature → Bool}
  {wanted : Option MethodSignature} {substitution : List Ty}

/-- What relates in a way also relates in a coarser way. -/
theorem Method.isRelated_of_weaker
    (weaker : ∀ a b, relates a b = true → coarser a b = true) {method : Method}
    {passes : Bool}
    (tested : method.isRelated relates wanted substitution registry memory
      = (.ok passes, memory')) :
    ∃ passes', method.isRelated coarser wanted substitution registry memory
      = (.ok passes', memory') ∧
      (passes = true → passes' = true) := by
  cases wanted with
  | none => exact ⟨passes, tested, id⟩
  | some wanted =>
    obtain ⟨signature, _, told, tested⟩ := bind_run_eq_ok.mp tested
    obtain ⟨candidate, _, changed, tested⟩ := bind_run_eq_ok.mp tested
    cases tested
    refine ⟨coarser wanted candidate, ?_, weaker wanted candidate⟩
    exact bind_run_eq_ok.mpr ⟨_, _, told,
      bind_run_eq_ok.mpr ⟨_, _, changed, rfl⟩⟩

/-- A method that is made from a row has the token of the row. -/
theorem token_of_memberMethod (finds : registry.FindsOwnMethods) {m : Module}
    (hm : m ∈ registry.modules) {d : TypeDefinition} {token : Token}
    {method : Method}
    (made : memberMethod m d t token registry memory = (.ok method, memory')) :
    method.token = token := by
  obtain ⟨declared, _, run, rest⟩ := bind_run_eq_ok.mp made
  have own : declared.token = token := by
    rw [Module.method.eq_def] at run
    cases hrow : m.image.methodDef? token with
    | some row =>
      rw [hrow] at run
      obtain ⟨_, _, _, run⟩ := bind_run_eq_ok.mp run
      cases run
      exact finds m hm token row hrow
    | none =>
      rw [hrow] at run
      cases run
  -- A view has the token of what it is a view of.
  by_cases same : t = .definition d
  · rw [if_pos same] at rest
    cases rest
    exact own
  · rw [if_neg same] at rest
    obtain ⟨_, _, _, rest⟩ := bind_run_eq_ok.mp rest
    cases rest
    exact own

/-- The methods of a type are those that the row of its definition lists, if it
has one. -/
theorem Ty.methods_run_eq_ok {filter : MethodFilter} {members : Members Method}
    (listed : t.methods filter registry memory = (.ok members, memory')) :
    members = .empty ∨ ∃ d m row, t.definition? = some d ∧
      m ∈ registry.modules ∧ m.name = d.module ∧
        m.image.typeDef? d.token = some row ∧ members =
          { tokens := row.methods, isWanted := filter.accepts m,
            member := memberMethod m d t } := by
  rw [Ty.methods.eq_def] at listed
  cases hd : t.definition? with
  | none =>
    rw [hd] at listed
    cases listed
    exact .inl rfl
  | some d =>
    rw [hd] at listed
    obtain ⟨m, _, reached, listed⟩ := bind_run_eq_ok.mp listed
    obtain ⟨row, _, read, listed⟩ := bind_run_eq_ok.mp listed
    cases listed
    -- The module that is reached is the one of the definition.
    obtain ⟨hm, named⟩ :=
      Registry.mem_of_module? (module?_of_reachModule
        (congrArg Prod.fst reached))
    refine .inr ⟨d, m, row, rfl, hm, named, ?_, rfl⟩
    rw [TypeDefinition.row.eq_def] at read
    cases hrow : m.image.typeDef? d.token with
    | some row' =>
      -- The row that is read is the one that the image has.
      rw [hrow] at read
      cases read
      rfl
    | none =>
      rw [hrow] at read
      cases read

/-- Where a method is found by its signature, one is found by a coarser relation
at the same place of the row or at an earlier one. -/
theorem Ty.exists_findMethod (finds : registry.FindsOwnMethods)
    (weaker : ∀ a b, relates a b = true → coarser a b = true) {name : String}
    {found : Method}
    (h : (t.findMethod name wanted substitution relates registry memory).1
      = .ok (some found)) :
    ∃ first, (t.findMethod name wanted substitution coarser registry memory).1
      = .ok (some first) ∧
      t.ListsNoLater registry.modules first found := by
  obtain ⟨members, memory₁, listed, h⟩ := bind_eq_ok.mp h
  -- Both searches list the same members.
  have same : t.findMethod name wanted substitution coarser registry memory
      = members.find (Method.isRelated coarser wanted substitution)
        registry memory₁ :=
    bind_apply_ok listed
  rw [same]
  obtain rfl | ⟨d, m, row, hd, hm, named, hrow, rfl⟩ :=
    Ty.methods_run_eq_ok listed
  · cases h
  · -- The coarser search stops no later than the other.
    obtain ⟨first, finds, i, j, le, hi, hj⟩ := Members.exists_findOf
      (fun _ _ _ _ made => token_of_memberMethod finds hm made)
      (fun _ _ _ _ tested => Method.isRelated_of_weaker weaker tested)
      row.methods memory₁ h
    exact ⟨first, finds, d, m, row, hd, hm, named, hrow, i, j, le, hi, hj⟩

end

/-! ### Sessions -/

namespace Session

variable {s : Session} {options : Options}

/-- What equivalence of signatures is to a caller. -/
structure MatchesEquivalents (s : Session) : Prop where
  equivalence : Equivalence fun a b : MethodSignature => a.isEquivalent b = true
  /-- Equal signatures are equivalent. -/
  of_eq : ∀ a b : MethodSignature, a = b → a.isEquivalent b = true
  /-- Substitution leads from equivalent signatures to equivalent ones. -/
  substituted : ∀ (a b : MethodSignature) types,
    s.Allows (.substituted a types) →
    s.Allows (.substituted b types) → a.isEquivalent b = true →
      ∃ a' b', (s.system.ask (a.substituted types)).1 = .ok a' ∧
        (s.system.ask (b.substituted types)).1 = .ok b' ∧
        a'.isEquivalent b' = true
  /-- Where a method is found by exactly the wanted signature, one is found by
  an equivalent signature, at the same row or at an earlier one. -/
  finds : ∀ (t : Ty) name wanted substitution,
    s.Allows (.ofType t (.method name wanted substitution)) → ∀ patience found,
      ((s.system.withPatience patience).ask
        (t.method name wanted substitution)).1
        = .ok (some found) →
      ∃ first, ((s.system.withPatience patience).ask
          (t.equivalentMethod name wanted substitution)).1 = .ok (some first) ∧
        t.ListsNoLater s.system.registry.modules first found

theorem IsReachable.findsOwnMethods (h : s.IsReachable options) :
    s.system.registry.FindsOwnMethods := by
  intro m hm token row found
  obtain ⟨b, built, rfl⟩ := h.exists_isBuilt m hm
  exact built.isNumbered.methodDefs.token_eq found

/-- In any session, equivalence of signatures is coarser than equality, is kept
by substitution, and loses no method. -/
theorem IsReachable.matchesEquivalents (h : s.IsReachable options) :
    s.MatchesEquivalents where
  equivalence := MethodSignature.equivalence_isEquivalent
  of_eq a b same := same ▸ MethodSignature.equivalence_isEquivalent.refl a
  substituted a b types allowed allowed' equivalent := by
    have substitutes (signature : MethodSignature)
        (allowed : s.Allows (.substituted signature types)) :
        (s.system.ask (signature.substituted types)).1
          = .ok (signature.replaced types) := by
      obtain ⟨hsignature, htypes⟩ := List.forall_mem_append.mp allowed.types
      have held := h.isFaithful.held
      exact h.ask_eq_ok (MethodSignature.answers_substituted h.live
        (fun t ht => held t (hsignature t ht)) fun t ht => held t (htypes t ht))
    exact ⟨a.replaced types, b.replaced types, substitutes a allowed,
      substitutes b allowed',
      MethodSignature.isEquivalent_replaced types equivalent⟩
  finds t name wanted substitution _ patience found asked := by
    have weaker (a b : MethodSignature) (same : decide (a = b) = true) :
        a.isEquivalent b = true :=
      of_decide_eq_true same ▸ MethodSignature.equivalence_isEquivalent.refl a
    have finds : (s.system.registry.withPatience patience).FindsOwnMethods :=
      h.findsOwnMethods
    exact Ty.exists_findMethod finds weaker asked

/-! A type with two methods of one name, the first for native code and the
second not. -/

def hatchCalls : List ModuleBuilder.Call :=
  [.typeDef "N" "Hatch" .public .null,
    .methodDef ⟨0x02000002⟩ "Open" ⟨0x1C6⟩
      { MethodSig.instance_ (.typeVar 0) [] with conventions :=
        { cdecl := true } },
    .methodDef ⟨0x02000002⟩ "Open" ⟨0x1C6⟩ (.instance_ (.typeVar 0) [])]

def hatchModule :
    Module := .ofImage ((ModuleBuilder.new "App").applyAll hatchCalls).image

def hatch : TypeDefinition where
  module := "App"
  token := ⟨0x02000002⟩
  flags := .public
  name := 10
  namespaceName := 16
  base := .null

/-- A method of the type, by its token, its blob and its calling convention. -/
def hatchOpen (token : Token) (blob : UInt32) (flags : SignatureFlags) :
    MethodEntry where
  method := .definition
    { module := "App"
      token
      owner := .definition hatch
      flags := ⟨0x1C6⟩
      implFlags := 0
      name := 18
      signature := blob }
  name := "Open"
  signature :=
    { flags
      genericCount := 0
      result := .var 0 false
      parameters := []
      modifiers := [] }

/-- The method for native code. -/
def nativeOpen : MethodEntry := hatchOpen ⟨0x06000001⟩ 1 ⟨1⟩

def managedOpen : MethodEntry := hatchOpen ⟨0x06000002⟩ 6 ⟨0⟩

theorem string_hatchOpen : hatchModule.image.string 18 = .ok "Open" :=
  string_of_storedAt rfl (by decide) ⟨[], by decide⟩

theorem declares_hatch :
    hatchModule.Declares ⟨0x02000002⟩ (.definition hatch) := ⟨_, rfl, rfl⟩

section
variable {registry : Registry} (hm : hatchModule ∈ registry.modules)
include hm

theorem listsNames_hatch :
    (Ty.definition hatch).ListsNames registry [nativeOpen, managedOpen] :=
  .definition rfl hm rfl rfl (.cons ⟨_, rfl, rfl, string_hatchOpen⟩
    (.cons ⟨_, rfl, rfl, string_hatchOpen⟩ .nil))

variable (sound : registry.IsSound)
  (limit : registry.options.maxSignatureDepth = 50)
include sound limit

theorem yields_nativeOpen :
    nativeOpen.method.signature.Yields registry nativeOpen.signature := by
  have parsed : MethodSig.ofBytes registry.options.maxSignatureDepth
      [0x21, 0, 0x13, 0]
      = .ok { MethodSig.instance_ (.typeVar 0) [] with conventions :=
        { cdecl := true } } := by
    rw [limit]
    rfl
  exact MethodDefinition.yields_resolved sound hm rfl rfl parsed
    (Module.yields_resolveMethod_typeVar sound hatchModule rfl rfl)

theorem yields_managedOpen :
    managedOpen.method.signature.Yields registry managedOpen.signature := by
  have parsed : MethodSig.ofBytes registry.options.maxSignatureDepth
      [0x20, 0, 0x13, 0]
      = .ok (.instance_ (.typeVar 0) []) := by
    rw [limit]
    rfl
  exact MethodDefinition.yields_resolved sound hm rfl rfl parsed
    (Module.yields_resolveMethod_typeVar sound hatchModule rfl rfl)

end

/-- The signature of the methods if more parameters may follow. -/
def variadicOpen :
    MethodSignature := { managedOpen.signature with flags := ⟨5⟩ }

/-- The method that is not for native code is found by its signature.  Up to
equivalence, a method is found there or at the row before it.  To be variadic is
no matter of native code, so that a variadic signature is equivalent to none of
the two. -/
theorem hatch_matchesEquivalents :
    ∃ s : Session, s.IsReachable {} ∧ s.MatchesEquivalents ∧
    nativeOpen.signature ≠ managedOpen.signature ∧
    nativeOpen.signature.isEquivalent managedOpen.signature = true ∧
    nativeOpen.signature.isEquivalent variadicOpen = false ∧
    managedOpen.signature.isEquivalent variadicOpen = false ∧
    s.Allows (.ofType (.definition hatch)
      (.method "Open" (some managedOpen.signature) [])) ∧
    ∃ patience, ((s.system.withPatience patience).ask
      ((Ty.definition hatch).method "Open"
        (some managedOpen.signature) [])).1 = .ok (some managedOpen.method) ∧
      ∃ first, ((s.system.withPatience patience).ask
        ((Ty.definition hatch).equivalentMethod "Open"
          (some managedOpen.signature) [])).1 = .ok (some first) ∧
        (Ty.definition hatch).ListsNoLater s.system.registry.modules first
          managedOpen.method := by
  obtain ⟨s₁, careful₁, same₁, held₁⟩ :=
    exists_holds hatchCalls (by constructor <;> decide) declares_hatch
  -- The variable in the signature is asked for as well.
  obtain ⟨s, careful, same, items⟩ := careful₁.hold_var
  have held : .definition hatch ∈ s.types ∧ .var 0 false ∈ s.types := by
    constructor
    · rw [types, items, List.flatMap_append]
      exact List.mem_append_left _ held₁
    · simp [types, items, Item.types, Ty.parts]
  have allowed : s.Allows (.ofType (.definition hatch)
      (.method "Open" (some managedOpen.signature) [])) :=
    .of_types (by simpa [Question.types, MethodSignature.types, managedOpen,
      hatchOpen] using held)
      rfl rfl
  have matches' := IsReachable.matchesEquivalents careful.isReachable
  have sound := careful.isReachable.isSound
  have modules : s.system.registry = { modules := [hatchModule] } :=
    same.trans same₁
  have hm : hatchModule ∈ s.system.registry.modules := by
    rw [modules]
    exact List.mem_singleton_self _
  have limit : s.system.registry.options.maxSignatureDepth = 50 := by
    rw [modules]
  have node := (careful.isReachable.areNodes_of_held
    (List.forall_mem_singleton.mpr held.1)).head
  have told : ∀ entry ∈ [nativeOpen, managedOpen], entry.name = "Open" →
      entry.method.signature.Yields s.system.registry entry.signature :=
    List.forall_mem_cons.mpr ⟨fun _ => yields_nativeOpen hm sound limit,
      List.forall_mem_singleton.mpr fun _ => yields_managedOpen hm sound limit⟩
  have found :
      ((Ty.definition hatch).method "Open"
        (some managedOpen.signature) []).Yields
      s.system.registry (some managedOpen.method) :=
    (listsNames_hatch hm).yields_method sound careful.isSettled.members node
      managedOpen.signature told
  obtain ⟨patience, asked⟩ := (careful.answers_of_yields found).exists
  exact ⟨s, careful.isReachable, matches',
    by decide, by decide, by decide, by decide, allowed,
    patience, asked, matches'.finds _ _ _ _ allowed patience _ asked⟩

end Session

end CliMetadata
