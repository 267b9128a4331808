import CliMetadata.Proofs.TypeSystem.Ends
import CliMetadata.Proofs.TypeSystem.History

/-!
# Rows that refer to each other

A reference may be scoped to another reference, and a type that is spelled as a
signature may have tokens of references and of other such types in it
(`Module.RefersTo`).  Where no row of a module leads back to itself in this way,
every token of the module leads to an answer, whatever a careful caller asked
before (`Session.IsCareful.ends_type`): the rows that are followed on the way
are all different, and there are fewer of them than a registry has room for
(`Module.ends_type`).

Nothing guards against circles.  Where the first thing that has to be known of a
row is, at last, the row itself, there is no answer, however many steps may be
taken (`Module.type_circular`).
-/

namespace CliMetadata

open Query

/-! ### References -/

mutual

/-- The tokens that have to be followed to know what a signature spells. -/
def TypeSig.tokens : TypeSig → List Token
  | .valueType token | .referenceType token => [token]
  | .pointer _ inner | .byRef inner | .pinned inner | .vector _
    inner | .array inner .. =>
      inner.tokens
  | .generic definition arguments =>
    definition.tokens ++ TypeSig.tokensOfEach arguments
  | .primitive _ | .typeVar _ | .methodVar _ | .function _ => []

/-- The tokens that have to be followed to know what several signatures
spell. -/
def TypeSig.tokensOfEach : List TypeSig → List Token
  | [] => []
  | signature :: rest => signature.tokens ++ TypeSig.tokensOfEach rest

end

/-- What the row of a token refers to, where signatures are read up to a
depth. -/
inductive Module.RefersTo (depth : Nat) (m : Module) (token : Token) :
    Token → Prop where
  | scope {row : TypeRefRow} : token.isIn .typeRef →
      m.image.typeRef? token = some row →
      row.scope.isIn .typeRef → RefersTo depth m token row.scope
  | part {row : TypeSpecRow} {blob : List UInt8} {signature : TypeSig}
      {next : Token} :
      token.isIn .typeSpec → m.image.typeSpec? token = some row →
        m.image.blob row.signature = .ok blob →
        TypeSig.ofBytes depth blob = .ok signature →
          next ∈ signature.tokens → RefersTo depth m token next

/-- The tokens by which rows can be found that refer to others. -/
def Image.referenceTokens (image : Image) : List Token :=
  rowTokens .typeRef image.tables.typeRefs image.amendments.typeRefs
    ++ rowTokens .typeSpec image.tables.typeSpecs image.amendments.typeSpecs

/-! ### What rows and signatures lead to -/

/-- A definition is found by its token. -/
theorem Module.ends_typeWith_definition {registry : Registry} (m : Module)
    (token : Token) :
    (do return some (← Query.share (.definition (← m.definition token))) :
      Query (Option Ty)).Ends registry :=
  .lift_bind (m.notCircular_definition token) fun _ _ => (Ends.share _).bind
    (.share _) fun _ =>
    .pure _

section
variable {registry : Registry} {resolve : Resolver} {m : Module}
  (follows : resolve.FollowsDefinitions registry) (hm : m ∈ registry.modules)

section
include follows hm

theorem Module.ends_typeNamedWith (namespaceName name : String) :
    (m.typeNamedWith resolve namespaceName name).Ends registry := by
  refine .lift_bind m.notCircular_index fun index hindex => ?_
  cases htoken : index.lookup (namespaceName, name) with
  | some token =>
    exact follows.ends m hm token (Module.isIn_of_lookup hindex htoken)
  | none => exact .pure _

theorem Module.ends_nestedNamedWith (name : String) (tokens : List Token) :
    (m.nestedNamedWith resolve name tokens).Ends registry := by
  induction tokens with
  | nil => exact .pure _
  | cons token rest ih =>
    simp only [Module.nestedNamedWith]
    cases hrow : m.image.typeDef? token with
    | some row =>
      refine .lift_bind (m.image.notCircular_string _) fun _ _ => ?_
      refine .lift_bind (m.image.notCircular_string _) fun _ _ => ?_
      refine .ite (fun _ => .of_sound fun sound => ?_) fun _ => ih
      exact follows.ends m hm token ((sound.proper.rows m hm).isTypeDef hrow).1
    | none => exact .throw rfl

end

include follows in
theorem Ty.ends_nestedTypeWith (t : Ty) (name : String) :
    (t.nestedTypeWith resolve name).Ends registry := by
  simp only [Ty.nestedTypeWith]
  cases t.definition? with
  | some d =>
    refine ends_reachModule_bind fun m hm _ =>
      .lift_bind m.image.notCircular_stringHeap fun _ _ => ?_
    exact Module.ends_nestedNamedWith follows hm name _
  | none => exact .pure _

include follows hm in
theorem Module.ends_requiredTypeWith {token : Token}
    (ends : (resolve m token).Ends registry) :
    (m.requiredTypeWith resolve token).Ends registry := by
  obtain ⟨again, transfers⟩ := follows.transfers
  refine ends.bind (transfers m hm token) fun found => ?_
  cases found with
  | some t => exact .pure t
  | none =>
    dsimp only
    cases m.image.typeRef? token with
    | some row =>
      refine .lift_bind (m.image.notCircular_string _) fun _ _ => ?_
      refine .lift_bind (m.image.notCircular_string _) fun _ _ => ?_
      exact .throw rfl
    | none => exact .throw rfl

mutual

/-- What a signature spells is found if its tokens can be followed. -/
theorem TypeSig.ends_resolveWith (nests : registry.NestsInDefinitions)
    (follows : resolve.FollowsDefinitions registry) (hm : m ∈ registry.modules)
    (signature : TypeSig)
    (tokens : ∀ token ∈ signature.tokens, (resolve m token).Ends registry) :
    (signature.resolveWith resolve m).Ends registry := by
  obtain ⟨again, transfers⟩ := follows.transfers
  match signature with
  | .primitive kind =>
    exact ends_requireTypeSystem_bind fun _ => ends_wellKnown _
  | .valueType token | .referenceType token =>
    have ends := tokens token (List.mem_singleton_self token)
    exact ends_requireTypeSystem_bind fun _ => Module.ends_requiredTypeWith
      follows hm ends
  | .typeVar index | .methodVar index =>
    exact ends_requireTypeSystem_bind fun _ => .share _
  | .pinned inner =>
    exact ends_requireTypeSystem_bind fun _ => inner.ends_resolveWith nests
      follows hm tokens
  | .pointer _ inner | .byRef inner | .vector _ inner | .array inner _ _ _ =>
    have ends := inner.ends_resolveWith nests follows hm tokens
    refine ends_requireTypeSystem_bind fun _ => ?_
    exact ends.bind (TypeSig.transfers_resolveWith transfers hm inner)
      fun t => ends_shapeOf _ t
  -- The tokens of the definition come before those of the arguments.
  | .generic definition arguments =>
    obtain ⟨ofDefinition, ofArguments⟩ := List.forall_mem_append.mp tokens
    have head := definition.ends_resolveWith nests follows hm ofDefinition
    have each := TypeSig.ends_resolveEachWith nests follows hm
      arguments ofArguments
    refine ends_requireTypeSystem_bind fun _ => ?_
    refine head.bind (TypeSig.transfers_resolveWith transfers hm definition)
      fun _ => ?_
    refine each.bind (TypeSig.transfers_resolveEachWith transfers hm arguments)
      fun _ => ?_
    exact ends_instantiateWith nests follows _ _
  | .function _ => exact ends_requireTypeSystem_bind fun _ => .throw rfl

theorem TypeSig.ends_resolveEachWith (nests : registry.NestsInDefinitions)
    (follows : resolve.FollowsDefinitions registry) (hm : m ∈ registry.modules)
    (signatures : List TypeSig)
    (tokens : ∀ token ∈ TypeSig.tokensOfEach signatures,
      (resolve m token).Ends registry) :
    (TypeSig.resolveEachWith resolve m signatures).Ends registry := by
  obtain ⟨again, transfers⟩ := follows.transfers
  match signatures with
  | [] => exact .pure _
  | signature :: rest =>
    obtain ⟨ofFirst, ofRest⟩ := List.forall_mem_append.mp tokens
    have first := signature.ends_resolveWith nests follows hm ofFirst
    have others := TypeSig.ends_resolveEachWith nests follows hm rest ofRest
    refine first.bind (TypeSig.transfers_resolveWith transfers hm signature)
      fun _ => ?_
    exact others.bind (TypeSig.transfers_resolveEachWith transfers hm rest)
      fun _ => .pure _

end

section
include follows hm

/-- What a reference means is found if what it is scoped to is. -/
theorem Module.ends_referencedTypeWith {token : Token}
    (isIn : token.isIn .typeRef)
    (references : ∀ next, m.RefersTo registry.options.maxSignatureDepth token
      next → (resolve m next).Ends registry) :
    (m.referencedTypeWith resolve token).Ends registry := by
  obtain ⟨again, transfers⟩ := follows.transfers
  simp only [Module.referencedTypeWith]
  cases hrow : m.image.typeRef? token with
  | none => exact .throw rfl
  | some row =>
    refine .lift_bind (m.image.notCircular_string _) fun name _ => ?_
    refine .lift_bind (m.image.notCircular_string _) fun namespaceName _ => ?_
    -- Only a reference that is scoped to another one leads to a further row.
    cases hscope : row.scope.kind? with
    | none => exact .throw rfl
    | some scope =>
      cases scope with
      | assemblyRef =>
        dsimp only
        cases m.image.assemblyRef? row.scope with
        | none => exact .throw rfl
        | some assembly =>
          refine .lift_bind (m.image.notCircular_string _)
            fun assemblyName _ => ?_
          refine ends_requireTypeSystem_bind fun _ => .read_bind ?_
          cases hother : registry.module? assemblyName with
          | some other =>
            have mem := (Registry.mem_of_module? hother).1
            exact Module.ends_typeNamedWith follows mem _ _
          | none => exact .pure _
      | module => exact Module.ends_typeNamedWith follows hm _ _
      | typeRef =>
        have ends :=
          references _ (.scope isIn hrow (Token.isIn_of_kind? hscope))
        refine ends.bind (transfers m hm row.scope) fun found => ?_
        cases found with
        | some enclosing => exact Ty.ends_nestedTypeWith follows enclosing _
        | none => exact .pure _
      | _ => exact .throw rfl

variable (nests : registry.NestsInDefinitions)
include nests

/-- What a row spells is found if its tokens can be followed. -/
theorem Module.ends_specifiedTypeWith {token : Token}
    (isIn : token.isIn .typeSpec)
    (references : ∀ next, m.RefersTo registry.options.maxSignatureDepth token
      next → (resolve m next).Ends registry) :
    (m.specifiedTypeWith resolve token).Ends registry := by
  simp only [Module.specifiedTypeWith]
  cases hrow : m.image.typeSpec? token with
  | none => exact .throw rfl
  | some row =>
    refine .lift_bind (m.image.notCircular_blob _)
      fun blob hblob => .read_bind ?_
    have read :
        NotCircular (TypeSig.ofBytes registry.options.maxSignatureDepth blob) :=
      .of_isFailure fun _ => TypeSig.isFailure_of_ofBytes
    refine .lift_bind read fun signature hsignature => ?_
    exact signature.ends_resolveWith nests follows hm fun next hnext =>
      references next (.part isIn hrow hblob hsignature hnext)

/-- What a token leads to is found if what its row refers to is. -/
theorem Module.ends_typeWith {token : Token}
    (references : ∀ next, m.RefersTo registry.options.maxSignatureDepth token
      next → (resolve m next).Ends registry) :
    (m.typeWith resolve token).Ends registry := by
  obtain ⟨again, transfers⟩ := follows.transfers
  rw [Module.typeWith.eq_def]
  cases hkind : token.kind? with
  | none => exact .throw rfl
  | some kind =>
    have isIn : token.isIn kind := Token.isIn_of_kind? hkind
    cases kind with
    -- A definition is answered from its row.
    | typeDef => exact Module.ends_typeWith_definition m token
    -- A reference is followed.
    | typeRef => exact Module.ends_referencedTypeWith follows hm isIn references
    | typeSpec =>
      -- A specification is read and resolved.
      have specified := Module.ends_specifiedTypeWith follows hm nests
        isIn references
      exact specified.bind
        (Module.transfers_specifiedTypeWith transfers hm token) fun _ => .pure _
    | _ => exact .throw rfl

end

end

/-! ### Without circles -/

/-- Within one step, tokens of definitions are followed to what they declare. -/
theorem Module.followsDefinitions_typeWithin {registry : Registry}
    (room : Nat) :
    Resolver.FollowsDefinitions registry (Module.typeWithin (room + 1)) where
  transfers := ⟨_, transfers_typeWithin (room + 1) Filter.tendsto_id⟩
  ends m hm token isIn := by
    refine .ite (fun _ => .pure _) fun _ => .rememberIf fun _ memory _ => ?_
    rw [Module.typeWith_of_isIn isIn]
    exact (m.notCircular_definition token).map _
  declares m hm token isIn := Module.tells_typeWithin_declares isIn hm

/-- A registry gives room for more steps than a module has references. -/
theorem Registry.length_referenceTokens_lt (registry : Registry) {m : Module}
    (hm : m ∈ registry.modules) :
    m.image.referenceTokens.length < registry.referenceBound := by
  let count (rows : Nat) (m : Module) : Nat :=
    rows + m.image.tables.typeRefs.size + m.image.amendments.typeRefs.length
      + m.image.tables.typeSpecs.size + m.image.amendments.typeSpecs.length
  have grows (n : Nat) (m : Module) : n ≤ count n m := by
    show n ≤ n + _ + _ + _ + _
    omega
  -- The module is one of those whose rows are counted.
  obtain ⟨k, hk, below⟩ := exists_le_foldl grows hm (registry.patience + 1)
  refine Nat.lt_of_lt_of_le ?_ below
  show _ < k + _ + _ + _ + _
  rw [Image.referenceTokens, List.length_append, length_rowTokens,
    length_rowTokens]
  omega

/-- No row of the module leads back to itself. -/
def Module.HasNoCircle (depth : Nat) (m : Module) : Prop :=
  ∀ token, ¬ Relation.TransGen (m.RefersTo depth) token token

section
variable {registry : Registry} {m : Module}

/-- A token is followed, unless it is known where it leads. -/
theorem Module.ends_typeWithin_succ {room : Nat} {token : Token}
    (h : (m.typeWith (Module.typeWithin room) token).Ends registry) :
    (Module.typeWithin (room + 1) m token).Ends registry :=
  .ite (fun _ => .pure none) fun _ => .rememberIf h

/-- A token that finds no row with references leads no further. -/
theorem Module.ends_typeWith_of_notMem (resolve : Resolver) {token : Token}
    (h : token ∉ m.image.referenceTokens) :
    (m.typeWith resolve token).Ends registry := by
  obtain ⟨noRef, noSpec⟩ := not_or.mp fun mem => h (List.mem_append.mpr mem)
  rw [Module.typeWith.eq_def]
  cases token.kind? with
  | none => exact .throw rfl
  | some kind =>
    cases kind with
    | typeDef => exact Module.ends_typeWith_definition m token
    | typeRef =>
      show (m.referencedTypeWith resolve token).Ends registry
      simp only [Module.referencedTypeWith]
      cases hrow : m.image.typeRef? token with
      -- There is no row, so nothing is followed.
      | none => exact .throw rfl
      | some row => exact absurd (mem_rowTokens hrow) noRef
    | typeSpec =>
      have specified : (m.specifiedTypeWith resolve token)
          = (MonadExcept.throw (.missingRow token) : Query Ty) := by
        simp only [Module.specifiedTypeWith]
        cases hrow : m.image.typeSpec? token with
        | none => rfl
        -- Were there a row, its token would be listed.
        | some row => exact absurd (mem_rowTokens hrow) noSpec
      dsimp only
      rw [specified]
      exact .throw_bind rfl
    | _ => exact .throw rfl

variable (nests : registry.NestsInDefinitions) (hm : m ∈ registry.modules)
  (straight : m.HasNoCircle registry.options.maxSignatureDepth)
include nests hm straight

/-- The rows that references lead to, one after the other, are all different. -/
theorem Module.ends_typeWithin_of_trail {visited : List Token} {token : Token}
    (trail : Trail (m.RefersTo registry.options.maxSignatureDepth)
      m.image.referenceTokens visited token)
    {room : Nat}
    (enough : m.image.referenceTokens.length < room + visited.length) :
    (Module.typeWithin room m token).Ends registry := by
  have fewer := trail.length_lt
  induction room generalizing token visited with
  | zero => omega
  | succ room ih =>
    -- There is room for one more step, within which definitions are followed.
    obtain ⟨last, rfl⟩ := Nat.exists_eq_add_one_of_ne_zero
      (show room ≠ 0 by omega)
    have follows : Resolver.FollowsDefinitions registry
        (Module.typeWithin (last + 1)) :=
      Module.followsDefinitions_typeWithin last
    refine Module.ends_typeWithin_succ
      (Module.ends_typeWith follows hm nests fun next refers => ?_)
    -- The next row is either a new one, or it leads no further.
    by_cases mem : next ∈ m.image.referenceTokens
    · have trail' := trail.step refers mem fun back =>
        straight token (Relation.TransGen.head' refers back)
      refine ih trail' ?_ trail'.length_lt
      rw [List.length_cons]
      omega
    · exact Module.ends_typeWithin_succ (Module.ends_typeWith_of_notMem _ mem)

/-- Every token of a module leads to an answer if no row of the module leads
back to itself. -/
theorem Module.ends_type (token : Token) : (m.type token).Ends registry := by
  refine .read_bind ?_
  have enough := registry.length_referenceTokens_lt hm
  by_cases mem : token ∈ m.image.referenceTokens
  · exact Module.ends_typeWithin_of_trail nests hm straight (.start mem) enough
  · obtain ⟨room, hroom⟩ := Nat.exists_eq_add_one_of_ne_zero
      (Nat.ne_zero_of_lt enough)
    rw [hroom]
    exact Module.ends_typeWithin_succ (Module.ends_typeWith_of_notMem _ mem)

end

/-! ### Circles -/

/-- The token that has to be followed first to know what a signature spells. -/
def TypeSig.firstToken? : TypeSig → Option Token
  | .valueType token | .referenceType token => some token
  | .pointer _ inner | .byRef inner | .pinned inner | .vector _
    inner | .array inner ..
  | .generic inner _ => inner.firstToken?
  | .primitive _ | .typeVar _ | .methodVar _ | .function _ => none

theorem TypeSig.mem_tokens_of_firstToken? (signature : TypeSig) {token : Token}
    (h : signature.firstToken? = some token) : token ∈ signature.tokens := by
  match signature with
  | .valueType _ | .referenceType _ =>
    cases h
    exact List.mem_singleton_self token
  | .pointer _ inner | .byRef inner | .pinned inner | .vector _ inner | .array
    inner _ _ _ =>
    exact inner.mem_tokens_of_firstToken? h
  | .generic definition _ =>
    exact List.mem_append_left _ (definition.mem_tokens_of_firstToken? h)

/-- What has to be known first of what a row refers to, before anything else can
fail. -/
inductive Module.Needs (depth : Nat) (m : Module) (token : Token) :
    Token → Prop where
  | scope {row : TypeRefRow} {name namespaceName : String} : ¬ token.isNull
      = true →
      token.isIn .typeRef → m.image.typeRef? token = some row →
        m.image.string row.name = .ok name →
        m.image.string row.namespaceName = .ok namespaceName →
          row.scope.isIn .typeRef → Needs depth m token row.scope
  | part {row : TypeSpecRow} {blob : List UInt8} {signature : TypeSig}
      {next : Token} :
      ¬ token.isNull = true → token.isIn .typeSpec →
      m.image.typeSpec? token = some row →
        m.image.blob row.signature = .ok blob →
        TypeSig.ofBytes depth blob = .ok signature →
          signature.firstToken? = some next → Needs depth m token next

theorem Module.Needs.not_isNull {depth : Nat} {m : Module} {token next : Token}
    (h : m.Needs depth token next) : ¬ token.isNull = true := by
  cases h with
  | scope hnull => exact hnull
  | part hnull => exact hnull

theorem Module.Needs.refersTo {depth : Nat} {m : Module} {token next : Token}
    (h : m.Needs depth token next) : m.RefersTo depth token next := by
  cases h with
  | scope _ isIn hrow _ _ hscope => exact .scope isIn hrow hscope
  | @part row blob signature _ _ isIn hrow hblob hsignature first =>
    exact .part isIn hrow hblob hsignature
      (signature.mem_tokens_of_firstToken? first)

/-- Where no row leads back to itself, none needs itself first. -/
theorem Module.HasNoCircle.not_needs {depth : Nat} {m : Module}
    (h : m.HasNoCircle depth) (token : Token) :
    ¬ Relation.TransGen (m.Needs depth) token token :=
  fun circle => h token (circle.lift id fun _ _ => Module.Needs.refersTo)

section
variable {registry : Registry} {memory : Memory} {m : Module} {error : Error}

/-- A signature is not known where the token that it needs first is not. -/
theorem TypeSig.resolveWith_apply_error {resolve : Resolver}
    (live : registry.held = none) {next : Token}
    (run : resolve m next registry memory = (.error error, memory))
    (signature : TypeSig) (first : signature.firstToken? = some next) :
    signature.resolveWith resolve m registry memory
      = (.error error, memory) := by
  have passes : requireTypeSystem registry memory = (.ok (), memory) :=
    requireTypeSystem_apply live
  match signature with
  | .valueType _ | .referenceType _ =>
    -- The token is the first thing that is resolved.
    cases first
    exact (bind_apply_ok passes).trans (bind_apply_error run)
  | .pinned inner =>
    exact (bind_apply_ok passes).trans
      (inner.resolveWith_apply_error live run first)
  -- The token stands inside, and what is inside is resolved first.
  | .pointer _ inner | .byRef inner | .vector _ inner | .array inner _ _
    _ | .generic inner _ =>
    exact (bind_apply_ok passes).trans
      (bind_apply_error (inner.resolveWith_apply_error live run first))

/-- A row is not known where what it needs first is not. -/
theorem Module.Needs.typeWith_apply_error {resolve : Resolver}
    (live : registry.held = none) {token next : Token}
    (needs : m.Needs registry.options.maxSignatureDepth token next)
    (run : resolve m next registry memory = (.error error, memory)) :
    m.typeWith resolve token registry memory = (.error error, memory) := by
  cases needs with
  | @scope row name namespaceName _ isIn hrow hname hnamespace hscope =>
    -- The scope of a reference.
    rw [Module.typeWith, Token.kind?_of_isIn isIn]
    show m.referencedTypeWith resolve token registry memory = _
    rw [Module.referencedTypeWith, hrow]
    dsimp only
    rw [hname, hnamespace, Token.kind?_of_isIn hscope]
    exact (bind_apply_ok rfl).trans
      ((bind_apply_ok rfl).trans (bind_apply_error run))
  | @part row blob signature _ _ isIn hrow hblob hsignature first =>
    -- A part of what a specification spells.
    have specified : m.specifiedTypeWith resolve token registry memory
        = (.error error, memory) := by
      rw [Module.specifiedTypeWith, hrow]
      dsimp only
      have spells := signature.resolveWith_apply_error live run first
      have read :
          (liftM (TypeSig.ofBytes registry.options.maxSignatureDepth blob) :
          Query TypeSig) registry memory = (.ok signature, memory) := by
        rw [hsignature]
        rfl
      rw [hblob]
      exact (bind_apply_ok rfl).trans
        ((bind_apply_ok rfl).trans ((bind_apply_ok read).trans spells))
    rw [Module.typeWith, Token.kind?_of_isIn isIn]
    exact bind_apply_error specified

/-- Where each of some rows needs another of them first, nothing is known of any
of them. -/
theorem Module.typeWithin_apply_circular (live : registry.held = none)
    {rows : Token → Prop}
    (endless : ∀ token, rows token → ∃ next,
      m.Needs registry.options.maxSignatureDepth token next ∧ rows next)
    (unknown : ∀ token, rows token →
      memory.facts.get? (.resolved m.name token) = none)
    (room : Nat) {token : Token} (h : rows token) :
    ∃ last, Module.typeWithin room m token registry memory
      = (.error (.circular m.name last), memory) := by
  induction room generalizing token with
  | zero =>
    obtain ⟨next, needs, -⟩ := endless token h
    refine ⟨token, ?_⟩
    rw [Module.typeWithin, if_neg needs.not_isNull]
    rfl
  | succ room ih =>
    obtain ⟨next, needs, hnext⟩ := endless token h
    -- What the row needs first is not known with less room.
    obtain ⟨last, run⟩ := ih hnext
    refine ⟨last, ?_⟩
    rw [Module.typeWithin_succ needs.not_isNull]
    exact rememberIf_apply_error (unknown token h)
      (needs.typeWith_apply_error live run)

/-- What is true does not depend on patience. -/
theorem Memory.IsTrue.withPatience (h : memory.IsTrue registry) (l : Nat) :
    memory.IsTrue (registry.withPatience l) where
  facts := h.facts
  methodOwners := h.methodOwners
  fieldOwners := h.fieldOwners

/-- Nothing that is true is remembered of rows that need each other first. -/
theorem Memory.IsTrue.get?_resolved_eq_none (true : memory.IsTrue registry)
    (live : registry.held = none) (proper : registry.IsProper)
    (hm : m ∈ registry.modules) {rows : Token → Prop}
    (endless : ∀ token, rows token → ∃ next,
      m.Needs registry.options.maxSignatureDepth token next ∧ rows next)
    {token : Token} (h : rows token) :
    memory.facts.get? (.resolved m.name token) = none := by
  cases known : memory.facts.get? (.resolved m.name token) with
  | none => rfl
  | some value =>
    -- It would be found where nothing is remembered, but there it is not.
    obtain ⟨l, found⟩ :=
      (true.facts _ value known trivial id Filter.tendsto_id).exists
    have there : (registry.withPatience l).module? m.name = some m :=
      proper.module?_eq_some hm
    have held : (registry.withPatience l).held = none := live
    have unknown :
        ∀ t, rows t → ({} : Memory).facts.get? (.resolved m.name t) = none := by
      simp
    obtain ⟨last, run⟩ := Module.typeWithin_apply_circular held
      endless unknown l h
    rw [id, Fact.ask_resolved there, run] at found
    cases found

/-- A token from which references lead to a circle has no answer. -/
theorem Module.type_circular (sound : registry.IsSound)
    (hm : m ∈ registry.modules) (true : memory.IsTrue registry)
    {start token : Token}
    (leads : Relation.ReflTransGen (m.Needs registry.options.maxSignatureDepth)
      start token)
    (circle : Relation.TransGen (m.Needs registry.options.maxSignatureDepth)
      token token) :
    ∃ last, (m.type start registry memory).1
      = .error (.circular m.name last) := by
  -- The rows from which the circle can be reached need each other endlessly.
  let rows (t : Token) : Prop :=
    Relation.TransGen (m.Needs registry.options.maxSignatureDepth) t token
  have endless : ∀ t, rows t →
      ∃ next, m.Needs registry.options.maxSignatureDepth t next ∧
      rows next := by
    intro t ht
    obtain ⟨next, needs, rest⟩ := Relation.TransGen.head'_iff.mp ht
    exact ⟨next, needs, circle.trans_right rest⟩
  have unknown : ∀ t, rows t → memory.facts.get? (.resolved m.name t) = none :=
    fun t ht =>
    true.get?_resolved_eq_none sound.live sound.proper hm endless ht
  obtain ⟨last, run⟩ := Module.typeWithin_apply_circular sound.live
    endless unknown registry.referenceBound (circle.trans_right leads)
  exact ⟨last, congrArg Prod.fst run⟩

end

/-! ### Sessions -/

namespace Session

variable {s : Session} {options : Options} {m : Module}

/-- Whatever a careful caller asked before, the token of a module leads to an
answer if no row of the module leads back to itself. -/
theorem IsCareful.ends_type (h : s.IsCareful options)
    (hm : m ∈ s.system.registry.modules)
    (nests : s.system.registry.NestsInDefinitions)
    (straight : m.HasNoCircle s.system.registry.options.maxSignatureDepth)
    (token : Token) :
    NotCircular (s.system.ask (m.type token)).1 :=
  Module.ends_type nests hm straight token h.isReachable.isSound
    s.system.memory h.isSettled.memory

/-- Whatever a careful caller asked before, and however many steps may be taken,
a token from which references lead to a circle has no answer. -/
theorem IsCareful.type_circular (h : s.IsCareful options)
    (hm : m ∈ s.system.registry.modules) {start token : Token} (patience : Nat)
    (leads : Relation.ReflTransGen
      (m.Needs s.system.registry.options.maxSignatureDepth) start token)
    (circle : Relation.TransGen
      (m.Needs s.system.registry.options.maxSignatureDepth) token token) :
    ∃ last, ((s.system.withPatience patience).ask (m.type start)).1
      = .error (.circular m.name last) := by
  have sound := h.isReachable.isSound
  have true := h.isSettled.memory.isTrue.withPatience patience
  exact Module.type_circular (sound.withPatience patience) hm true leads circle

end Session

end CliMetadata
