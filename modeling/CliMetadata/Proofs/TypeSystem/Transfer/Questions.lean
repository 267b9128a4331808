import CliMetadata.Proofs.TypeSystem.Transfer.Flags
import CliMetadata.Proofs.TypeSystem.Transfer.Hashing

/-!
# Answers from one type system to another

Answers transfer, with two exceptions: what is known of a base without asking
for it is not meant to, and the hash of a type does so only where the types
around the definitions in it can always be found.  They transfer from a type
system that is released as well, unless they are there to be had where nothing
can be known (`Question.IsKept`).  Any question leaves the memory settled.  So
what is settled in a type system stays settled when the type system grows
(`Memory.IsSettled.grow`).
-/

namespace CliMetadata

open Filter Query

variable {gap : Gap} {before after : Registry}

/-! ### Questions -/

namespace Question

/-- A type that a question names as the owner of a member declares the
member. -/
def NamesOwners (registry : Registry) : Question → Prop
  | ofModule name (.method token owner) =>
      ∀ t ∈ owner, registry.DeclaresMethod ⟨name, token⟩ t
  | ofModule name (.field token owner) =>
    ∀ t ∈ owner, registry.DeclaresField ⟨name, token⟩ t
  | _ => True

/-- The answer is not meant to depend on what was asked before, and does not. -/
def IsSteady (modules : List Module) : Question → Prop
  | ofType _ .baseState => False
  | ofType t .hash => t.IsSteady modules
  | _ => True

/-- What is answered where nothing can be known, as if it were known. -/
def fallback? : Question → Option (List Item)
  | ofType _ .display => some [.text unreadableType]
  | ofType _ (.isWellKnown _) => some [.truth false]
  | ofType _ .layout => some [.number 0, .number 0]
  | _ => none

/-- What a released type system answers is what the live one answers.  A listing
has errors among its parts, and is looked at part by part instead. -/
def IsKept : Question → Gap → List Item → Prop
  | ofModule _ .types, _, _ | ofModule _ (.typeAt _), _, _ => False
  | ofType _ (.methods _), _, _ | ofType _ (.methodAt ..), _, _ => False
  | ofType _ .fields, _, _ | ofType _ (.fieldAt _), _, _ => False
  | question, gap, items => gap = .release ∧ question.fallback? ≠ some items

/-- Across growth, no answer is said to be kept. -/
theorem IsKept.gap_eq {question : Question} {items : List Item}
    (kept : question.IsKept gap items) :
    gap = .release := by
  unfold IsKept at kept
  split at kept
  all_goals first
    | exact kept.elim
    | exact kept.1

end Question

section
variable {α : Type} {query : Query α} {items : α → List Item}
  {fallback : Option (List Item)}

/-- An answer that is made from what a query finds. -/
theorem transfers_items_of {lasting : Gap → α → Prop}
    (h : query.Transfers gap before after lasting fun _ => query)
    (lasts : ∀ a, fallback ≠ some (items a) → lasting .release a) :
    (do return items (← query) : Query (List Item)).Transfers gap before after
      (fun gap told => gap = .release ∧ fallback ≠ some told)
        fun _ => do return items (← query) := by
  refine h.bind_of .trivial (fun _ _ => .pure _) ?_
  rintro a - lost _ _ _ ⟨⟩ ⟨rfl, known⟩
  exact lost (lasts a known)

theorem transfers_items
    (h : query.Transfers gap before after always fun _ => query) :
    (do return items (← query) : Query (List Item)).Transfers gap before after
      (fun gap told => gap = .release ∧ fallback ≠ some told)
        fun _ => do return items (← query) :=
  transfers_items_of h fun _ _ => trivial

/-- An answer that is not said to last. -/
theorem unlasting_items {lasting : Gap → α → Prop}
    (h : query.Transfers gap before after lasting fun _ => query) :
    (do return items (← query) : Query (List Item)).Transfers gap
      before after never
      fun _ => do return items (← query) :=
  h.bind_never fun _ => .pure _

end

theorem ModuleQuestion.transfers_answer (owns : after.OwnsMembers) {m : Module}
    (hm : m ∈ after.modules) (question : ModuleQuestion)
    (owners : (Question.ofModule m.name question).NamesOwners after) :
    (question.answer m).Transfers gap before after
      (Question.ofModule m.name question).IsKept
      fun _ => question.answer m := by
  cases question with
  | type token =>
    exact transfers_items_of (transfers_type m hm token) fun _ _ => nofun
  | typeNamed home text =>
    exact transfers_items_of (Module.transfers_typeNamed hm home text)
      fun _ _ => nofun
  | types => exact unlasting_items (Module.transfers_typesFrom hm 1 _)
  | typeAt position =>
    exact unlasting_items (Module.transfers_typeAt? hm position)
  | loadAll => exact transfers_items (Module.transfers_loadAll hm)
  | parameter token => exact transfers_items (m.transfers_parameter token)
  | method token owner =>
    exact transfers_items (Module.transfers_method hm token owner owners)
  | field token owner =>
    exact transfers_items (Module.transfers_field hm token owner owners)
  | entity token =>
    exact transfers_items_of (Module.transfers_entity owns hm token)
      fun _ _ => nofun
  | resolve signature =>
    exact transfers_items (Module.transfers_resolve hm signature)
  | resolveMethod signature =>
    exact transfers_items (Module.transfers_resolveMethod hm signature)

theorem TypeQuestion.transfers_answer (owns : after.OwnsMembers) {t : Ty}
    (ht : t.IsNode after.modules fun _ => True) (question : TypeQuestion)
    (steady : (Question.ofType t question).IsSteady after.modules) :
    (question.answer t).Transfers gap before after
      (Question.ofType t question).IsKept
      fun _ => question.answer t := by
  cases question with
  -- What a type is called and where it is.
  | name => exact transfers_items t.transfers_simpleName
  | namespaceName => exact transfers_items t.transfers_namespaceText
  | fullName => exact transfers_items_of t.transfers_fullName fun _ _ => nofun
  | display =>
    refine transfers_items_of t.transfers_display
      fun text readable => ⟨nofun, ?_⟩
    rintro rfl
    exact readable rfl
  | module => exact transfers_items t.transfers_module?
  | containing =>
    exact transfers_items_of t.transfers_containing fun _ _ => nofun
  -- What it derives from.
  | base => exact transfers_items t.transfers_base
  | openBase =>
    cases t with
    | definition d => exact transfers_items d.transfers_openBase
    | _ => exact .pure _
  | hasBase => exact transfers_items t.transfers_hasBase
  | baseState => exact absurd steady id
  -- Which type it is, and its flags.
  | parameters => exact transfers_items t.transfers_instantiation
  | isGenericDefinition => exact transfers_items t.transfers_isGenericDefinition
  | isWellKnown kind =>
    refine transfers_items_of (t.transfers_isWellKnown kind)
      fun answer known => ?_
    cases answer with
    | true => rfl
    | false => exact absurd rfl known
  | flags request =>
    exact transfers_items (Ty.transfers_findFlags owns ht request)
  | category => exact transfers_items t.transfers_category
  | variance => exact transfers_items t.transfers_hasVariance
  | markers => exact transfers_items t.transfers_attributeFlags
  | hasFinalizer => exact transfers_items (Ty.transfers_hasFinalizer owns ht)
  | isSealed => exact transfers_items t.transfers_isSealed
  | methods filter =>
    -- Its members, in lists that are not kept.
    refine (t.transfers_methods filter).bind_told
      (Ty.tells_methods owns ht filter) fun _ members => ?_
    exact unlasting_items (Members.transfers_all members)
  | methodAt filter position =>
    refine (t.transfers_methods filter).bind_told
      (Ty.tells_methods owns ht filter) fun _ members => ?_
    exact unlasting_items (Members.transfers_item? position members)
  | fields =>
    refine (t.transfers_fields none).bind_told (Ty.tells_fields owns ht none)
      fun _ members => ?_
    exact unlasting_items (Members.transfers_all members)
  | fieldAt position =>
    refine (t.transfers_fields none).bind_told (Ty.tells_fields owns ht none)
      fun _ members => ?_
    exact unlasting_items (Members.transfers_item? position members)
  | method text wanted substitution =>
    -- Members that are searched for.
    exact transfers_items
      (Ty.transfers_findMethod owns ht text wanted substitution _)
  | equivalentMethod text wanted substitution =>
    exact transfers_items
      (Ty.transfers_findMethod owns ht text wanted substitution _)
  | field text => exact transfers_items (Ty.transfers_fieldNamed owns ht text)
  | staticConstructor =>
    exact transfers_items (Ty.transfers_staticConstructor owns ht)
  | defaultConstructor =>
    exact transfers_items (Ty.transfers_defaultConstructor owns ht)
  | dispatch declaration =>
    exact transfers_items (Ty.transfers_dispatch owns ht declaration)
  | finalizer => exact transfers_items (Ty.transfers_finalizer owns ht)
  | nestedTypes =>
    -- Types inside it and what stands at its row.
    exact transfers_items_of t.transfers_nestedTypes fun _ _ => nofun
  | nested text =>
    exact transfers_items_of (t.transfers_nestedType text) fun _ _ => nofun
  | hasAttribute home text =>
    exact transfers_items (t.transfers_hasAttribute home text)
  | inlineLength => exact transfers_items t.transfers_inlineLength
  | layout =>
    refine transfers_items_of t.transfers_layout fun layout stated => ?_
    rintro rfl
    exact stated rfl
  | underlying => exact transfers_items (Ty.transfers_underlying owns ht)
  | hash => exact transfers_items (Ty.transfers_hash steady)
  | substituted forTypes forMethods =>
    -- Types that are made of it.
    exact transfers_items (t.transfers_substituted forTypes forMethods)
  | applied arguments =>
    exact transfers_items (transfers_instantiate t arguments)
  | shaped shape => exact transfers_items (transfers_shapeOf shape t)

/-- To look at what is known of a base leaves nothing behind. -/
theorem TypeDefinition.unlasting_baseState (hgap : gap ≠ .none)
    (d : TypeDefinition) :
    d.baseState.Transfers gap before after never fun _ => d.baseState := by
  refine .of_settled hgap fun _ _ memory settled => ?_
  -- Nothing is written, so that the memory is the same.
  suffices same : (d.baseState before memory).2 = memory by
    rw [same]
    exact settled
  have asked : Query.established? (.ofType (.definition d) .base) before memory
      = (.ok (memory.facts.get? (.ofType (.definition d) .base)), memory) := rfl
  refine (congrArg Prod.snd (bind_apply_ok asked)).trans ?_
  rcases memory.facts.get? (.ofType (.definition d) .base) with _ | _ | _
  all_goals rfl

theorem MethodQuestion.transfers_answer (method : Method)
    (question : MethodQuestion) :
    (question.answer method).Transfers gap before after
      (Question.ofMethod method question).IsKept
      fun _ => question.answer method := by
  cases question with
  | name => exact transfers_items method.transfers_name
  | module => exact transfers_items (transfers_reachModule _)
  | signature => exact transfers_items method.transfers_signature
  | parameters => exact transfers_items method.transfers_parameters
  | isConstructor => exact transfers_items method.transfers_isConstructor
  | isStaticConstructor =>
    exact transfers_items method.transfers_isStaticConstructor
  | hasAttribute home text =>
    exact transfers_items (method.transfers_hasAttribute home text)
  | viewedOn owner => exact .pure _

theorem FieldQuestion.transfers_answer (field : Field)
    (question : FieldQuestion) :
    (question.answer field).Transfers gap before after
      (Question.ofField field question).IsKept
      fun _ => question.answer field := by
  cases question with
  | name => exact transfers_items field.transfers_name
  | module => exact transfers_items (transfers_reachModule _)
  | type => exact transfers_items field.transfers_type
  | hasAttribute home text =>
    exact transfers_items (field.transfers_hasAttribute home text)
  | viewedOn owner => exact .pure _

/-! ### Answers -/

namespace Question

variable (owns : after.OwnsMembers) {question : Question}
  (nodes : AreNodes after.modules (fun _ => True) question.types)
  (owners : question.NamesOwners after)
include owns nodes owners

/-- The answer to a steady question about nodes transfers. -/
theorem transfers_answer (steady : question.IsSteady after.modules) :
    question.answer.Transfers gap before after question.IsKept
      fun _ => question.answer := by
  cases question with
  | wellKnown kind => exact transfers_items (transfers_wellKnown kind)
  | «variable» index isMethod =>
    exact transfers_items (transfers_variableOf index isMethod)
  | substituted signature types =>
    exact transfers_items (signature.transfers_substituted types)
  | ofModule name question =>
    refine .of_leads fun leads sound => .read_bind (fun _ => rfl) fun _ => ?_
    cases hm : before.module? name with
    | some m =>
      have found := leads.module?_eq_some sound.proper hm
      obtain ⟨mem, rfl⟩ := Registry.mem_of_module? found
      rw [found]
      exact ModuleQuestion.transfers_answer owns mem question owners
    | none =>
      -- A module that is not there may be added later, but then the answer is
      -- not meant to last.
      by_cases hgap : gap = .growth
      · have nothing : (Pure.pure [] : Query (List Item)).Transfers gap
            before after never
            fun _ => Pure.pure [] := .pure []
        refine (nothing.unlasting (by rw [hgap]; exact nofun)).imp_across
          fun _ kept => ?_
        cases hgap.symm.trans kept.gap_eq
      · rw [leads.module?_eq_none hgap hm]
        exact .pure _
  | ofType t question =>
    refine TypeQuestion.transfers_answer owns (nodes t ?_) question steady
    cases question with
    | _ => exact List.mem_cons_self
  | ofMethod method question =>
    exact MethodQuestion.transfers_answer method question
  | ofField field question =>
    exact FieldQuestion.transfers_answer field question

/-- Whatever is asked about nodes, what is remembered then is settled. -/
theorem unlasting_answer (hgap : gap ≠ .none) :
    question.answer.Transfers gap before after never
      fun _ => question.answer := by
  -- What transfers leaves behind what is settled; two questions remain.
  by_cases steady : question.IsSteady after.modules
  · exact .unlasting hgap (transfers_answer owns nodes owners steady)
  cases question with
  | ofType t question =>
    cases question with
    | baseState =>
      cases t with
      | definition d => exact unlasting_items (d.unlasting_baseState hgap)
      | _ => exact .pure _
    | hash => exact unlasting_items (Ty.unlasting_hash hgap t)
    | _ => exact absurd trivial steady
  | _ => exact absurd trivial steady

end Question

/-! ### Facts -/

/-- What is found of a fact lasts if it may be remembered.  Only whether a type
has a finalizer is a matter of owners. -/
theorem Fact.transfers_ask {fact : Fact}
    (owns : ∀ t, fact = .ofType t .finalizer → after.OwnsMembers)
    (steady : fact.IsSteady after.modules) {value : fact.Value}
    (allowed : fact.IsAllowed after.modules value) (roomBefore : Nat)
    {room : Nat → Nat} (large : Tendsto room atTop atTop) :
    (fact.ask roomBefore).Transfers gap before after
      (fun _ value => fact.IsAllowed after.modules value) fun l => fact.ask
      (room l) := by
  cases fact with
  | ofType t aspect =>
    cases aspect with
    | name => exact t.transfers_simpleName.imp fun _ _ _ => trivial
    | namespaceName => exact t.transfers_namespaceText.imp fun _ _ _ => trivial
    | base => exact t.transfers_base.imp fun _ _ _ => trivial
    | parameters => exact t.transfers_instantiation.imp fun _ _ _ => trivial
    | category => exact t.transfers_category.imp fun _ _ _ => trivial
    | variance => exact t.transfers_hasVariance.imp fun _ _ _ => trivial
    | finalizer =>
      exact (Ty.transfers_hasFinalizer (owns t rfl) allowed).imp
        fun _ _ _ => trivial
    | attributeFlags =>
      exact t.transfers_attributeFlags.imp fun _ _ _ => trivial
    | hash =>
      exact (Ty.transfers_hashFrom
        (TypeDefinition.transfers_hashWithin roomBefore) t steady
        large).imp fun _ _ _ => trivial
  | ofMethod method aspect =>
    cases aspect with
    | name => exact method.transfers_name.imp fun _ _ _ => trivial
    | signature => exact method.transfers_signature.imp fun _ _ _ => trivial
    | parameters => exact method.transfers_parameters.imp fun _ _ _ => trivial
  | ofField field aspect =>
    cases aspect with
    | name => exact field.transfers_name.imp fun _ _ _ => trivial
    | type => exact field.transfers_type.imp fun _ _ _ => trivial
  | resolved name token =>
    -- A token that leads nowhere may lead somewhere later, and is not
    -- remembered.
    suffices h : ((Fact.resolved name token).ask roomBefore).Transfers gap
        before after whereFound
        fun l => (Fact.resolved name token).ask (room l) from
      h.imp fun _ _ found _ => found
    refine .of_leads fun leads sound => .read fun _ => ?_
    cases hm : before.module? name with
    | some m =>
      have found (l : Nat) : (after.withPatience l).module? name = some m :=
        leads.module?_eq_some sound.proper hm
      simp only [found]
      obtain ⟨mem, -⟩ := Registry.mem_of_module?
        (leads.module?_eq_some sound.proper hm)
      exact transfers_typeWithin roomBefore large m mem token
    | none =>
      by_cases hgap : gap = .growth
      · exact .nothing hgap
      · have missing (l : Nat) : (after.withPatience l).module? name = none :=
          leads.module?_eq_none hgap hm
        simp only [missing]
        exact .pure none

/-! ### Growth -/

theorem Ty.IsSteady.of_more {modules more : List Module}
    (h : ∀ m ∈ modules, m ∈ more) {t : Ty} (steady : t.IsSteady more) :
    t.IsSteady modules :=
  fun d hd m hm => steady d hd m (h m hm)

theorem Fact.IsSteady.of_more {modules more : List Module}
    (h : ∀ m ∈ modules, m ∈ more) {fact : Fact} (steady : fact.IsSteady more) :
    fact.IsSteady modules := by
  cases fact with
  | ofType t aspect =>
    cases aspect with
    | hash => exact Ty.IsSteady.of_more h steady
    | _ => trivial
  | _ => trivial

theorem Fact.IsAllowed.more {modules more : List Module}
    (h : ∀ m ∈ modules, m ∈ more) {fact : Fact} {value : fact.Value}
    (allowed : fact.IsAllowed modules value) : fact.IsAllowed more value := by
  cases fact with
  | ofType t aspect =>
    cases aspect with
    | finalizer => exact Ty.IsNode.mono allowed h fun _ => id
    | _ => trivial
  | resolved => exact allowed
  | _ => trivial

theorem Registry.Declares.more {ownerOf : Image → Token → Option Token}
    {key : RowKey} {t : Ty} (h : before.Declares ownerOf key t)
    (more : ∀ m ∈ before.modules, m ∈ after.modules) :
    after.Declares ownerOf key t := by
  obtain ⟨m, hm, declared⟩ := h
  exact ⟨m, more m hm, declared⟩

theorem Question.NamesOwners.more {question : Question}
    (owners : question.NamesOwners before)
    (more : ∀ m ∈ before.modules, m ∈ after.modules) :
    question.NamesOwners after := by
  cases question with
  | ofModule name question =>
    cases question with
    | method | field => exact fun t ht => (owners t ht).more more
    | _ => trivial
  | _ => trivial

theorem Question.IsSteady.of_more {modules more : List Module}
    (h : ∀ m ∈ modules, m ∈ more) {question : Question}
    (steady : question.IsSteady more) : question.IsSteady modules := by
  cases question with
  | ofType t question =>
    cases question with
    | baseState => exact steady
    | hash => exact Ty.IsSteady.of_more h steady
    | _ => trivial
  | _ => trivial

/-- Patience does not decide where a registry leads. -/
theorem Registry.LeadsTo.withPatience (h : before.LeadsTo gap after) (l : Nat) :
    (before.withPatience l).LeadsTo gap after :=
  { h with }

/-- What is found of a fact where nothing is remembered is settled in a later
type system. -/
theorem Fact.IsTrue.settles {fact : Fact} {value : fact.Value}
    (told : fact.IsTrue before value) (leads : before.LeadsTo gap after)
    (sound : after.IsSound)
    (owns : ∀ t, fact = .ofType t .finalizer → after.OwnsMembers)
    (steady : fact.IsSteady after.modules)
    (allowed : fact.IsAllowed after.modules value) :
    fact.IsSettled after value := by
  intro room large
  obtain ⟨l, answer⟩ := (told id tendsto_id).exists
  exact (Fact.transfers_ask owns steady allowed l large).reaches_of_apply
    (leads.withPatience l) sound answer (.inr allowed)

/-- What is settled stays settled when a type system grows. -/
theorem Memory.IsSettled.grow {memory : Memory}
    (settled : memory.IsSettled before) (leads : before.LeadsTo gap after)
    (sound : after.IsSound) (owns : after.OwnsMembers) :
    memory.IsSettled after where
  facts fact value known steady := by
    have told :=
      (settled.facts fact value known (steady.of_more leads.modules)).isTrue
    have allowed := (settled.allowed fact value known).more leads.modules
    exact told.settles leads sound (fun _ _ => owns) steady allowed
  allowed fact value known := (settled.allowed fact value known).more
    leads.modules
  methodOwners key t known := (settled.methodOwners key t known).more
    leads.modules
  fieldOwners key t known := (settled.fieldOwners key t known).more
    leads.modules

end CliMetadata
