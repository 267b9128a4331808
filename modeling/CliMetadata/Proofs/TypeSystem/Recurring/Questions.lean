import CliMetadata.Proofs.TypeSystem.Recurring.Requests
import CliMetadata.TypeSystem.Session

/-!
# Questions leave a settled memory settled

Whatever is asked, and whichever owners of members a caller makes up on the way,
what becomes known of plain facts is found again: a question leaves a memory
settled if it was settled before (`Question.settles_answer`).  Of owners, hashes
and finalizers nothing is said.
-/

namespace CliMetadata

open Filter Query

/-! ### Queries that settle -/

namespace Query

variable {α β : Type} {registry : Registry} {base : Memory} {patience : Nat}

/-- Where the memory is settled since the base, the query leaves it so. -/
def Settles (registry : Registry) (base : Memory) (patience : Nat)
    (query : Query α) : Prop :=
  ∀ memory : Memory, memory.IsSettledSince registry base →
    (query (registry.withPatience patience) memory).2.IsSettledSince
      registry base

theorem Recurs.settling {query : Query α}
    (h : Recurs registry base patience fun _ => query) :
    query.Settles registry base patience := h.settles

theorem Leaves.settling {query : Query α}
    (h : query.Leaves registry base patience) :
    query.Settles registry base patience := h.settles

namespace Settles

variable {query : Query α}

theorem pure (a : α) : (Pure.pure a : Query α).Settles registry base patience :=
  (Recurs.pure a).settling

theorem throw (error : Error) :
    (MonadExcept.throw error : Query α).Settles registry base patience :=
  (Recurs.throw error).settling

theorem lift (result : Except Error α) :
    (liftM result : Query α).Settles registry base patience :=
  (Recurs.lift result).settling

theorem ite {c : Prop} [Decidable c] {other : Query α}
    (first : c → query.Settles registry base patience)
    (second : ¬ c → other.Settles registry base patience) :
    (if c then query else other).Settles registry base patience := by
  split
  exacts [first ‹_›, second ‹_›]

/-- A query that is followed by another, which may use what is known of the
answer. -/
theorem bind_told {next : α → Query β} {P : α → Prop}
    (first : query.Settles registry base patience)
    (told : ∀ memory a, (query (registry.withPatience patience) memory).1
      = .ok a → P a)
    (second : ∀ a, P a → (next a).Settles registry base patience) :
    (query >>= next).Settles registry base patience := by
  intro memory settled
  have kept := first memory settled
  rcases hrun : query (registry.withPatience patience) memory
    with ⟨error | a, memory'⟩
  · rw [hrun] at kept
    rw [bind_apply_error hrun]
    exact kept
  · rw [hrun] at kept
    rw [bind_apply_ok hrun]
    exact second a (told memory a (by rw [hrun])) memory' kept

/-- A query that is followed by another. -/
theorem bind {next : α → Query β} (first : query.Settles registry base patience)
    (second : ∀ a, (next a).Settles registry base patience) :
    (query >>= next).Settles registry base patience :=
  first.bind_told (fun _ _ _ => trivial) fun a _ => second a

/-- A query that looks at the registry first. -/
theorem read_bind {next : Registry → Query α}
    (h : (next (registry.withPatience patience)).Settles registry
      base patience) :
    (MonadReader.read >>= next).Settles registry base patience := h

theorem attempt (h : query.Settles registry base patience) :
    query.attempt.Settles registry base patience := by
  intro memory settled
  rw [memory_attempt]
  exact h memory settled

section
variable {fact : Fact} {isKept : fact.Value → Bool} {find : Query fact.Value}

/-- A fact of which nothing is said may be established. -/
theorem rememberIf (special : ¬ fact.IsPlain)
    (h : find.Settles registry base patience) :
    (Query.rememberIf fact isKept find).Settles registry base patience := by
  intro memory settled
  cases known : memory.facts.get? fact with
  | some value =>
    -- What is known is answered, and nothing changes.
    rw [rememberIf_apply_some known]
    exact settled
  | none =>
    have kept := h memory settled
    rcases hrun : find (registry.withPatience patience) memory
      with ⟨error | value, memory'⟩
    · rw [hrun] at kept
      rw [rememberIf_apply_error known hrun]
      exact kept
    · rw [hrun] at kept
      rw [rememberIf_apply_ok known hrun]
      dsimp only
      -- A value that is kept is noted; it is no plain fact.
      split
      · refine kept.establish ⟨?_, fun _ plain => absurd plain special⟩
        simp [settled.precedes.unknown known]
      · exact kept

end

/-- Whichever owner is remembered of a member, if there is none before. -/
theorem ownerOf {known : Memory → Option Ty} {remember : Ty → Memory → Memory}
    {owner : Query Ty} (h : owner.Settles registry base patience)
    (told : ∀ (memory : Memory) (t : Ty), base.Precedes memory →
      known base = some t → known memory = some t)
    (keeps : ∀ (memory : Memory) (t : Ty), known base = none →
      memory.IsSettledSince registry base →
      (remember t memory).IsSettledSince registry base) :
    (CliMetadata.ownerOf known remember owner).Settles registry base
      patience := by
  intro memory settled
  cases met : known memory with
  | some t =>
    rw [ownerOf_apply_some met]
    exact settled
  | none =>
    -- No owner was known at first either, for what was known is known still.
    have unmet : known base = none := by
      refine Option.eq_none_iff_forall_ne_some.mpr fun t there => ?_
      rw [told memory t settled.precedes there] at met
      cases met
    have kept := h memory settled
    rcases hrun : owner (registry.withPatience patience) memory
      with ⟨error | t, memory'⟩
    · rw [hrun] at kept
      rw [ownerOf_apply_error met hrun]
      exact kept
    · rw [hrun] at kept
      rw [ownerOf_apply_ok met hrun]
      exact keeps memory' t unmet kept

end Settles

end Query

variable {registry : Registry} {base : Memory} {patience : Nat}

/-- A query at a module that can be reached. -/
theorem settles_reachModule_bind {α : Type} {name : String}
    {next : Module → Query α}
    (h : ∀ m ∈ registry.modules, (next m).Settles registry base patience) :
    (reachModule name >>= next).Settles registry base patience :=
  (recurs_reachModule name).settling.bind_told (fun _ _ => mem_of_reachModule) h

/-! ### Modules -/

section
variable (proper : registry.IsProper) {m : Module} (hm : m ∈ registry.modules)
include proper hm

theorem Module.recurs_typeNamed (namespaceName name : String) :
    Recurs registry base patience fun _ => m.typeNamed namespaceName name :=
  Module.recurs_typeNamedWith (recurs_type proper) hm namespaceName name

theorem Module.recurs_typeOfRow (row : Nat) :
    Recurs registry base patience fun _ => m.typeOfRow row := by
  refine (recurs_type proper m hm _).bind fun found => ?_
  cases found with
  | some t => exact .pure t
  | none => exact .throw _

theorem Module.recurs_typesFrom (row count : Nat) :
    Recurs registry base patience fun _ => m.typesFrom row count := by
  induction count generalizing row with
  | zero => exact .pure _
  | succ count ih =>
    exact (Module.recurs_typeOfRow proper hm row).attempt.bind
      fun _ => (ih _).bind fun _ => .pure _

theorem Module.recurs_visitFrom (row count : Nat) :
    Recurs registry base patience fun _ => m.visitFrom row count := by
  induction count generalizing row with
  | zero => exact .pure _
  | succ count ih =>
    exact (Module.recurs_typeOfRow proper hm row).attempt.bind fun _ => ih _

theorem Module.recurs_typeAt? (position : Nat) :
    Recurs registry base patience fun _ => m.typeAt? position := by
  refine (Module.recurs_visitFrom proper hm 1 _).bind
    fun _ => .ite (fun _ => ?_) fun _ => .pure _
  exact (Module.recurs_typeOfRow proper hm _).attempt.bind fun _ => .pure _

theorem Module.recurs_loadFrom (row count : Nat) :
    Recurs registry base patience fun _ => m.loadFrom row count := by
  induction count generalizing row with
  | zero => exact .pure _
  | succ count ih =>
    exact (Module.recurs_typeOfRow proper hm row).bind fun _ => ih _

theorem Module.recurs_loadAll :
    Recurs registry base patience fun _ => m.loadAll :=
  (Module.recurs_loadFrom proper hm 1 _).bind fun _ => .pure _

omit proper hm in
theorem Module.recurs_parameter (m : Module) (token : Token) :
    Recurs registry base patience fun _ => m.parameter token :=
  (Recurs.lift _).bind fun t => .share t

theorem Module.recurs_declaredOwner (owner : Option Token)
    (ownerless : Malformation) :
    Recurs registry base patience fun _ => m.declaredOwner owner ownerless := by
  cases owner with
  | none => exact .throw _
  | some token =>
    refine (recurs_type proper m hm token).bind fun found => ?_
    cases found with
    | some t => exact .pure t
    | none => exact .throw _

/-- Whatever owner is named with a method. -/
theorem Module.settles_method (token : Token) (owner : Option Ty) :
    (m.method token owner).Settles registry base patience := by
  rw [Module.method.eq_def]
  cases m.image.methodDef? token with
  | none => exact .throw _
  | some row =>
    refine Settles.bind ?_ fun owner => .pure _
    refine .ownerOf ?_ (fun memory t precedes => precedes.methodOwners _ t)
      fun memory t unmet kept => ?_
    · cases owner with
      | some owner => exact .pure owner
      | none => exact (Module.recurs_declaredOwner proper hm _ _).settling
    · exact ⟨{ kept.precedes with
        methodOwners := Memory.getElem?_insert_of_none unmet
          kept.precedes.methodOwners t },
        kept.facts⟩

/-- Whatever owner is named with a field. -/
theorem Module.settles_field (token : Token) (owner : Option Ty) :
    (m.field token owner).Settles registry base patience := by
  rw [Module.field.eq_def]
  cases m.image.field? token with
  | none => exact .throw _
  | some row =>
    refine Settles.bind ?_ fun owner => .pure _
    refine .ownerOf ?_ (fun memory t precedes => precedes.fieldOwners _ t)
      fun memory t unmet kept => ?_
    · cases owner with
      | some owner => exact .pure owner
      | none => exact (Module.recurs_declaredOwner proper hm _ _).settling
    · exact ⟨{ kept.precedes with
        fieldOwners := Memory.getElem?_insert_of_none unmet
          kept.precedes.fieldOwners t },
        kept.facts⟩

end

/-! ### Enumerations -/

/-- An enumeration whose rows are looked at, and whose members are made, by
queries that settle. -/
structure Members.Settle {μ : Type} (registry : Registry) (base : Memory)
    (patience : Nat) (members : Members μ) : Prop where
  isWanted : ∀ token, (members.isWanted token).Settles registry base patience
  member : ∀ token, (members.member token).Settles registry base patience

namespace Members

variable {μ : Type} {members : Members μ}

theorem settle_empty : (empty : Members μ).Settle registry base patience :=
  ⟨fun _ => .pure false, fun _ => .throw _⟩

theorem Settle.settles_nextOf (h : members.Settle registry base patience)
    (tokens : List Token) :
    (nextOf members.isWanted members.member tokens).Settles registry base
      patience := by
  induction tokens with
  | nil => exact .pure _
  | cons token rest ih =>
    refine (h.isWanted token).attempt.bind fun wanted => ?_
    rcases wanted with error | _ | _
    · exact .pure _
    · exact ih
    · exact (h.member token).attempt.bind fun _ => .pure _

theorem Settle.settles_all (h : members.Settle registry base patience) :
    members.all.Settles registry base patience := by
  suffices rows : ∀ tokens,
      (allOf members.isWanted members.member tokens).Settles
        registry base patience from rows _
  intro tokens
  induction tokens with
  | nil => exact .pure _
  | cons token rest ih =>
    refine (h.isWanted token).attempt.bind fun wanted => ?_
    rcases wanted with error | _ | _
    · exact ih.bind fun _ => .pure _
    · exact ih
    · exact (h.member token).attempt.bind fun _ => ih.bind fun _ => .pure _

theorem Settle.settles_find (h : members.Settle registry base patience)
    {test : μ → Query Bool}
    (tests : ∀ a, (test a).Settles registry base patience) :
    (members.find test).Settles registry base patience := by
  suffices rows : ∀ tokens,
      (findOf members.isWanted members.member test tokens).Settles
        registry base patience from rows _
  intro tokens
  induction tokens with
  | nil => exact .pure _
  | cons token rest ih =>
    refine (h.isWanted token).bind fun wanted => .ite (fun _ => ?_) fun _ => ih
    refine (h.member token).bind fun found => (tests found).bind
      fun passes => ?_
    exact .ite (fun _ => .pure _) fun _ => ih

/-- The rows that are left are looked at in the same way. -/
theorem Settle.settles_item? (h : members.Settle registry base patience)
    (count : Nat) :
    (item? count members).Settles registry base patience := by
  -- The count goes down as the rows do, so it is about any rows.
  suffices rows : ∀ count tokens, (item? count { members with tokens }).Settles
      registry base patience from rows count members.tokens
  clear count
  intro count
  induction count with
  | zero =>
    intro tokens
    exact ((h.settles_nextOf tokens).bind fun _ => .pure _).bind
      fun _ => .pure _
  | succ count ih =>
    intro tokens
    simp only [item?, Members.next, bind_assoc]
    refine (h.settles_nextOf tokens).bind fun found => ?_
    obtain ⟨_ | item, rest⟩ := found
    · exact .pure _
    · exact ih rest

end Members

/-! ### Members of types -/

theorem recurs_acceptsField (name : Option String) (m : Module)
    (token : Token) :
    Recurs registry base patience fun _ => acceptsField name m token := by
  rw [acceptsField.eq_def]
  cases name with
  | none => exact .pure _
  | some name =>
    dsimp only
    cases m.image.field? token with
    | some row => exact (Recurs.lift _).bind fun _ => .pure _
    | none => exact .throw _

namespace Ty

section
variable {α : Type} (proper : registry.IsProper)
include proper

theorem settles_methods_bind (t : Ty) (filter : MethodFilter)
    {next : Members Method → Query α}
    (h : ∀ members : Members Method, members.Settle registry base patience →
      (next members).Settles registry base patience) :
    (t.methods filter >>= next).Settles registry base patience := by
  rw [Ty.methods.eq_def]
  cases t.definition? with
  -- A type without a definition has no rows.
  | none => exact h _ Members.settle_empty
  | some d =>
    simp only [bind_assoc]
    refine settles_reachModule_bind fun m hm => (d.recurs_row m).settling.bind
      fun row => h _ ?_
    -- Whether a row is wanted, and the member that is made of it.
    refine ⟨fun token => (filter.recurs_accepts m token).settling,
      fun token => ?_⟩
    exact (Module.settles_method proper hm token _).bind
      fun _ => .ite (fun _ => .pure _) fun _ =>
      recurs_requireTypeSystem.settling.bind fun _ => .pure _

theorem settles_fields_bind (t : Ty) (name : Option String)
    {next : Members Field → Query α}
    (h : ∀ members : Members Field, members.Settle registry base patience →
      (next members).Settles registry base patience) :
    (t.fields name >>= next).Settles registry base patience := by
  rw [Ty.fields.eq_def]
  cases t.definition? with
  | none => exact h _ Members.settle_empty
  | some d =>
    simp only [bind_assoc]
    refine settles_reachModule_bind fun m hm => (d.recurs_row m).settling.bind
      fun row => h _ ?_
    refine ⟨fun token => (recurs_acceptsField name m token).settling,
      fun token => ?_⟩
    exact (Module.settles_field proper hm token _).bind
      fun _ => .ite (fun _ => .pure _) fun _ =>
      recurs_requireTypeSystem.settling.bind fun _ => .pure _

theorem settles_fieldNamed (t : Ty) (name : String) :
    (t.fieldNamed name).Settles registry base patience :=
  t.settles_fields_bind proper _ fun _ members => members.settles_find
    fun _ => .pure true

/-! ### Methods and fields that are looked for -/

theorem settles_findMethod (t : Ty) (name : String)
    (wanted : Option MethodSignature) (substitution : List Ty)
    (relates : MethodSignature → MethodSignature → Bool) :
    (t.findMethod name wanted substitution relates).Settles registry
      base patience :=
  (t.retraces_findMethod proper name wanted substitution
    relates).toLeaves.settling

omit proper in
theorem recurs_isDefaultConstructor (proper : registry.IsProper)
    (method : Method) :
    Recurs registry base patience fun _ => isDefaultConstructor method :=
  .ite (fun _ => .pure _) fun _ => (method.recurs_signature proper).bind
    fun _ => .pure _

theorem settles_staticConstructor (t : Ty) :
    t.staticConstructor.Settles registry base patience :=
  t.settles_methods_bind proper _ fun _ members => members.settles_find
    fun _ => .pure _

theorem settles_defaultConstructor (t : Ty) :
    t.defaultConstructor.Settles registry base patience :=
  .ite (fun _ => .pure _) fun _ => t.settles_methods_bind proper _
    fun _ members =>
    members.settles_find fun method =>
      (recurs_isDefaultConstructor proper method).settling

theorem settles_alongBases {ask : Ty → Query (Option α)}
    (asks : ∀ t, (ask t).Settles registry base patience) (t : Ty) :
    (alongBases ask t).Settles registry base patience := by
  -- The induction is on how many more bases may be asked.
  suffices steps : ∀ limit room, ∀ t : Option Ty,
      (alongBasesWithin ask limit room t).Settles registry base patience
        from steps _ _ _
  intro limit room
  induction room with
  | zero =>
    intro t
    cases t with
    | none => exact .pure none
    | some t => exact .throw _
  | succ room ih =>
    intro t
    cases t with
    | none => exact .pure none
    | some t =>
      refine (asks t).bind fun answer => ?_
      cases answer with
      | some answer => exact .pure _
      | none => exact (t.recurs_base proper).settling.bind ih

theorem settles_dispatch (t : Ty) (declaration : Method) :
    (t.dispatch declaration).Settles registry base patience :=
  (t.retraces_dispatch proper declaration).toLeaves.settling

theorem settles_finalizer (t : Ty) :
    t.finalizer.Settles registry base patience :=
  (t.retraces_finalizer proper).toLeaves.settling

theorem settles_hasFinalizer (t : Ty) :
    t.hasFinalizer.Settles registry base patience :=
  .rememberIf id ((t.settles_finalizer proper).bind fun _ => .pure _)

end

end Ty

theorem MethodSignature.recurs_seenFrom (proper : registry.IsProper)
    (signature : MethodSignature) (t : Ty) :
    Recurs registry base patience fun _ => signature.seenFrom t := by
  cases t with
  | applied _ arguments => exact signature.recurs_substituted proper arguments
  | _ => exact .pure _

section
variable (proper : registry.IsProper) {m : Module} (hm : m ∈ registry.modules)
include proper hm

theorem Module.settles_inheritedMember (row : MemberRefRow) :
    (m.inheritedMember row).Settles registry base patience := by
  refine (recurs_type proper m hm row.parent).settling.bind fun found => ?_
  cases found with
  | none => exact .pure none
  | some parent =>
    refine (Settles.lift _).bind fun name => (Settles.lift _).bind
      fun blob => ?_
    refine recurs_requireTypeSystem.settling.bind
      fun _ => .ite (fun _ => ?_) fun _ => ?_
    · -- A field is looked for by its name.
      have named (t : Ty) : (t.fieldNamed name).Settles registry
          base patience :=
        t.settles_fieldNamed proper name
      exact (Ty.settles_alongBases proper named parent).bind fun _ => .pure _
    · -- A method is looked for by its name and its signature.
      refine .read_bind ((Settles.lift _).bind fun spelled => ?_)
      refine (Module.recurs_resolveMethod proper hm spelled).settling.bind
        fun signature => ?_
      refine (signature.recurs_seenFrom proper parent).settling.bind
        fun wanted => ?_
      have named (t : Ty) : (t.method name (some wanted) []).Settles registry
          base patience :=
        t.settles_findMethod proper name _ [] _
      exact (Ty.settles_alongBases proper named parent).bind fun _ => .pure _

theorem Module.settles_referencedMember (token : Token) :
    (m.referencedMember token).Settles registry base patience := by
  simp only [Module.referencedMember]
  cases m.image.memberRef? token with
  | none => exact .throw _
  | some row =>
    refine .ite (fun _ => ?_) fun _ => .ite
      (fun _ => (Recurs.throw_bind _ _).settling) fun _ => ?_
    · exact (Module.settles_method proper hm row.parent none).bind
        fun _ => .pure _
    · exact Module.settles_inheritedMember proper hm row

theorem Module.settles_entity (token : Token) :
    (m.entity token).Settles registry base patience := by
  simp only [Module.entity]
  cases token.kind? with
  | none => exact .throw _
  | some kind =>
    cases kind with
    | typeDef | typeRef | typeSpec =>
      exact (recurs_type proper m hm token).settling.bind fun _ => .pure _
    | genericParam =>
      exact (m.recurs_parameter token).settling.bind fun _ => .pure _
    | methodDef =>
      exact (Module.settles_method proper hm token none).bind fun _ => .pure _
    | field =>
      exact (Module.settles_field proper hm token none).bind fun _ => .pure _
    | memberRef => exact Module.settles_referencedMember proper hm token
    | _ => exact .throw _

end

/-! ### What is said of types -/

section
variable (proper : registry.IsProper)
include proper

theorem TypeDefinition.recurs_containing (d : TypeDefinition) :
    Recurs registry base patience fun _ => d.containing :=
  d.recurs_containingWith (recurs_type proper)

omit proper in
theorem TypeDefinition.settles_baseState (d : TypeDefinition) :
    d.baseState.Settles registry base patience := by
  have looks : (established? (.ofType (.definition d) .base)).Settles registry
      base patience :=
    fun _ settled => settled
  refine looks.bind fun known => ?_
  rcases known with _ | _ | base
  all_goals exact .pure _

namespace Ty

theorem recurs_containing (t : Ty) :
    Recurs registry base patience fun _ => t.containing := by
  simp only [containing]
  cases t.definition? with
  | none => exact .pure none
  | some d => exact d.recurs_containing proper

theorem recurs_fullName (t : Ty) :
    Recurs registry base patience fun _ => t.fullName :=
  t.recurs_fullNameWith (recurs_type proper)

theorem recurs_nestedType (t : Ty) (name : String) :
    Recurs registry base patience fun _ => t.nestedType name :=
  t.recurs_nestedTypeWith (recurs_type proper) name

omit proper in
theorem recurs_isGenericDefinition (t : Ty) :
    Recurs registry base patience fun _ => t.isGenericDefinition := by
  cases t with
  | definition d => exact d.recurs_parameters.bind fun _ => .pure _
  | applied | parameter | var | shaped => exact .pure _

omit proper in
theorem recurs_isWellKnown (t : Ty) (kind : WellKnown) :
    Recurs registry base patience fun _ => t.isWellKnown kind := by
  refine .read_bind (fun _ => rfl) (.ite (fun _ => .pure _) fun _ => ?_)
  exact (recurs_wellKnown kind).attempt.bind fun _ => .pure _

theorem recurs_isSealed (t : Ty) :
    Recurs registry base patience fun _ => t.isSealed := by
  rw [isSealed.eq_def]
  cases t.definition? with
  | some d => exact .pure _
  | none =>
    exact .ite (fun _ => .pure _) fun _ => (t.recurs_category proper).bind
      fun _ => .pure _

theorem recurs_inlineLength (t : Ty) :
    Recurs registry base patience fun _ => t.inlineLength := by
  refine (t.recurs_attributeFlags proper).bind fun flags => .ite
    (fun _ => ?_) fun _ => ?_
  · cases t.definition? with
    | none => exact .pure _
    | some d =>
      refine (recurs_reachModule _).bind fun m => (Recurs.lift _).bind
        fun found => ?_
      cases found with
      | none => exact .pure _
      | some row =>
        exact .read_bind (fun _ => rfl) ((Recurs.lift _).bind fun _ => .pure _)
  · exact (t.recurs_fullName proper).bind fun _ => .throw_bind _ _

theorem settles_underlying (t : Ty) :
    t.underlying.Settles registry base patience := by
  refine (t.recurs_category proper).settling.bind fun category => .ite
    (fun _ => .pure _) fun _ => ?_
  refine t.settles_fields_bind proper none fun members settle => ?_
  refine (settle.settles_find fun _ => .pure _).bind fun stored => ?_
  cases stored with
  | some field => exact (field.recurs_type proper).settling
  | none => exact t.recurs_subject.settling.bind fun _ => .throw _

omit proper in
theorem recurs_layout (t : Ty) :
    Recurs registry base patience fun _ => t.layout := by
  rw [layout.eq_def]
  cases t.definition? with
  | none => exact .pure _
  | some d =>
    refine (recurs_reachModule d.module).attempt.bind fun result => ?_
    cases result with
    | error _ => exact .pure _
    | ok m =>
      dsimp only
      cases m.image.layoutOf? d.token with
      | some row => exact .pure _
      | none => exact .pure _

theorem recurs_nestedTypes (t : Ty) :
    Recurs registry base patience fun _ => t.nestedTypes := by
  have each {m : Module} (hm : m ∈ registry.modules) (tokens : List Token) :
      Recurs registry base patience fun _ => typesOf m tokens := by
    induction tokens with
    | nil => exact .pure _
    | cons token rest ih =>
      exact (recurs_type proper m hm token).bind fun _ => ih.bind
        fun _ => .pure _
  rw [nestedTypes.eq_def]
  cases t.definition? with
  | none => exact .pure _
  | some d => exact recurs_reachModule_bind fun m hm => each hm _

omit proper in
theorem recurs_hasAttribute (t : Ty) (namespaceName name : String) :
    Recurs registry base patience fun _ => t.hasAttribute
      namespaceName name := by
  rw [hasAttribute.eq_def]
  cases t.definition? with
  | none => exact .pure _
  | some d => exact (recurs_reachModule _).bind fun _ => .lift _

end Ty

end

/-! ### Hashes -/

namespace Ty

mutual

theorem settles_hashFrom {hashOf : TypeDefinition → Query UInt32}
    (hashes : ∀ d, (hashOf d).Settles registry base patience) :
    (t : Ty) → (t.hashFrom hashOf).Settles registry base patience
  | .definition d => hashes d
  | .applied d arguments =>
    .rememberIf id <| (hashes d).bind fun _ =>
      (settles_hashesFrom hashes arguments).bind fun _ => .pure _
  | .parameter p =>
    .rememberIf id (p.recurs_simpleName.settling.bind fun _ => .pure _)
  | .var .. => .pure _
  | .shaped shape element => by
    refine .rememberIf id ((settles_hashFrom hashes element).bind
      fun hash => ?_)
    cases shape
    all_goals exact .pure _

theorem settles_hashesFrom {hashOf : TypeDefinition → Query UInt32}
    (hashes : ∀ d, (hashOf d).Settles registry base patience) :
    (ts : List Ty) → (Ty.hashesFrom hashOf ts).Settles registry base patience
  | [] => .pure _
  | t :: rest =>
    (settles_hashFrom hashes t).bind fun _ =>
      (settles_hashesFrom hashes rest).bind fun _ => .pure _

end

end Ty

section
variable (proper : registry.IsProper)
include proper

theorem TypeDefinition.settles_hashWithin (room : Nat) (d : TypeDefinition) :
    (d.hashWithin room).Settles registry base patience := by
  induction room generalizing d with
  | zero => exact .throw _
  | succ room ih =>
    refine .rememberIf id (d.recurs_simpleName.settling.bind fun name => ?_)
    refine (d.recurs_containing proper).settling.bind fun outer => ?_
    cases outer with
    | some outer => exact (Ty.settles_hashFrom ih outer).bind fun _ => .pure _
    | none => exact d.recurs_namespaceText.settling.bind fun _ => .pure _

theorem Ty.settles_hash (t : Ty) : t.hash.Settles registry base patience :=
  .read_bind (t.settles_hashFrom (TypeDefinition.settles_hashWithin proper _))

end

/-! ### Questions -/

section
variable (proper : registry.IsProper)
include proper

theorem ModuleQuestion.settles_answer {m : Module} (hm : m ∈ registry.modules)
    (question : ModuleQuestion) :
    (question.answer m).Settles registry base patience := by
  cases question with
  | type token =>
    exact (recurs_type proper m hm token).settling.bind fun _ => .pure _
  | typeNamed home text =>
    exact (Module.recurs_typeNamed proper hm home text).settling.bind
      fun _ => .pure _
  | types =>
    exact (Module.recurs_typesFrom proper hm 1 _).settling.bind fun _ => .pure _
  | typeAt position =>
    exact (Module.recurs_typeAt? proper hm position).settling.bind
      fun _ => .pure _
  | loadAll =>
    exact (Module.recurs_loadAll proper hm).settling.bind fun _ => .pure _
  | parameter token =>
    exact (m.recurs_parameter token).settling.bind fun _ => .pure _
  | method token owner =>
    exact (Module.settles_method proper hm token owner).bind fun _ => .pure _
  | field token owner =>
    exact (Module.settles_field proper hm token owner).bind fun _ => .pure _
  | entity token =>
    exact (Module.settles_entity proper hm token).bind fun _ => .pure _
  | resolve signature =>
    exact (Module.recurs_resolve proper hm signature).settling.bind
      fun _ => .pure _
  | resolveMethod signature =>
    exact (Module.recurs_resolveMethod proper hm signature).settling.bind
      fun _ => .pure _

theorem TypeQuestion.settles_answer (t : Ty) (question : TypeQuestion) :
    (question.answer t).Settles registry base patience := by
  cases question with
  -- What a type is called and where it is.
  | name => exact t.recurs_simpleName.settling.bind fun _ => .pure _
  | namespaceName => exact t.recurs_namespaceText.settling.bind fun _ => .pure _
  | fullName => exact (t.recurs_fullName proper).settling.bind fun _ => .pure _
  | display => exact (t.recurs_display proper).settling.bind fun _ => .pure _
  | module => exact t.recurs_module?.settling.bind fun _ => .pure _
  | containing =>
    exact (t.recurs_containing proper).settling.bind fun _ => .pure _
  -- What it derives from.
  | base => exact (t.recurs_base proper).settling.bind fun _ => .pure _
  | openBase =>
    cases t with
    | definition d =>
      exact (d.recurs_openBase proper).settling.bind fun _ => .pure _
    | _ => exact .pure _
  | hasBase => exact (t.recurs_hasBase proper).settling.bind fun _ => .pure _
  | baseState =>
    cases t with
    | definition d => exact d.settles_baseState.bind fun _ => .pure _
    | _ => exact .pure _
  -- What it is applied to and which type it is.
  | parameters => exact t.recurs_instantiation.settling.bind fun _ => .pure _
  | isGenericDefinition =>
    exact t.recurs_isGenericDefinition.settling.bind fun _ => .pure _
  | isWellKnown kind =>
    exact (t.recurs_isWellKnown kind).settling.bind fun _ => .pure _
  | flags request =>
    -- Its flags.
    have settles : (t.findFlags request).Settles registry base patience :=
      fun _ => t.settles_findFlags proper patience request
    exact settles.bind fun _ => .pure _
  | category => exact (t.recurs_category proper).settling.bind fun _ => .pure _
  | variance => exact t.recurs_hasVariance.settling.bind fun _ => .pure _
  | markers =>
    exact (t.recurs_attributeFlags proper).settling.bind fun _ => .pure _
  | hasFinalizer => exact (t.settles_hasFinalizer proper).bind fun _ => .pure _
  | isSealed => exact (t.recurs_isSealed proper).settling.bind fun _ => .pure _
  | methods filter =>
    -- Its members.
    exact t.settles_methods_bind proper filter
      fun _ settle => settle.settles_all.bind fun _ => .pure _
  | methodAt filter position =>
    exact t.settles_methods_bind proper filter fun _ settle =>
      (settle.settles_item? position).bind fun _ => .pure _
  | fields =>
    exact t.settles_fields_bind proper none fun _ settle =>
      settle.settles_all.bind fun _ => .pure _
  | fieldAt position =>
    exact t.settles_fields_bind proper none fun _ settle =>
      (settle.settles_item? position).bind fun _ => .pure _
  | method text wanted substitution | equivalentMethod text wanted substitution =>
    exact (t.settles_findMethod proper text wanted substitution _).bind
      fun _ => .pure _
  | field text => exact (t.settles_fieldNamed proper text).bind fun _ => .pure _
  | staticConstructor =>
    exact (t.settles_staticConstructor proper).bind fun _ => .pure _
  | defaultConstructor =>
    exact (t.settles_defaultConstructor proper).bind fun _ => .pure _
  | dispatch declaration =>
    exact (t.settles_dispatch proper declaration).bind fun _ => .pure _
  | finalizer => exact (t.settles_finalizer proper).bind fun _ => .pure _
  | nestedTypes =>
    -- Types inside it and what stands at its row.
    exact (t.recurs_nestedTypes proper).settling.bind fun _ => .pure _
  | nested text =>
    exact (t.recurs_nestedType proper text).settling.bind fun _ => .pure _
  | hasAttribute home text =>
    exact (t.recurs_hasAttribute home text).settling.bind fun _ => .pure _
  | inlineLength =>
    exact (t.recurs_inlineLength proper).settling.bind fun _ => .pure _
  | layout => exact t.recurs_layout.settling.bind fun _ => .pure _
  | underlying => exact (t.settles_underlying proper).bind fun _ => .pure _
  | hash => exact (t.settles_hash proper).bind fun _ => .pure _
  | substituted forTypes forMethods =>
    -- Types that are made of it.
    exact (t.recurs_substituted proper forTypes forMethods).settling.bind
      fun _ => .pure _
  | applied arguments =>
    have recurs : Recurs registry base patience
        fun _ => instantiate t arguments :=
      recurs_instantiateWith (recurs_type proper) t arguments
    exact recurs.settling.bind fun _ => .pure _
  | shaped shape =>
    exact (recurs_shapeOf shape t).settling.bind fun _ => .pure _

theorem MethodQuestion.settles_answer (method : Method)
    (question : MethodQuestion) :
    (question.answer method).Settles registry base patience := by
  cases question with
  | name => exact method.recurs_name.settling.bind fun _ => .pure _
  | module => exact (recurs_reachModule _).settling.bind fun _ => .pure _
  | signature =>
    exact (method.recurs_signature proper).settling.bind fun _ => .pure _
  | parameters => exact method.recurs_parameters.settling.bind fun _ => .pure _
  | isConstructor | isStaticConstructor =>
    refine Settles.bind (.ite (fun _ => .pure _) fun _ => ?_) fun _ => .pure _
    exact method.recurs_name.settling.bind fun _ => .pure _
  | hasAttribute home text =>
    exact ((recurs_reachModule _).bind fun _ => .lift _).settling.bind
      fun _ => .pure _
  | viewedOn owner => exact .pure _

theorem FieldQuestion.settles_answer (field : Field)
    (question : FieldQuestion) :
    (question.answer field).Settles registry base patience := by
  cases question with
  | name => exact field.recurs_name.settling.bind fun _ => .pure _
  | module => exact (recurs_reachModule _).settling.bind fun _ => .pure _
  | type => exact (field.recurs_type proper).settling.bind fun _ => .pure _
  | hasAttribute home text =>
    exact ((recurs_reachModule _).bind fun _ => .lift _).settling.bind
      fun _ => .pure _
  | viewedOn owner => exact .pure _

/-- Any question leaves a settled memory settled. -/
theorem Question.settles_answer (question : Question) :
    question.answer.Settles registry base patience := by
  cases question with
  | wellKnown kind =>
    exact (recurs_wellKnown kind).settling.bind fun _ => .pure _
  | «variable» index isMethod =>
    exact (Recurs.share _).settling.bind fun _ => .pure _
  | substituted signature types =>
    exact (signature.recurs_substituted proper types).settling.bind
      fun _ => .pure _
  | ofModule name question =>
    refine .read_bind ?_
    cases there : registry.module? name with
    | none =>
      -- A module that is missing is missing with any patience.
      rw [show (registry.withPatience patience).module? name = none from there]
      exact .pure _
    | some m =>
      rw [show (registry.withPatience patience).module? name
        = some m from there]
      exact question.settles_answer proper (Registry.mem_of_module? there).1
  | ofType t question => exact question.settles_answer proper t
  | ofMethod method question => exact question.settles_answer proper method
  | ofField field question => exact question.settles_answer proper field

end

end CliMetadata
