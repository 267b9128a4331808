import CliMetadata.Proofs.TypeSystem.Recurring.Bases

/-!
# Finalizers recur

Whether a type has a finalizer depends on who was met first as the owner of the
methods along its bases.  A query that asks for such methods retraces its steps
(`Query.Retraces`): from any memory that holds the owners that were known at
first, and that knows no others of the methods that the query met, it comes to
the same and meets the same methods with the same owners.

So the finalizer of a type is found again whatever is asked in between: what was
met once is remembered, and more than that does not matter.
-/

namespace CliMetadata

open Filter Query

/-! ### Owners that are met on the way -/

namespace Memory

/-- Owners of methods are added, and nothing becomes known about finalizers. -/
structure GainsOwners (memory after : Memory) : Prop where
  owners : ∀ (key : RowKey) (t : Ty), memory.methodOwners[key]? = some t →
    after.methodOwners[key]? = some t
  finalizers : ∀ t : Ty, after.facts.get? (.ofType t .finalizer)
    = memory.facts.get? (.ofType t .finalizer)

theorem GainsOwners.trans {memory more most : Memory}
    (h : memory.GainsOwners more) (h' : more.GainsOwners most) :
    memory.GainsOwners most where
  owners key t met := h'.owners key t (h.owners key t met)
  finalizers t := (h'.finalizers t).trans (h.finalizers t)

theorem SameMembers.gainsOwners {memory after : Memory}
    (h : memory.SameMembers after) :
    memory.GainsOwners after where
  owners key t met := by rwa [h.methodOwners]
  finalizers := h.finalizers

/-- A memory holds the owners known before a query, and no others of the methods
that it met. -/
structure MeetsAs (more before after : Memory) : Prop where
  holds : ∀ (key : RowKey) (t : Ty), before.methodOwners[key]? = some t →
    more.methodOwners[key]? = some t
  agrees : ∀ (key : RowKey) (t u : Ty), after.methodOwners[key]? = some t →
    more.methodOwners[key]? = some u → u = t

/-- A memory, true since a base, adds to another one just the owners that are
known after a query. -/
structure Follows (registry : Registry) (last more after base : Memory) :
    Prop where
  true : last.IsTrueSince registry base
  gains : more.GainsOwners last
  holds : ∀ (key : RowKey) (t : Ty), after.methodOwners[key]? = some t →
    last.methodOwners[key]? = some t
  fewer : ∀ (key : RowKey) (t : Ty), last.methodOwners[key]? = some t →
    more.methodOwners[key]? = some t ∨ after.methodOwners[key]? = some t

end Memory

namespace Query

variable {α β : Type} {registry : Registry} {base : Memory} {patience : Nat}

/-- The query leaves a settled memory settled, with owners added. -/
structure Leaves (registry : Registry) (base : Memory) (patience : Nat)
    (query : Query α) : Prop where
  settles : ∀ memory : Memory, memory.IsSettledSince registry base →
    (query (registry.withPatience patience) memory).2.IsSettledSince
      registry base
  gains : ∀ memory : Memory, memory.IsSettledSince registry base →
    memory.GainsOwners (query (registry.withPatience patience) memory).2

/-- What the query comes to from a settled memory, it comes to again where no
other owners are met. -/
structure Retraces (registry : Registry) (base : Memory) (patience : Nat)
    (query : Query α) : Prop extends query.Leaves registry base patience where
  again : ∀ memory : Memory, memory.IsSettledSince registry base →
    NotCircular (query (registry.withPatience patience) memory).1 →
      ∀ᶠ l in atTop, ∀ more : Memory, more.IsTrueSince registry base →
        more.MeetsAs memory (query (registry.withPatience patience) memory).2 →
          (query (registry.withPatience l) more).1
              = (query (registry.withPatience patience) memory).1 ∧
            (query (registry.withPatience l) more).2.Follows registry more
              (query (registry.withPatience patience) memory).2 base

theorem Recurs.leaves {query : Nat → Query α}
    (h : Recurs registry base patience query) :
    (query patience).Leaves registry base patience where
  settles := h.settles
  gains memory settled := (h.same memory settled).gainsOwners

theorem Leaves.bind {query : Query α} {next : α → Query β}
    (first : query.Leaves registry base patience)
    (second : ∀ a, (next a).Leaves registry base patience) :
    (query >>= next).Leaves registry base patience := by
  have leaves (memory : Memory) (settled : memory.IsSettledSince registry base)
      {after : Memory}
      (run : ((query >>= next) (registry.withPatience patience) memory).2
        = after) :
      after.IsSettledSince registry base ∧ memory.GainsOwners after := by
    -- Either way what is left is settled, and owners were only added.
    have kept := first.settles memory settled
    have gains := first.gains memory settled
    subst run
    rcases hrun : query (registry.withPatience patience) memory
      with ⟨error | a, memory'⟩
    · rw [hrun] at kept gains
      rw [bind_apply_error hrun]
      exact ⟨kept, gains⟩
    · rw [hrun] at kept gains
      rw [bind_apply_ok hrun]
      exact ⟨(second a).settles memory' kept,
        gains.trans ((second a).gains memory' kept)⟩
  exact ⟨fun memory settled => (leaves memory settled rfl).1,
    fun memory settled => (leaves memory settled rfl).2⟩

/-- A query that has nothing to do with members meets none. -/
theorem Recurs.retraces {query : Query α}
    (h : Recurs registry base patience fun _ => query) :
    query.Retraces registry base patience where
  toLeaves := h.leaves
  again memory settled ends := by
    have same := h.same memory settled
    filter_upwards [h.reaches memory settled ends] with l hl more true meets
    obtain ⟨answer, kept, left⟩ := hl more true
    refine ⟨answer, kept, left.gainsOwners, fun key t met => ?_,
      fun key t met => ?_⟩
    · rw [same.methodOwners] at met
      exact left.gainsOwners.owners key t (meets.holds key t met)
    · rw [left.methodOwners] at met
      exact .inl met

namespace Retraces

variable {query : Query α}

theorem pure (a : α) :
    (Pure.pure a : Query α).Retraces registry base patience :=
  (Recurs.pure a).retraces

theorem throw (error : Error) :
    (MonadExcept.throw error : Query α).Retraces registry base patience :=
  (Recurs.throw error).retraces

theorem ite {c : Prop} [Decidable c] {other : Query α}
    (first : c → query.Retraces registry base patience)
    (second : ¬ c → other.Retraces registry base patience) :
    (if c then query else other).Retraces registry base patience := by
  split
  exacts [first ‹_›, second ‹_›]

/-- A query that is followed by another. -/
theorem bind {next : α → Query β}
    (first : query.Retraces registry base patience)
    (second : ∀ a, (next a).Retraces registry base patience) :
    (query >>= next).Retraces registry base patience := by
  refine ⟨first.toLeaves.bind fun a => (second a).toLeaves,
    fun memory settled => ?_⟩
  have kept := first.settles memory settled
  have again := first.again memory settled
  rcases hrun : query (registry.withPatience patience) memory
    with ⟨error | a, memory'⟩
  · rw [hrun] at again
    rw [bind_apply_error hrun]
    intro ends
    filter_upwards [again ends.error_of] with l hl more true meets
    obtain ⟨answer, follows⟩ := hl more true meets
    rw [bind_apply_error (Prod.ext answer rfl)]
    exact ⟨rfl, follows⟩
  · rw [hrun] at kept again
    rw [bind_apply_ok hrun]
    intro ends
    have gains := (second a).gains memory' kept
    filter_upwards [again (.ok a), (second a).again memory' kept ends]
      with l hl hl' more true meets
    -- Owners that are met first are known in the end, so that none of them is
    -- another.
    obtain ⟨answer, follows⟩ := hl more true
      ⟨meets.holds, fun key t u met => meets.agrees key t u
        (gains.owners key t met)⟩
    have meets' : (query (registry.withPatience l) more).2.MeetsAs memory'
        (next a (registry.withPatience patience) memory').2 := by
      refine ⟨follows.holds, fun key t u met there => ?_⟩
      rcases follows.fewer key u there with there | there
      · exact meets.agrees key t u met there
      · exact Option.some.inj ((gains.owners key u there).symm.trans met)
    obtain ⟨answer', follows'⟩ := hl' _ follows.true meets'
    rw [bind_apply_ok (Prod.ext answer rfl)]
    refine ⟨answer', follows'.true, follows.gains.trans follows'.gains,
      follows'.holds,
      fun key t there => ?_⟩
    rcases follows'.fewer key t there with there | there
    · exact (follows.fewer key t there).imp_right (gains.owners key t)
    · exact .inr there

/-- A query that looks at the registry, but not at its patience. -/
theorem read_bind {next : Registry → Query α}
    (same : ∀ l, next (registry.withPatience l) = next registry)
    (h : (next registry).Retraces registry base patience) :
    (MonadReader.read >>= next).Retraces registry base patience := by
  have run (l : Nat) (memory : Memory) :
      (MonadReader.read >>= next : Query α) (registry.withPatience l) memory
        = next registry (registry.withPatience l) memory := by
    show next (registry.withPatience l) (registry.withPatience l) memory = _
    rw [same]
  refine ⟨⟨fun memory settled => ?_, fun memory settled => ?_⟩,
    fun memory settled => ?_⟩
  all_goals simp only [run]
  exacts [h.settles memory settled, h.gains memory settled,
    h.again memory settled]

end Retraces

end Query

/-! ### Methods -/

variable {registry : Registry} {base : Memory} {patience : Nat}

namespace Memory

/-- The memory after a method was met with an owner. -/
def meet (memory : Memory) (key : RowKey) (owner : Ty) : Memory :=
  { memory with methodOwners := memory.methodOwners.insert key owner }

@[simp]
theorem meet_self (memory : Memory) (key : RowKey) (owner : Ty) :
    (memory.meet key owner).methodOwners[key]? = some owner :=
  Std.HashMap.getElem?_insert_self

theorem eq_or_of_meet {memory : Memory} {key other : RowKey} {owner t : Ty}
    (h : (memory.meet key owner).methodOwners[other]? = some t) :
    key = other ∧ owner = t ∨ memory.methodOwners[other]? = some t := by
  rw [meet, Std.HashMap.getElem?_insert] at h
  split at h
  · next same => exact .inl ⟨eq_of_beq same, Option.some.inj h⟩
  · exact .inr h

section
variable {memory : Memory} {key : RowKey}
  (unmet : memory.methodOwners[key]? = none) (owner : Ty)
include unmet

theorem gainsOwners_meet : memory.GainsOwners (memory.meet key owner) :=
  ⟨getElem?_insert_of_none unmet (fun _ _ => id) owner, fun _ => rfl⟩

/-- An owner that nothing is known of is not known to the base. -/
theorem Precedes.meet (h : base.Precedes memory) :
    base.Precedes (memory.meet key owner) where
  facts := h.facts
  methodOwners other t met :=
    (gainsOwners_meet unmet owner).owners other t (h.methodOwners other t met)
  fieldOwners := h.fieldOwners

end

end Memory

/-- A method that is met with an owner has the one that is known already, or the
owner is remembered. -/
theorem retraces_ownerOf (key : RowKey) (owner : Ty) :
    (ownerOf (·.methodOwners[key]?) (fun owner memory => memory.meet key owner)
      (pure owner)).Retraces registry base patience := by
  have found {registry : Registry} {memory : Memory}
      (unmet : memory.methodOwners[key]? = none) :
      ownerOf (·.methodOwners[key]?) (fun owner memory => memory.meet key owner)
        (pure owner)
        registry memory = (.ok owner, memory.meet key owner) :=
        ownerOf_apply_ok unmet rfl
  refine ⟨⟨fun memory settled => ?_, fun memory settled => ?_⟩,
    fun memory settled _ => ?_⟩
  · cases met : memory.methodOwners[key]? with
    | some t =>
      rw [ownerOf_apply_some met]
      exact settled
    | none =>
      rw [found met]
      exact ⟨settled.precedes.meet met owner, settled.facts⟩
  · cases met : memory.methodOwners[key]? with
    | some t =>
      rw [ownerOf_apply_some met]
      exact (Memory.SameMembers.refl memory).gainsOwners
    | none =>
      rw [found met]
      exact Memory.gainsOwners_meet met owner
  · refine .of_forall fun l more true => ?_
    cases met : memory.methodOwners[key]? with
    | some t =>
      rw [ownerOf_apply_some met]
      intro meets
      rw [ownerOf_apply_some (meets.holds key t met)]
      exact ⟨rfl, true, (Memory.SameMembers.refl more).gainsOwners, meets.holds,
        fun _ _ => .inl⟩
    | none =>
      rw [found met]
      intro meets
      cases there : more.methodOwners[key]? with
      | some u =>
        -- The method was met by others, with the same owner.
        obtain rfl := meets.agrees key owner u
          (memory.meet_self key owner) there
        rw [ownerOf_apply_some there]
        refine ⟨rfl, true, (Memory.SameMembers.refl more).gainsOwners,
          fun other t known => ?_,
          fun _ _ => .inl⟩
        rcases Memory.eq_or_of_meet known with ⟨rfl, rfl⟩ | known
        · exact there
        · exact meets.holds other t known
      | none =>
        rw [found there]
        have gains := Memory.gainsOwners_meet there owner
        refine ⟨rfl, ⟨true.precedes.meet there owner, true.facts⟩, gains,
          fun other t known => ?_,
          fun other t known => ?_⟩
        · rcases Memory.eq_or_of_meet known with ⟨rfl, rfl⟩ | known
          · exact more.meet_self key owner
          · exact gains.owners other t (meets.holds other t known)
        · rcases Memory.eq_or_of_meet known with ⟨rfl, rfl⟩ | known
          · exact .inr (memory.meet_self key owner)
          · exact .inl known

theorem Module.retraces_method (m : Module) (token : Token) (owner : Ty) :
    (m.method token (some owner)).Retraces registry base patience := by
  rw [Module.method.eq_def]
  cases m.image.methodDef? token with
  | none => exact .throw _
  | some row => exact (retraces_ownerOf _ owner).bind fun _ => .pure _

theorem retraces_memberMethod (m : Module) (d : TypeDefinition) (owner : Ty)
    (token : Token) :
    (memberMethod m d owner token).Retraces registry base patience :=
  (m.retraces_method token _).bind fun _ => .ite (fun _ => .pure _) fun _ =>
    recurs_requireTypeSystem.retraces.bind fun _ => .pure _

theorem MethodFilter.recurs_accepts (filter : MethodFilter) (m : Module)
    (token : Token) :
    Recurs registry base patience fun _ => filter.accepts m token := by
  rw [MethodFilter.accepts.eq_def]
  cases filter with
  | all => exact .pure _
  | virtual =>
    dsimp only
    cases m.image.methodDef? token with
    | some row => exact .pure _
    | none => exact .throw _
  | named name =>
    dsimp only
    cases m.image.methodDef? token with
    | some row => exact (Recurs.lift _).bind fun _ => .pure _
    | none => exact .throw _

theorem TypeDefinition.recurs_row (d : TypeDefinition) (m : Module) :
    Recurs registry base patience fun _ => d.row m := by
  rw [TypeDefinition.row.eq_def]
  cases m.image.typeDef? d.token with
  | some row => exact .pure row
  | none => exact .throw _

theorem Members.retraces_find {μ : Type} {members : Members μ}
    {test : μ → Query Bool}
    (wants : ∀ token, (members.isWanted token).Retraces registry base patience)
    (makes : ∀ token, (members.member token).Retraces registry base patience)
    (tests : ∀ a, (test a).Retraces registry base patience) :
    (members.find test).Retraces registry base patience := by
  suffices rows : ∀ tokens,
      (findOf members.isWanted members.member test tokens).Retraces
        registry base patience from rows members.tokens
  intro tokens
  induction tokens with
  | nil => exact .pure _
  | cons token rest ih =>
    refine (wants token).bind fun wanted => .ite (fun _ => ?_) fun _ => ih
    refine (makes token).bind fun found => (tests found).bind fun passes => ?_
    exact .ite (fun _ => .pure _) fun _ => ih

namespace Ty

/-- What is found among the methods of a type is found there again. -/
theorem retraces_methods_find (t : Ty) (filter : MethodFilter)
    {test : Method → Query Bool}
    (tests : ∀ method, (test method).Retraces registry base patience) :
    (do (← t.methods filter).find test).Retraces registry base patience := by
  rw [Ty.methods.eq_def]
  cases t.definition? with
  | none => exact .pure none
  | some d =>
    simp only [bind_assoc]
    refine (recurs_reachModule d.module).retraces.bind fun m => ?_
    refine (d.recurs_row m).retraces.bind fun row => ?_
    exact Members.retraces_find
      (fun token => (filter.recurs_accepts m token).retraces)
      (retraces_memberMethod m d t) tests

/-! ### Calls -/

section
variable (proper : registry.IsProper)
include proper

theorem retraces_findMethod (t : Ty) (name : String)
    (wanted : Option MethodSignature) (substitution : List Ty)
    (relates : MethodSignature → MethodSignature → Bool) :
    (t.findMethod name wanted substitution relates).Retraces registry base
      patience := by
  refine t.retraces_methods_find _ fun method => ?_
  cases wanted with
  | none => exact .pure true
  | some wanted =>
    refine (method.recurs_signature proper).retraces.bind fun signature => ?_
    exact (signature.recurs_substituted proper substitution).retraces.bind
      fun _ => .pure _

theorem retraces_alongBases {α : Type} {ask : Ty → Query (Option α)}
    (asks : ∀ t, (ask t).Retraces registry base patience) (t : Ty) :
    (alongBases ask t).Retraces registry base patience := by
  suffices steps : ∀ limit room, ∀ t : Option Ty,
      (alongBasesWithin ask limit room t).Retraces registry base patience from
    .read_bind (fun _ => rfl) (steps _ _ _)
  -- The induction is on how many more bases may be asked.
  intro limit room
  induction room with
  | zero =>
    intro t
    cases t with
    | none => exact .pure none
    | some t => exact .throw _
  | succ room ih =>
    intro t
    cases t with
    | none => exact .pure none
    | some t =>
      refine (asks t).bind fun answer => ?_
      cases answer with
      | some answer => exact .pure _
      | none => exact (t.recurs_base proper).retraces.bind ih

/-- A virtual call reaches the same method again. -/
theorem retraces_dispatch (t : Ty) (declaration : Method) :
    (t.dispatch declaration).Retraces registry base patience := by
  refine declaration.recurs_name.retraces.bind fun name => ?_
  refine (declaration.recurs_signature proper).retraces.bind fun signature => ?_
  refine recurs_requireTypeSystem.retraces.bind
    fun _ => retraces_alongBases proper (fun t => ?_) t
  refine t.retraces_methods_find _ fun method => .ite
    (fun _ => .pure _) fun _ => ?_
  refine .ite (fun _ => .pure _) fun _ => ?_
  exact (method.recurs_signature proper).retraces.bind fun _ => .pure _

/-- A type has the same finalizer again. -/
theorem retraces_finalizer (t : Ty) :
    t.finalizer.Retraces registry base patience := by
  refine (t.recurs_hasBase proper).retraces.bind fun based => .ite (fun _ => ?_)
    fun _ => .pure _
  refine recurs_requireTypeSystem.retraces.bind fun _ => ?_
  refine (recurs_wellKnown .object).retraces.bind fun root => ?_
  refine (retraces_findMethod proper root _ none [] _).bind fun found => ?_
  cases found with
  | none => exact .pure _
  | some declaration =>
    refine (retraces_dispatch proper t declaration).bind fun target => ?_
    cases target with
    | none => exact t.recurs_subject.retraces.bind fun _ => .throw _
    | some target => exact .ite (fun _ => .pure _) fun _ => .pure _

end

end Ty

end CliMetadata
