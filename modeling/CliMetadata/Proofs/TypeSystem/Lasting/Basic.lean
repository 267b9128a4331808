import CliMetadata.Proofs.TypeSystem.Transfer.Basic

/-!
# What is found is found again

A live type system forgets nothing: queries only add to what is remembered
(`Memory.Precedes`), and modules and well-known types are added and never
replaced (`Registry.GrowsInto`).  So a query that is asked again, at any later
time, meets all that it met or left behind the first time.

That it then gives the same answer is `Query.Lasts`.  Of a fact that is
remembered this needs no argument, as long as the query that found it only adds.
What is not remembered is found anew from what is.  No answer needs to be right
for this: a type system may remember what it would not find now, and holds to
it.

An answer that nothing is found may be given up when a module is added.  So
there are three kinds of queries: all answers stay (`Query.Stays`), what is
found stays (`Query.Finds`), and nothing is said of the answer (`Query.Adds`).
-/

namespace CliMetadata

/-! ### Later type systems -/

/-- What is remembered here is remembered there. -/
structure Memory.Precedes (memory more : Memory) : Prop where
  facts : ∀ fact value, memory.facts.get? fact = some value →
    more.facts.get? fact = some value
  methodOwners : ∀ (key : RowKey) (t : Ty), memory.methodOwners[key]? = some t →
    more.methodOwners[key]? = some t
  fieldOwners : ∀ (key : RowKey) (t : Ty), memory.fieldOwners[key]? = some t →
    more.fieldOwners[key]? = some t

namespace Memory

variable {memory more most : Memory}

@[refl]
theorem Precedes.refl (memory : Memory) : memory.Precedes memory where
  facts _ _ := id
  methodOwners _ _ := id
  fieldOwners _ _ := id

theorem Precedes.trans (h : memory.Precedes more) (h' : more.Precedes most) :
    memory.Precedes most where
  facts fact value known := h'.facts fact value (h.facts fact value known)
  methodOwners key t met := h'.methodOwners key t (h.methodOwners key t met)
  fieldOwners key t met := h'.fieldOwners key t (h.fieldOwners key t met)

/-- A fact may be established if nothing else was known of it. -/
theorem Precedes.establish (h : memory.Precedes more) {fact : Fact}
    {value : fact.Value}
    (agrees : ∀ known, memory.facts.get? fact = some known → value = known) :
    memory.Precedes { more with facts := more.facts.insert fact value } where
  facts other known hknown := by
    rw [Std.DHashMap.get?_insert]
    split
    · next same =>
      obtain rfl := eq_of_beq same
      exact congrArg some (agrees known hknown)
    · exact h.facts other known hknown
  methodOwners := h.methodOwners
  fieldOwners := h.fieldOwners

/-- An owner may be remembered if the member was not met before. -/
theorem getElem?_insert_of_none {before owners : Std.HashMap RowKey Ty}
    {key : RowKey} (unmet : before[key]? = none)
    (h : ∀ (key : RowKey) (t : Ty), before[key]? = some t →
      owners[key]? = some t)
    (owner : Ty) (other : RowKey) (t : Ty) (met : before[other]? = some t) :
    (owners.insert key owner)[other]? = some t := by
  rw [Std.HashMap.getElem?_insert]
  split
  · next same =>
    rw [eq_of_beq same, met] at unmet
    cases unmet
  · exact h other t met

end Memory

/-- A live registry that knows what another one knew. -/
structure Registry.GrowsInto (registry later : Registry) : Prop where
  options : later.options = registry.options
  modules : ∀ name m, registry.module? name = some m →
    later.module? name = some m
  wellKnown : ∀ types, registry.wellKnown = some types →
    later.wellKnown = some types
  live : later.held = none

namespace Registry.GrowsInto

variable {registry later latest : Registry}

theorem refl (live : registry.held = none) : registry.GrowsInto registry where
  options := rfl
  modules _ _ := id
  wellKnown _ := id
  live := live

theorem trans (h : registry.GrowsInto later) (h' : later.GrowsInto latest) :
    registry.GrowsInto latest where
  options := h'.options.trans h.options
  modules name m found := h'.modules name m (h.modules name m found)
  wellKnown types known := h'.wellKnown types (h.wellKnown types known)
  live := h'.live

end Registry.GrowsInto

/-! ### Queries that are asked again -/

namespace Query

variable {α β : Type}

/-- The query only adds to what is remembered, and an answer that lasts is given
again at any later time. -/
structure Lasts (query : Query α) (lasting : α → Prop) : Prop where
  adds : ∀ (registry : Registry) (memory : Memory),
    memory.Precedes (query registry memory).2
  again : ∀ (registry : Registry) (memory : Memory) (a : α),
    (query registry memory).1 = .ok a →
    lasting a → ∀ (later : Registry) (more : Memory), registry.GrowsInto later →
      (query registry memory).2.Precedes more → (query later more).1 = .ok a

/-- All answers last. -/
abbrev Stays (query : Query α) : Prop := query.Lasts fun _ => True

/-- What is found lasts; that nothing is found may not. -/
abbrev Finds (query : Query (Option α)) :
    Prop := query.Lasts fun found => found.isSome

/-- The query adds to what is remembered, whatever becomes of its answer. -/
abbrev Adds (query : Query α) : Prop := query.Lasts fun _ => False

namespace Lasts

variable {query : Query α} {lasting lasting' : α → Prop} {P : β → Prop}

theorem imp (h : query.Lasts lasting) (fewer : ∀ a, lasting' a → lasting a) :
    query.Lasts lasting' where
  adds := h.adds
  again registry memory a answer lasts :=
  h.again registry memory a answer (fewer a lasts)

theorem adding (h : query.Lasts lasting) :
    query.Adds := h.imp fun _ => False.elim

/-- None of the answers is of the kind that lasts. -/
theorem of_lost (h : query.Adds)
    (lost : ∀ registry memory a, (query registry memory).1 = .ok a →
      ¬ lasting a) :
    query.Lasts lasting where
  adds := h.adds
  again registry memory a answer lasts :=
  absurd lasts (lost registry memory a answer)

theorem of_fails (h : query.Adds) (fails : query.Fails) : query.Lasts lasting :=
  h.of_lost fun registry memory a answer => absurd answer
    (fails registry memory a)

theorem pure (a : α) : (Pure.pure a : Query α).Lasts lasting where
  adds _ memory := .refl memory
  again _ _ _ answer _ _ _ _ _ := answer

theorem throw (error : Error) :
    (MonadExcept.throw error : Query α).Lasts lasting where
  adds _ memory := .refl memory
  again _ _ _ answer := by cases answer

/-- What would follow an error does not matter. -/
theorem throw_bind (error : Error) (next : α → Query β) :
    ((MonadExcept.throw error : Query α) >>= next).Lasts P where
  adds _ memory := .refl memory
  again _ _ _ answer := by cases answer

/-- A result that needs no type system. -/
theorem lift (result : Except Error α) :
    (liftM result : Query α).Lasts lasting := by
  cases result with
  | error error => exact throw error
  | ok a => exact pure a

theorem ite {c : Prop} [Decidable c] {other : Query α}
    (first : c → query.Lasts lasting) (second : ¬ c → other.Lasts lasting) :
    (if c then query else other).Lasts lasting := by
  split
  exacts [first ‹_›, second ‹_›]

/-- A query that is followed by another.  Where the first answer does not last,
nor does what follows it. -/
theorem bind_of {next : α → Query β} (first : query.Lasts lasting)
    (second : ∀ registry memory a, (query registry memory).1 = .ok a →
      (next a).Lasts P)
    (lost : ∀ a, ¬ lasting a → ∀ registry memory b,
      (next a registry memory).1 = .ok b → ¬ P b) :
    (query >>= next).Lasts P where
  adds registry memory := by
    have kept := first.adds registry memory
    rcases hrun : query registry memory with ⟨error | a, memory'⟩
    · rw [hrun] at kept
      rw [bind_apply_error hrun]
      exact kept
    · rw [hrun] at kept
      rw [bind_apply_ok hrun]
      exact kept.trans
        ((second registry memory a (by rw [hrun])).adds registry memory')
  again registry memory b answer lasts later more grows precedes := by
    rcases hrun : query registry memory with ⟨error | a, memory'⟩
    · rw [bind_apply_error hrun] at answer
      cases answer
    · rw [bind_apply_ok hrun] at answer precedes
      have follows := second registry memory a (by rw [hrun])
      by_cases first_lasts : lasting a
      · -- All that the first query left is there still, and so it is answered
        -- as before.
        have left : (query registry memory).2.Precedes more := by
          rw [hrun]
          exact (follows.adds registry memory').trans precedes
        have same := first.again registry memory a
          (by rw [hrun]) first_lasts later more grows left
        rw [bind_apply_ok (Prod.ext same rfl)]
        exact follows.again registry memory' b answer lasts later _ grows
          (precedes.trans (first.adds later more))
      · exact absurd lasts (lost a first_lasts registry memory' b answer)

/-- A query all of whose answers stay, followed by another that may use what was
answered. -/
theorem bind_told {next : α → Query β} (first : query.Stays)
    (second : ∀ registry memory a, (query registry memory).1 = .ok a →
      (next a).Lasts P) :
    (query >>= next).Lasts P :=
  first.bind_of second fun _ lost => absurd trivial lost

/-- A query all of whose answers stay, followed by another. -/
theorem bind {next : α → Query β} (first : query.Stays)
    (second : ∀ a, (next a).Lasts P) :
    (query >>= next).Lasts P :=
  first.bind_told fun _ _ a _ => second a

/-- A query that is followed by one of whose answer nothing is said. -/
theorem bind_adds {next : α → Query β} (first : query.Lasts lasting)
    (second : ∀ a, (next a).Adds) : (query >>= next).Adds :=
  first.bind_of (fun _ _ a _ => second a) fun _ _ _ _ _ _ => id

/-- A query that is followed by what fails. -/
theorem bind_fails {next : α → Query β} (first : query.Lasts lasting)
    (second : ∀ a, (next a).Adds) (fails : ∀ a, (next a).Fails) :
    (query >>= next).Lasts P :=
  (first.bind_adds second).of_fails (.bind fails)

/-- A query that is followed by an error. -/
theorem bind_throw {error : α → Error} (first : query.Lasts lasting) :
    (query >>= fun a => MonadExcept.throw (error a) : Query β).Lasts P :=
  first.bind_fails (fun a => throw (error a)) fun a => .throw (error a)

/-- A query that has to find something. -/
theorem bind_required {query : Query (Option α)} {next : Option α → Query β}
    (first : query.Finds) (found : ∀ a, (next (some a)).Lasts P)
    (missing : (next none).Adds) (fails : (next none).Fails) :
    (query >>= next).Lasts P := by
  refine first.bind_of (fun _ _ a _ => ?_)
    fun a lost registry memory b answer => ?_
  · cases a with
    | some a => exact found a
    | none => exact missing.of_fails fails
  · obtain rfl := Option.not_isSome_iff_eq_none.mp lost
    exact absurd answer (fails registry memory b)

/-- Where nothing is found by the first query, nothing is found in the end. -/
theorem bind_found {query : Query (Option α)}
    {next : Option α → Query (Option β)} (first : query.Finds)
    (found : ∀ a, (next (some a)).Finds)
    (nothing : next none = Pure.pure none) : (query >>= next).Finds := by
  refine first.bind_of (fun _ _ a _ => ?_)
    fun a lost registry memory b answer => ?_
  · cases a with
    | some a => exact found a
    | none =>
      rw [nothing]
      exact .pure none
  · obtain rfl := Option.not_isSome_iff_eq_none.mp lost
    rw [nothing] at answer
    cases answer
    exact Bool.false_ne_true

/-- A query that looks at the registry first. -/
theorem read_bind {next : Registry → Query α}
    (h : ∀ registry, (next registry).Lasts lasting)
    (same : ∀ (registry : Registry) (memory : Memory) (a : α),
      (next registry registry memory).1 = .ok a → lasting a →
      ∀ later : Registry, registry.GrowsInto later →
      next later = next registry) :
    (MonadReader.read >>= next).Lasts lasting where
  adds registry := (h registry).adds registry
  again registry memory a answer lasts later more grows precedes := by
    have run : (MonadReader.read >>= next : Query α) later more
        = next registry later more := by
      show next later later more = next registry later more
      rw [same registry memory a answer lasts later grows]
    rw [run]
    exact (h registry).again registry memory a answer lasts later more
      grows precedes

/-- A query that looks at the options first, which never change. -/
theorem read_options_bind {next : Registry → Query α}
    (h : ∀ registry, (next registry).Lasts lasting)
    (same : ∀ registry later : Registry, later.options = registry.options →
      next later = next registry) :
    (MonadReader.read >>= next).Lasts lasting :=
  read_bind h fun registry _ _ _ _ later grows =>
    same registry later grows.options

/-- A query that looks at the registry, followed by one of whose answer nothing
is said. -/
theorem read_adds {next : Registry → Query α}
    (h : ∀ registry, (next registry).Adds) :
    (MonadReader.read >>= next).Adds :=
  read_bind h fun _ _ _ _ => False.elim

theorem attempt (h : query.Lasts lasting) :
    query.attempt.Lasts fun result => ∃ a, result = .ok a ∧ lasting a where
  adds registry memory := by
    have kept := h.adds registry memory
    rw [Query.attempt]
    split
    all_goals
      next hrun =>
      rw [hrun] at kept
      exact kept
  again registry memory result answer lasts later more grows precedes := by
    obtain ⟨a, rfl, lasts⟩ := lasts
    rw [Query.attempt] at answer precedes
    split at answer
    · -- A circle is no answer.
      cases answer
    · -- What was answered under the attempt is answered again.
      next hrun =>
      cases answer
      rw [hrun] at precedes
      have same := h.again registry memory a (by rw [hrun]) lasts
        later more grows (by rw [hrun]; exact precedes)
      rw [attempt_apply (Prod.ext same rfl) (by rintro _ _ ⟨⟩)]

/-! ### Facts, sharing and owners -/

section
variable {fact : Fact} {isKept : fact.Value → Bool} {find : Query fact.Value}

/-- What is known of a fact is not changed by asking for it. -/
theorem established? (fact : Fact) : (Query.established? fact).Adds where
  adds _ memory := .refl memory
  again _ _ _ _ := False.elim

/-- What is kept of a fact is established. -/
theorem established_of_rememberIf {registry : Registry} {memory : Memory}
    {value : fact.Value}
    (answer : (Query.rememberIf fact isKept find registry memory).1 = .ok value)
    (keeps : isKept value) :
    (Query.rememberIf fact isKept find registry memory).2.facts.get? fact
      = some value := by
  -- What is known is answered, and known behind.
  cases known : memory.facts.get? fact with
  | some other =>
    rw [rememberIf_apply_some known] at answer ⊢
    rw [known, Except.ok.inj answer]
  | none =>
    -- What is found is noted, for it is kept.
    rcases hrun : find registry memory with ⟨error | other, memory'⟩
    · rw [rememberIf_apply_error known hrun] at answer
      cases answer
    · rw [rememberIf_apply_ok known hrun] at answer ⊢
      obtain rfl := Except.ok.inj answer
      rw [if_pos keeps]
      exact Std.DHashMap.get?_insert_self

/-- What is kept of a fact stays, however it was found. -/
theorem rememberIf (h : find.Adds) :
    (Query.rememberIf fact isKept find).Lasts fun value => isKept value where
  adds registry memory := by
    cases known : memory.facts.get? fact with
    | some value =>
      rw [rememberIf_apply_some known]
    | none =>
      have kept := h.adds registry memory
      rcases hrun : find registry memory with ⟨error | value, memory'⟩
      · rw [hrun] at kept
        rw [rememberIf_apply_error known hrun]
        exact kept
      · rw [hrun] at kept
        rw [rememberIf_apply_ok known hrun]
        split
        · exact kept.establish (by simp [known])
        · exact kept
  again registry memory value answer keeps later more grows precedes := by
    -- The fact is established after the first time, and so it is now.
    have known :=
      precedes.facts fact value (established_of_rememberIf answer keeps)
    rw [rememberIf_apply_some known]

theorem remember (h : find.Adds) : (Query.remember fact find).Stays :=
  (rememberIf h).imp fun _ _ => rfl

end

/-- Sharing does not decide anything. -/
theorem share (t : Ty) {lasting : Ty → Prop} :
    (Query.share t).Lasts lasting where
  adds registry memory := by
    rw [share_eq]
    exact { Memory.Precedes.refl memory with }
  again registry memory u answer _ later more _ _ := by
    rw [share_eq] at answer ⊢
    exact answer

/-- The owner of a member stays, whoever it is. -/
theorem ownerOf {known : Memory → Option Ty} {remember : Ty → Memory → Memory}
    {owner : Query Ty} (h : owner.Adds)
    (adds : ∀ (memory more : Memory) (t : Ty), known memory = none →
      memory.Precedes more → memory.Precedes (remember t more))
    (told : ∀ (memory more : Memory) (t : Ty),
      memory.Precedes more → known memory = some t → known more = some t)
    (remembers : ∀ memory t, known (remember t memory) = some t) :
    (CliMetadata.ownerOf known remember owner).Stays where
  adds registry memory := by
    cases met : known memory with
    | some t =>
      rw [ownerOf_apply_some met]
    | none =>
      have kept := h.adds registry memory
      rcases hrun : owner registry memory with ⟨error | t, memory'⟩
      · rw [hrun] at kept
        rw [ownerOf_apply_error met hrun]
        exact kept
      · rw [hrun] at kept
        rw [ownerOf_apply_ok met hrun]
        exact adds memory memory' t met kept
  again registry memory t answer _ later more _ precedes := by
    -- Whoever was answered is noted as the owner, and stays so.
    suffices met :
        known (CliMetadata.ownerOf known remember owner registry memory).2
          = some t by
      rw [ownerOf_apply_some (told _ _ t precedes met)]
    cases met : known memory with
    | some u =>
      rw [ownerOf_apply_some met] at answer ⊢
      rw [met, Except.ok.inj answer]
    | none =>
      rcases hrun : owner registry memory with ⟨error | u, memory'⟩
      · rw [ownerOf_apply_error met hrun] at answer
        cases answer
      · rw [ownerOf_apply_ok met hrun] at answer ⊢
        rw [← Except.ok.inj answer]
        exact remembers memory' u

end Lasts

end Query

end CliMetadata
