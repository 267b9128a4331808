import CliMetadata.Proofs.TypeSystem.Circles
import CliMetadata.Proofs.TypeSystem.Yields

/-!
# What is left after a release

A type system that is released answers with what it remembers and with what the
modules say that are still held; where it needs more, it says what is gone.  So
its outcomes are those of the live type system, or errors where that one has an
answer (`IsLeftOf`).

An enumeration does not end at such an error, so that it has to be compared part
by part. `Query.Recovers` relates an answer after the release to the answer of
the live type system, and `Query.Endures` does so for the outcome of a row,
which an enumeration makes a part of its answer.  The rows are looked at in the
same way before and after the release, so that the parts stand in the same
places (`Members.recovers_all`).
-/

namespace CliMetadata

open Filter Query

/-- What is left of an outcome: the outcome, or what is released, in the place
of an answer. -/
inductive IsLeftOf {α : Type} : Except Error α → Except Error α → Prop where
  | same (outcome : Except Error α) : IsLeftOf outcome outcome
  | lost (holder : Holder) (a : α) :
      IsLeftOf (.error (.released holder)) (.ok a)

/-- A type system that is released knows what it knew. -/
theorem Registry.leadsTo_of_release (registry : Registry) (held : List String) :
    { registry with held := some held }.LeadsTo .release registry where
  options := rfl
  modules _ := id
  sameModules _ _ := id
  live := absurd rfl
  wellKnown _ := id
  sameWellKnown _ := rfl
  fixed _ _ := id
  sameFixed _ unfixed _ := unfixed

namespace Query

variable {α β γ δ : Type} {before after : Registry}

/-- A query that looks at no registry. -/
def IsBlind (query : Query α) : Prop :=
  ∀ registry registry' memory, query registry memory = query registry' memory

/-- The memory stays settled, and to what is answered there is an answer of the
live type system. -/
def Recovers (before after : Registry) (R : α → β → Prop) (query : Query α)
    (again : Query β) :
    Prop :=
  before.LeadsTo .release after → after.IsSound →
    ∀ memory : Memory, memory.IsSettled after →
      (query before memory).2.IsSettled after ∧
        ∀ a, (query before memory).1 = .ok a →
          ∃ b, again.Yields after b ∧ R a b

/-- The memory stays settled, and for any outcome there is one of the live type
system. -/
def Endures (before after : Registry)
    (R : Except Error α → Except Error α → Prop) (query : Query α) : Prop :=
  before.LeadsTo .release after → after.IsSound →
    ∀ memory : Memory, memory.IsSettled after →
      (query before memory).2.IsSettled after ∧
        (NotCircular (query before memory).1 →
          ∃ outcome, Reaches after (fun _ => query) outcome ∧
            NotCircular outcome ∧ R (query before memory).1 outcome)

/-! ### Queries that look at no registry -/

namespace IsBlind

theorem pure (a : α) : (Pure.pure a : Query α).IsBlind := fun _ _ _ => rfl

theorem throw (error : Error) :
    (MonadExcept.throw error : Query α).IsBlind := fun _ _ _ => rfl

theorem lift (result : Except Error α) : (liftM result : Query α).IsBlind := by
  cases result with
  | error error => exact throw error
  | ok a => exact pure a

theorem bind {query : Query α} {next : α → Query β} (first : query.IsBlind)
    (second : ∀ a, (next a).IsBlind) : (query >>= next).IsBlind := by
  intro registry registry' memory
  have same := first registry' registry memory
  rcases hrun : query registry memory with ⟨error | a, memory'⟩
  · rw [bind_apply_error hrun, bind_apply_error (same.trans hrun)]
  · rw [bind_apply_ok hrun, bind_apply_ok (same.trans hrun)]
    exact second a registry registry' memory'

theorem ite {c : Prop} [Decidable c] {query other : Query α}
    (first : query.IsBlind) (second : other.IsBlind) :
    (if c then query else other).IsBlind := by
  split
  · exact first
  · exact second

theorem rememberIf {fact : Fact} {isKept : fact.Value → Bool}
    {find : Query fact.Value} (h : find.IsBlind) :
    (Query.rememberIf fact isKept find).IsBlind := by
  have asked : (established? fact).IsBlind := fun _ _ _ => rfl
  refine asked.bind fun known => ?_
  cases known with
  | some value => exact pure value
  | none => exact h.bind fun value => ite (bind (fun _ _ _ => rfl)
      fun _ => pure value) (pure value)

theorem ownerOf {known : Memory → Option Ty} {remember : Ty → Memory → Memory}
    {owner : Query Ty} (h : owner.IsBlind) :
    (CliMetadata.ownerOf known remember owner).IsBlind := by
  have asked : (get : Query Memory).IsBlind := fun _ _ _ => rfl
  refine asked.bind fun memory => ?_
  cases known memory with
  | some t => exact pure t
  | none => exact h.bind fun t => bind (fun _ _ _ => rfl) fun _ => pure t

end IsBlind

/-! ### Answers -/

namespace Recovers

variable {R : α → β → Prop} {query : Query α} {again : Query β}

theorem pure {a : α} {b : β} (h : R a b) :
    (Pure.pure a : Query α).Recovers before after R (Pure.pure b) := by
  intro _ _ memory settled
  refine ⟨settled, ?_⟩
  rintro _ ⟨⟩
  exact ⟨b, .pure b, h⟩

/-- What all lasts is answered as before. -/
theorem of_transfers {lasting : Gap → α → Prop} {query : Query α}
    (h : query.Transfers .release before after lasting fun _ => query)
    (lasts : ∀ a, lasting .release a) :
    query.Recovers before after Eq query := by
  intro leads sound memory settled
  obtain ⟨kept, reached⟩ := h leads sound memory settled
  refine ⟨kept, fun a answer => ?_⟩
  rw [answer] at reached
  exact ⟨a, reached (.inr (lasts a)), rfl⟩

theorem bind {S : γ → δ → Prop} {next : α → Query γ} {nextAgain : β → Query δ}
    (first : query.Recovers before after R again)
    (second : ∀ a b, R a b → (next a).Recovers before after S (nextAgain b)) :
    (query >>= next).Recovers before after S (again >>= nextAgain) := by
  intro leads sound memory settled
  obtain ⟨kept, recovered⟩ := first leads sound memory settled
  rcases hrun : query before memory with ⟨error | a, memory'⟩
  · rw [hrun] at kept
    rw [bind_apply_error hrun]
    exact ⟨kept, nofun⟩
  · rw [hrun] at kept recovered
    rw [bind_apply_ok hrun]
    obtain ⟨b, yields, related⟩ := recovered a rfl
    obtain ⟨kept', recovered'⟩ := second a b related leads sound memory' kept
    refine ⟨kept', fun c answer => ?_⟩
    obtain ⟨d, yields', related'⟩ := recovered' c answer
    exact ⟨d, yields.bind yields', related'⟩

/-- A query that is answered as before, followed by what may use what is known
of the answer. -/
theorem bind_told {S : γ → δ → Prop} {query : Query α} {next : α → Query γ}
    {nextAgain : α → Query δ} {P : α → Prop}
    (first : query.Transfers .release before after always fun _ => query)
    (told : query.Tells .release before after P)
    (second : ∀ a, P a → (next a).Recovers before after S (nextAgain a)) :
    (query >>= next).Recovers before after S (query >>= nextAgain) := by
  intro leads sound memory settled
  -- What the query answers is answered again, and told.
  have recovers : query.Recovers before after
      (fun a b => a = b ∧ P a) query := by
    intro _ _ memory settled
    obtain ⟨kept, recovered⟩ := of_transfers first
      (fun _ => trivial) leads sound memory settled
    refine ⟨kept, fun a answer => ?_⟩
    obtain ⟨b, yields, rfl⟩ := recovered a answer
    exact ⟨a, yields, rfl, told leads sound memory settled a answer⟩
  refine recovers.bind ?_ leads sound memory settled
  rintro a _ ⟨rfl, known⟩
  exact second a known

/-- A query that looks at the registry, but not at its patience. -/
theorem read_bind {next : Registry → Query α} {nextAgain : Registry → Query β}
    (same : ∀ l, nextAgain (after.withPatience l) = nextAgain after)
    (h : before.LeadsTo .release after → after.IsSound →
      (next before).Recovers before after R (nextAgain after)) :
    (MonadReader.read >>= next : Query α).Recovers before after R
      (MonadReader.read >>= nextAgain) := by
  intro leads sound memory settled
  obtain ⟨kept, recovered⟩ := h leads sound leads sound memory settled
  refine ⟨kept, fun a answer => ?_⟩
  obtain ⟨b, yields, related⟩ := recovered a answer
  exact ⟨b, .read_bind same yields, related⟩

theorem map {κ μ : Type} {S : κ → μ → Prop}
    (h : query.Recovers before after R again) {f : α → κ} {g : β → μ}
    (related : ∀ a b, R a b → S (f a) (g b)) :
    (do return f (← query) : Query κ).Recovers before after S
      (do return g (← again)) :=
  h.bind fun a b hab => .pure (related a b hab)

end Recovers

/-! ### Outcomes -/

namespace Endures

variable {query : Query α}

/-- A query that looks at no registry has the same outcome. -/
theorem of_isBlind {lasting : Gap → α → Prop} (blind : query.IsBlind)
    (h : query.Transfers .none after after lasting fun _ => query) :
    query.Endures before after Eq := by
  intro _ sound memory settled
  obtain ⟨kept, reached⟩ := h (.rfl sound.live) sound memory settled
  rw [blind before after]
  refine ⟨kept, fun ends => ⟨_, reached ?_, ends, rfl⟩⟩
  cases hrun : (query after memory).1 with
  | ok a => exact .inl rfl
  | error error =>
    rw [hrun] at ends
    exact ⟨rfl, fun name token circular => ends name token
      (congrArg Except.error circular)⟩

theorem pure (a : α) : (Pure.pure a : Query α).Endures before after IsLeftOf :=
  fun _ _ _ settled => ⟨settled,
    fun ends => ⟨.ok a, Yields.pure a, ends, .same _⟩⟩

/-- What comes after a query that endures is all that can be lost. -/
theorem bind {next : α → Query β} (first : query.Endures before after Eq)
    (second : ∀ a, (next a).Endures before after IsLeftOf) :
    (query >>= next).Endures before after IsLeftOf := by
  intro leads sound memory settled
  obtain ⟨kept, endures⟩ := first leads sound memory settled
  -- The error is met again, or what is left of it.
  rcases hrun : query before memory with ⟨error | a, memory'⟩
  · rw [hrun] at kept endures
    rw [bind_apply_error hrun]
    refine ⟨kept, fun ends => ?_⟩
    obtain ⟨_, reached, ends', rfl⟩ := endures ends.error_of
    exact ⟨.error error, reached.bind_error, ends, .same _⟩
  · -- The answer is found again, and the rest goes on from it.
    rw [hrun] at kept endures
    rw [bind_apply_ok hrun]
    obtain ⟨_, reached, -, rfl⟩ := endures (.ok a)
    obtain ⟨kept', endures'⟩ := second a leads sound memory' kept
    refine ⟨kept', fun ends => ?_⟩
    obtain ⟨outcome, reached', ends', left⟩ := endures' ends
    exact ⟨outcome, reached.bind reached', ends', left⟩

theorem ite {c : Prop} [Decidable c]
    {R : Except Error α → Except Error α → Prop} {other : Query α}
    (first : query.Endures before after R)
    (second : other.Endures before after R) :
    (if c then query else other).Endures before after R := by
  split
  · exact first
  · exact second

/-- To look at the outcome of a query that endures is to have an answer. -/
theorem attempt {R : Except Error α → Except Error α → Prop}
    (h : query.Endures before after R) :
    query.attempt.Recovers before after R query.attempt := by
  intro leads sound memory settled
  obtain ⟨kept, endures⟩ := h leads sound memory settled
  rw [Query.attempt]
  split
  · -- A circle is not taken for an answer.
    next hrun =>
    rw [hrun] at kept
    refine ⟨kept, ?_⟩
    rintro _ ⟨⟩
  · -- Any other outcome is, and a related one is met again.
    next late memory' ends hrun =>
    rw [hrun] at kept endures
    refine ⟨kept, ?_⟩
    rintro _ ⟨⟩
    obtain ⟨early, reached, ends', related⟩ :=
      endures fun name token => ends name token
    exact ⟨early, reached.attempt ends', related⟩

end Endures

/-- That the type system is gone is all that can be lost there. -/
theorem endures_requireTypeSystem_bind (a : α) :
    (requireTypeSystem >>= fun _ => pure a : Query α).Endures before after
      IsLeftOf := by
  intro _ sound memory settled
  have yields :
      (requireTypeSystem >>= fun _ => pure a : Query α).Yields after a :=
    (yields_requireTypeSystem sound).bind (.pure a)
  have run : requireTypeSystem before memory
      = (if before.isLive = true then (pure () : Query Unit)
      else throw (.released .typeSystem)) before memory := rfl
  by_cases live : before.isLive = true
  · rw [if_pos live] at run
    rw [bind_apply_ok run]
    exact ⟨settled, fun ends => ⟨.ok a, yields, ends, .same _⟩⟩
  · rw [if_neg live] at run
    rw [bind_apply_error run]
    exact ⟨settled, fun _ => ⟨.ok a, yields, .ok a, .lost _ a⟩⟩

end Query

variable {before after : Registry}

/-! ### Enumerations -/

/-- An enumeration that looks at the same rows, and makes of each of them what
is left of its member. -/
structure Members.Endures {μ : Type} (before after : Registry)
    (members : Members μ) : Prop where
  isWanted : ∀ token, (members.isWanted token).Endures before after Eq
  member : ∀ token ∈ members.tokens,
    (members.member token).Endures before after IsLeftOf

namespace Members

variable {μ : Type} {members : Members μ} (h : members.Endures before after)
include h

/-- Some of the rows can be left out. -/
theorem Endures.sublist {tokens : List Token}
    (fewer : tokens ⊆ members.tokens) :
    ({ members with tokens } : Members μ).Endures before after :=
  ⟨h.isWanted, fun token htoken => h.member token (fewer htoken)⟩

/-- Where an item is lost, it stands in the place of an item, and the same rows
are left. -/
theorem recovers_nextOf (tokens : List Token)
    (among : tokens ⊆ members.tokens) :
    (nextOf members.isWanted members.member tokens).Recovers before after
      (fun late early => Option.Rel IsLeftOf late.1 early.1 ∧ late.2 = early.2 ∧
        early.2 ⊆ members.tokens)
      (nextOf members.isWanted members.member tokens) := by
  induction tokens with
  | nil => exact .pure ⟨.none, rfl, among⟩
  | cons token rest ih =>
    obtain ⟨htoken, hrest⟩ := List.cons_subset.mp among
    refine (h.isWanted token).attempt.bind ?_
    rintro wanted _ rfl
    rcases wanted with error | _ | _
    · exact .pure ⟨.some (.same _), rfl, hrest⟩
    · exact ih hrest
    · exact (h.member token htoken).attempt.bind fun _ _ left => .pure
        ⟨.some left, rfl, hrest⟩

/-- The items of an enumeration are what is left of the items that it had. -/
theorem recovers_all :
    members.all.Recovers before after (List.Forall₂ IsLeftOf) members.all := by
  suffices rows : ∀ tokens, tokens ⊆ members.tokens →
      (allOf members.isWanted members.member tokens).Recovers before after
        (List.Forall₂ IsLeftOf) (allOf members.isWanted members.member tokens)
          from rows members.tokens (List.Subset.refl _)
  -- The induction is on the rows that are left.
  intro tokens among
  induction tokens with
  | nil => exact .pure .nil
  | cons token rest ih =>
    obtain ⟨htoken, hrest⟩ := List.cons_subset.mp among
    refine (h.isWanted token).attempt.bind ?_
    rintro wanted _ rfl
    rcases wanted with error | _ | _
    · -- The filter fails, which is an item of its own.
      exact (ih hrest).bind fun _ _ others => .pure (.cons (.same _) others)
    · -- The row is not wanted.
      exact ih hrest
    · -- The row is wanted, and a member is made of it.
      refine (h.member token htoken).attempt.bind fun _ _ left => ?_
      exact (ih hrest).bind fun _ _ others => .pure (.cons left others)

theorem recovers_next : members.next.Recovers before after
    (fun late early => Option.Rel IsLeftOf late.1 early.1 ∧ late.2 = early.2 ∧
      early.2.Endures before after) members.next := by
  refine (recovers_nextOf h _ (List.Subset.refl _)).map ?_
  rintro late early ⟨left, same, fewer⟩
  exact ⟨left, by rw [same], h.sublist fewer⟩

omit h in
theorem recovers_item? (count : Nat) {members : Members μ}
    (h : members.Endures before after) :
    (item? count members).Recovers before after (Option.Rel IsLeftOf)
      (item? count members) := by
  induction count generalizing members with
  | zero => exact (recovers_next h).map fun _ _ related => related.1
  | succ count ih =>
    refine (recovers_next h).bind ?_
    rintro ⟨late, rest⟩ ⟨early, rest'⟩ ⟨left, rfl, others⟩
    cases left with
    | none => exact .pure .none
    | some _ => exact ih others

end Members

/-! ### Rows -/

/-- Whether a method is wanted is told by its row alone. -/
theorem MethodFilter.endures_accepts (filter : MethodFilter) (m : Module)
    (token : Token) :
    (filter.accepts m token).Endures before after Eq := by
  refine .of_isBlind ?_ (filter.transfers_accepts m token)
  rw [MethodFilter.accepts.eq_def]
  cases filter with
  | all => exact .pure _
  | virtual =>
    dsimp only
    cases m.image.methodDef? token with
    | some row => exact .pure _
    | none => exact .throw _
  | named name =>
    dsimp only
    cases m.image.methodDef? token with
    | some row => exact (IsBlind.lift _).bind fun _ => .pure _
    | none => exact .throw _

theorem endures_acceptsField (name : Option String) (m : Module)
    (token : Token) :
    (acceptsField name m token).Endures before after Eq := by
  refine .of_isBlind ?_ (transfers_acceptsField name m token)
  rw [acceptsField.eq_def]
  cases name with
  | none => exact .pure _
  | some name =>
    dsimp only
    cases m.image.field? token with
    | some row => exact (IsBlind.lift _).bind fun _ => .pure _
    | none => exact .throw _

section
variable {m : Module} (hm : m ∈ after.modules)
include hm

/-- A member that is met with the type that declares it is made without the type
system. -/
theorem Module.endures_method {token : Token} {t : Ty}
    (declares : after.DeclaresMethod ⟨m.name, token⟩ t) :
    (m.method token (some t)).Endures before after Eq := by
  have owned : ∀ u ∈ some t, after.DeclaresMethod ⟨m.name, token⟩ u := by
    rintro _ ⟨⟩
    exact declares
  refine .of_isBlind ?_ (Module.transfers_method hm token _ owned)
  rw [Module.method.eq_def]
  cases m.image.methodDef? token with
  | none => exact .throw _
  | some row => exact (IsBlind.ownerOf (.pure t)).bind fun _ => .pure _

theorem Module.endures_field {token : Token} {t : Ty}
    (declares : after.DeclaresField ⟨m.name, token⟩ t) :
    (m.field token (some t)).Endures before after Eq := by
  have owned : ∀ u ∈ some t, after.DeclaresField ⟨m.name, token⟩ u := by
    rintro _ ⟨⟩
    exact declares
  refine .of_isBlind ?_ (Module.transfers_field hm token _ owned)
  rw [Module.field.eq_def]
  cases m.image.field? token with
  | none => exact .throw _
  | some row => exact (IsBlind.ownerOf (.pure t)).bind fun _ => .pure _

omit hm in
/-- Where the token of a definition leads is told by its row alone. -/
theorem Module.isBlind_type {token : Token} (isIn : token.isIn .typeDef) :
    (m.type token).IsBlind := by
  intro registry registry' memory
  by_cases hnull : token.isNull = true
  · rw [Module.type_of_isNull hnull]
    rfl
  obtain ⟨room, run⟩ := m.type_apply token registry memory
  obtain ⟨room', run'⟩ := m.type_apply token registry' memory
  rw [run, run', Module.typeWithin_succ hnull, Module.typeWithin_succ hnull,
    Module.typeWith, Module.typeWith, Token.kind?_of_isIn isIn]
  -- What other tokens lead to, within either number of steps, is not asked for.
  refine IsBlind.rememberIf ?_ registry registry' memory
  refine (IsBlind.lift (m.definition token)).bind fun d => ?_
  exact IsBlind.bind (fun _ _ _ => rfl) fun _ => .pure _

theorem Module.endures_typeOfRow (row : Nat) :
    (m.typeOfRow row).Endures before after Eq := by
  refine .of_isBlind ?_ (Module.transfers_typeOfRow hm row)
  refine (Module.isBlind_type (Token.isIn_ofParts _ _)).bind fun found => ?_
  cases found with
  | some t => exact .pure t
  | none => exact .throw _

/-! ### Types of modules -/

theorem Module.recovers_typesFrom (row count : Nat) :
    (m.typesFrom row count).Recovers before after Eq
      (m.typesFrom row count) := by
  induction count generalizing row with
  | zero => exact .pure rfl
  | succ count ih =>
    refine (Module.endures_typeOfRow hm row).attempt.bind ?_
    rintro item _ rfl
    exact (ih (row + 1)).map fun _ _ others => congrArg (item :: ·) others

theorem Module.recovers_visitFrom (row count : Nat) :
    (m.visitFrom row count).Recovers before after Eq
      (m.visitFrom row count) := by
  induction count generalizing row with
  | zero => exact .pure rfl
  | succ count ih =>
    exact (Module.endures_typeOfRow hm row).attempt.bind
      fun _ _ _ => ih (row + 1)

theorem Module.recovers_typeAt? (position : Nat) :
    (m.typeAt? position).Recovers before after Eq (m.typeAt? position) := by
  refine (Module.recovers_visitFrom hm 1 _).bind fun _ _ _ => ?_
  split
  · exact (Module.endures_typeOfRow hm _).attempt.map
      fun _ _ item => congrArg some item
  · exact .pure rfl

end

/-! ### Members of types -/

section
variable {m : Module} {d : TypeDefinition} {t : Ty} {token : Token}
  (hm : m ∈ after.modules)
include hm

/-- The definition's own member is kept, and a view of it needs the type
system. -/
theorem endures_memberMethod
    (declares : after.DeclaresMethod ⟨m.name, token⟩ (.definition d)) :
    (memberMethod m d t token).Endures before after IsLeftOf :=
  (Module.endures_method hm declares).bind fun method =>
    .ite (.pure method) (endures_requireTypeSystem_bind _)

theorem endures_memberField
    (declares : after.DeclaresField ⟨m.name, token⟩ (.definition d)) :
    (memberField m d t token).Endures before after IsLeftOf :=
  (Module.endures_field hm declares).bind fun field =>
    .ite (.pure field) (endures_requireTypeSystem_bind _)

end

theorem Members.endures_empty {μ : Type} :
    (empty : Members μ).Endures before after where
  isWanted _ :=
    have transfers : (pure false : Query Bool).Transfers .none after
        after always
      fun _ => pure false := .pure false
    .of_isBlind (.pure false) transfers
  member := nofun

namespace Ty

variable {t : Ty} (owns : after.OwnsMembers)
  (ht : t.IsNode after.modules fun _ => True)
include owns ht

/-- What is enumerated of the methods of a node is what is left of them. -/
theorem tells_methods_endure (filter : MethodFilter) :
    (t.methods filter).Tells .release before after
      fun members => members.Endures before after := by
  refine tells_methods_of owns ht filter Members.endures_empty
    fun m hm d tokens declared => ?_
  exact ⟨fun token => filter.endures_accepts m token,
    fun token htoken => endures_memberMethod hm (declared token htoken)⟩

theorem tells_fields_endure (name : Option String) :
    (t.fields name).Tells .release before after
      fun members => members.Endures before after := by
  refine tells_fields_of owns ht name Members.endures_empty
    fun m hm d tokens declared => ?_
  exact ⟨fun token => endures_acceptsField name m token,
    fun token htoken => endures_memberField hm (declared token htoken)⟩

end Ty

end CliMetadata
