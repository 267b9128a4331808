import Mathlib.Order.Filter.AtTopBot.Basic
import CliMetadata.Proofs.Table.Ownership
import CliMetadata.Proofs.TypeSystem.Identity

/-!
# From one type system to another

Two type systems may differ in what they remember, in the order of their
modules, in how many steps a query may take, and in one having modules that the
other does not have yet or in being released. `Query.Transfers` says that what a
query answers in the one, a query answers in the other: not all of it, since
what a type system lacks shows, but all that its `Gap` to the other leaves.

What decides is what the memories hold.  A fact is *true* in a type system if
this is what is found where nothing is remembered (`Fact.IsTrue`), and it is
*settled* if it is found there whatever is remembered, as long as this is true
(`Fact.IsSettled`).  Settled facts are true.  A query that transfers settles
what it establishes, so that memories stay settled, and then a fact that is
remembered on one side only does no harm.

A query may take as many steps as its registry has patience for.  That a query
has an outcome in the other type system therefore means that it has it with
enough patience (`Query.Reaches`).
-/

namespace CliMetadata

open Filter

/-! ### Two type systems -/

/-- How a type system may fall short of another. -/
inductive Gap where
  /-- It has the same modules and is as ready. -/
  | none
  /-- It is released. -/
  | release
  /-- Modules may be missing, and it may not be ready yet. -/
  | growth
deriving DecidableEq

/-- With other patience. -/
def Registry.withPatience (registry : Registry) (patience : Nat) : Registry :=
  { registry with patience }

/-- What one registry knows is known to another. -/
structure Registry.LeadsTo (gap : Gap) (before after : Registry) : Prop where
  options : after.options = before.options
  modules : ∀ m ∈ before.modules, m ∈ after.modules
  sameModules : gap ≠ .growth → ∀ m ∈ after.modules, m ∈ before.modules
  live : gap ≠ .release → before.held = .none
  wellKnown : ∀ types, before.wellKnown = some types →
    after.wellKnown = some types
  sameWellKnown : gap ≠ .growth → after.wellKnown = before.wellKnown
  fixed : ∀ t category, before.fixedCategories.lookup t = some category →
    after.fixedCategories.lookup t = some category
  /-- The categories are all fixed when a type system gets ready. -/
  sameFixed : ∀ t, before.fixedCategories.lookup t = .none →
    (gap = .growth → before.wellKnown.isSome) →
    after.fixedCategories.lookup t = .none

/-- With other patience, a registry leads to itself. -/
theorem Registry.leadsTo_of_withPatience {registry : Registry}
    (live : registry.held = none) (l : Nat) :
    (registry.withPatience l).LeadsTo .none registry where
  options := rfl
  modules _ := id
  sameModules _ _ := id
  live _ := live
  wellKnown _ := id
  sameWellKnown _ := rfl
  fixed _ _ := id
  sameFixed _ h _ := h

/-! ### Members of modules -/

/-- The type of a row of a module. -/
def Module.Declares (m : Module) (token : Token) (t : Ty) : Prop :=
  ∃ row, m.image.typeDef? token = some row ∧
  t = .definition (m.definitionOfRow row)

/-- A type declares a member, going by what images say about owners. -/
def Registry.Declares (registry : Registry)
    (ownerOf : Image → Token → Option Token) (key : RowKey) (t : Ty) : Prop :=
  ∃ m ∈ registry.modules, m.name = key.module ∧
    ∃ owner, ownerOf m.image key.token = some owner ∧ m.Declares owner t

/-- A type declares a method. -/
abbrev Registry.DeclaresMethod (registry : Registry) : RowKey → Ty → Prop :=
  registry.Declares Image.methodOwner?

/-- A type declares a field. -/
abbrev Registry.DeclaresField (registry : Registry) : RowKey → Ty → Prop :=
  registry.Declares Image.fieldOwner?

/-- A member is declared by one type. -/
theorem Registry.IsProper.eq_of_declares {registry : Registry}
    (proper : registry.IsProper) {ownerOf : Image → Token → Option Token}
    {key : RowKey} {t u : Ty} (ht : registry.Declares ownerOf key t)
    (hu : registry.Declares ownerOf key u) : t = u := by
  obtain ⟨m, hm, named, owner, howner, row, hrow, rfl⟩ := ht
  obtain ⟨n, hn, named', owner', howner', row', hrow', rfl⟩ := hu
  obtain rfl := proper.eq_of_name_eq hm hn (named.trans named'.symm)
  obtain rfl := Option.some.inj (howner.symm.trans howner')
  obtain rfl := Option.some.inj (hrow.symm.trans hrow')
  rfl

/-- What a live registry of modules that were built is. -/
structure Registry.IsSound (registry : Registry) : Prop where
  proper : registry.IsProper
  live : registry.held = none
  wellKnown : ∀ types ∈ registry.wellKnown,
    AreNodes registry.modules (fun _ => True) types

/-- The members that types list in modules of the registry are those that they
declare. -/
def Registry.OwnsMembers (registry : Registry) : Prop :=
  ∀ m ∈ registry.modules, m.image.OwnsMembers

namespace Registry.IsSound

variable {registry : Registry}

theorem withPatience (sound : registry.IsSound) (l : Nat) :
    (registry.withPatience l).IsSound where
  proper := { sound.proper with }
  live := sound.live
  wellKnown := sound.wellKnown

/-- Where nothing is remembered, all that is told are nodes. -/
theorem isFaithful_empty (sound : registry.IsSound) :
    Memory.IsFaithful registry false {} where
  proper := sound.proper
  wellKnown types htypes := (sound.wellKnown types htypes).le fun _ _ => nofun
  methodOwners := by simp
  fieldOwners := by simp
  facts := by simp
  kept := nofun
  nodes := nofun

end Registry.IsSound

/-! ### Facts -/

/-- The types around a type are told by tokens of definitions, and not by
references. -/
def Module.NestsInDefinitions (m : Module) (token : Token) : Prop :=
  ∀ inner, Relation.ReflTransGen (fun a b => m.image.enclosing? a = some b)
    token inner →
    ∀ outer, m.image.enclosing? inner = some outer → outer.isIn .typeDef

/-- The types around the definitions in a type can always be found. -/
def Ty.IsSteady (modules : List Module) (t : Ty) : Prop :=
  ∀ d, .definition d ∈ t.parts →
    ∀ m ∈ modules, m.name = d.module → m.NestsInDefinitions d.token

namespace Fact

/-- A fact that does not depend on when it was established.  The hash of a
nested type does, where the type around it can be missing. -/
def IsSteady (modules : List Module) : Fact → Prop
  | .ofType t .hash => t.IsSteady modules
  | _ => True

/-- What can be remembered of a fact. -/
def IsAllowed (modules : List Module) : (fact : Fact) → fact.Value → Prop
  | .ofType t .finalizer, _ => t.IsNode modules fun _ => True
  | .resolved .., type => type.isSome
  | _, _ => True

/-- The question that a fact answers.  Some take a number of steps. -/
def ask : (fact : Fact) → (room : Nat) → Query fact.Value
  | .ofType t .name, _ => t.simpleName
  | .ofType t .namespaceName, _ => t.namespaceText
  | .ofType t .base, _ => t.base
  | .ofType t .parameters, _ => t.instantiation
  | .ofType t .category, _ => t.category
  | .ofType t .variance, _ => t.hasVariance
  | .ofType t .finalizer, _ => t.hasFinalizer
  | .ofType t .attributeFlags, _ => t.attributeFlags
  | .ofType t .hash, room => t.hashFrom (TypeDefinition.hashWithin room)
  | .ofMethod method .name, _ => method.name
  | .ofMethod method .signature, _ => method.signature
  | .ofMethod method .parameters, _ => method.parameters
  | .ofField field .name, _ => field.name
  | .ofField field .type, _ => field.type
  | .resolved name token, room => do
      match (← read).module? name with
      | some m => Module.typeWithin room m token
      | none => return none

/-- What is found of a fact where nothing is remembered. -/
def IsTrue (registry : Registry) (fact : Fact) (value : fact.Value) : Prop :=
  ∀ room, Tendsto room atTop atTop →
    ∀ᶠ l in atTop, (fact.ask (room l) (registry.withPatience l) {}).1
      = .ok value

/-- A fact has one value. -/
theorem IsTrue.eq {registry : Registry} {fact : Fact} {v w : fact.Value}
    (hv : fact.IsTrue registry v) (hw : fact.IsTrue registry w) : v = w := by
  obtain ⟨l, hl, hl'⟩ := ((hv id tendsto_id).and (hw id tendsto_id)).exists
  rw [hl] at hl'
  exact Except.ok.inj hl'

end Fact

/-! ### Memories -/

/-- What is remembered is true. -/
structure Memory.IsTrue (registry : Registry) (memory : Memory) : Prop where
  facts : ∀ fact value, memory.facts.get? fact = some value →
    fact.IsSteady registry.modules → fact.IsTrue registry value
  methodOwners : ∀ (key : RowKey) (t : Ty), memory.methodOwners[key]? = some t →
    registry.DeclaresMethod key t
  fieldOwners : ∀ (key : RowKey) (t : Ty), memory.fieldOwners[key]? = some t →
    registry.DeclaresField key t

/-- Whatever is remembered, if it is true, the query has the outcome and leaves
what is true. -/
def Query.Reaches {α : Type} (registry : Registry) (query : Nat → Query α)
    (outcome : Except Error α) : Prop :=
  ∀ᶠ l in atTop, ∀ memory : Memory, memory.IsTrue registry →
    (query l (registry.withPatience l) memory).1 = outcome ∧
      (query l (registry.withPatience l) memory).2.IsTrue registry

/-- What is found of a fact, whatever is remembered. -/
def Fact.IsSettled (registry : Registry) (fact : Fact) (value : fact.Value) :
    Prop :=
  ∀ room, Tendsto room atTop atTop →
    Query.Reaches registry (fun l => fact.ask (room l)) (.ok value)

/-- What is remembered is settled. -/
structure Memory.IsSettled (registry : Registry) (memory : Memory) : Prop where
  facts : ∀ fact value, memory.facts.get? fact = some value →
    fact.IsSteady registry.modules → fact.IsSettled registry value
  allowed : ∀ fact value, memory.facts.get? fact = some value →
    fact.IsAllowed registry.modules value
  methodOwners : ∀ (key : RowKey) (t : Ty), memory.methodOwners[key]? = some t →
    registry.DeclaresMethod key t
  fieldOwners : ∀ (key : RowKey) (t : Ty), memory.fieldOwners[key]? = some t →
    registry.DeclaresField key t

theorem Memory.isTrue_empty (registry : Registry) :
    Memory.IsTrue registry {} where
  facts := by simp
  methodOwners := by simp
  fieldOwners := by simp

theorem Memory.isSettled_empty (registry : Registry) :
    Memory.IsSettled registry {} where
  facts := by simp
  allowed := by simp
  methodOwners := by simp
  fieldOwners := by simp

/-- What is settled is true. -/
theorem Fact.IsSettled.isTrue {registry : Registry} {fact : Fact}
    {value : fact.Value} (h : fact.IsSettled registry value) :
    fact.IsTrue registry value :=
  fun room large => (h room large).mono fun _ hl =>
    (hl {} (Memory.isTrue_empty registry)).1

theorem Memory.IsSettled.isTrue {registry : Registry} {memory : Memory}
    (h : memory.IsSettled registry) : memory.IsTrue registry where
  facts fact value hvalue steady := (h.facts fact value hvalue steady).isTrue
  methodOwners := h.methodOwners
  fieldOwners := h.fieldOwners

section
variable {registry : Registry} {memory : Memory} {fact : Fact}
  {value : fact.Value}

theorem Memory.get?_insert {other : Fact} {v : other.Value}
    (h : (memory.facts.insert fact value).get? other = some v) :
    (∃ same : fact = other, same ▸ value = v) ∨
    memory.facts.get? other = some v := by
  rw [Std.DHashMap.get?_insert] at h
  split at h
  · next heq =>
    obtain rfl := eq_of_beq heq
    cases h
    exact .inl ⟨rfl, rfl⟩
  · exact .inr h

/-- An owner that is as it should be may be remembered. -/
theorem Memory.owners_insert {P : RowKey → Ty → Prop}
    {owners : Std.HashMap RowKey Ty}
    (h : ∀ (key : RowKey) (t : Ty), owners[key]? = some t → P key t)
    {key : RowKey} {t : Ty} (ht : P key t) (other : RowKey) (u : Ty)
    (hu : (owners.insert key t)[other]? = some u) :
    P other u := by
  rw [Std.HashMap.getElem?_insert] at hu
  split at hu
  · next same =>
    obtain rfl := eq_of_beq same
    cases hu
    exact ht
  · exact h other u hu

/-- A fact that is true may be established. -/
theorem Memory.IsTrue.establish (h : memory.IsTrue registry)
    (hvalue : fact.IsSteady registry.modules → fact.IsTrue registry value) :
    Memory.IsTrue registry
      { memory with facts := memory.facts.insert fact value } where
  facts other v hv steady := by
    rcases Memory.get?_insert hv with ⟨rfl, rfl⟩ | hv
    · exact hvalue steady
    · exact h.facts other v hv steady
  methodOwners := h.methodOwners
  fieldOwners := h.fieldOwners

/-- A fact that is settled may be established. -/
theorem Memory.IsSettled.establish (h : memory.IsSettled registry)
    (hvalue : fact.IsSteady registry.modules → fact.IsSettled registry value)
    (allowed : fact.IsAllowed registry.modules value) :
    Memory.IsSettled registry
      { memory with facts := memory.facts.insert fact value } where
  facts other v hv steady := by
    rcases Memory.get?_insert hv with ⟨rfl, rfl⟩ | hv
    · exact hvalue steady
    · exact h.facts other v hv steady
  allowed other v hv := by
    rcases Memory.get?_insert hv with ⟨rfl, rfl⟩ | hv
    · exact allowed
    · exact h.allowed other v hv
  methodOwners := h.methodOwners
  fieldOwners := h.fieldOwners

end

/-! ### Queries that transfer -/

/-- Outcomes that a gap leaves: all where there is none, and otherwise answers
that last. -/
def Gap.Carries {α : Type} (gap : Gap) (lasting : Gap → α → Prop) :
    Except Error α → Prop
  | .ok a => gap = .none ∨ lasting gap a
  | .error error => gap = .none ∧ ∀ name token, error ≠ .circular name token

/-- Every answer lasts. -/
abbrev always {α : Type} (_ : Gap) (_ : α) : Prop := True

/-- No answer lasts. -/
abbrev never {α : Type} (_ : Gap) (_ : α) : Prop := False

/-- What is found lasts; that nothing is found does not, where modules may be
missing. -/
abbrev whereFound {α : Type} (gap : Gap) (found : Option α) :
    Prop := gap = .growth → found.isSome

/-- With enough patience, one step can be taken. -/
theorem eventually_sub_add_one {room : Nat → Nat}
    (large : Tendsto room atTop atTop) :
    ∀ᶠ l in atTop, room l - 1 + 1 = room l :=
  (large.eventually_ge_atTop 1).mono fun _ => Nat.sub_add_cancel

/-- One step less grows as well. -/
theorem tendsto_sub_one {room : Nat → Nat} (large : Tendsto room atTop atTop) :
    Tendsto (fun l => room l - 1) atTop atTop :=
  (tendsto_sub_atTop_nat 1).comp large

namespace Query

variable {α β : Type} {gap : Gap} {before after : Registry}

/-- The memory stays settled, and an outcome that the gap leaves is reached
again. -/
def Transfers (gap : Gap) (before after : Registry) (lasting : Gap → α → Prop)
    (query : Query α) (again : Nat → Query α) : Prop :=
  before.LeadsTo gap after → after.IsSound →
    ∀ memory : Memory, memory.IsSettled after →
      (query before memory).2.IsSettled after ∧
        (gap.Carries lasting (query before memory).1 →
          Reaches after again (query before memory).1)

/-- What is known of an answer. -/
def Tells (gap : Gap) (before after : Registry) (query : Query α)
    (P : α → Prop) : Prop :=
  before.LeadsTo gap after → after.IsSound →
    ∀ memory : Memory, memory.IsSettled after →
      ∀ a, (query before memory).1 = .ok a → P a

theorem Tells.trivial {query : Query α} :
    query.Tells gap before after fun _ => True :=
  fun _ _ _ _ _ _ => True.intro

theorem Tells.imp {query : Query α} {P Q : α → Prop}
    (h : query.Tells gap before after P) (weaken : ∀ a, P a → Q a) :
    query.Tells gap before after Q :=
  fun leads sound memory settled a answer => weaken a
    (h leads sound memory settled a answer)

theorem Tells.pure {a : α} {P : α → Prop} (h : P a) :
    (Pure.pure a : Query α).Tells gap before after P := by
  rintro _ _ _ _ _ ⟨⟩
  exact h

theorem Tells.of_sound {query : Query α} {P : α → Prop}
    (h : after.IsSound → query.Tells gap before after P) :
    query.Tells gap before after P :=
  fun leads sound => h sound leads sound

theorem Tells.read_bind {next : Registry → Query α} {P : α → Prop}
    (h : (next before).Tells gap before after P) :
    (MonadReader.read >>= next).Tells gap before after P :=
  h

theorem Tells.ite {c : Prop} [Decidable c] {query other : Query α}
    {P : α → Prop} (first : c → query.Tells gap before after P)
    (second : ¬ c → other.Tells gap before after P) :
    (if c then query else other).Tells gap before after P := by
  split
  · next hc => exact first hc
  · next hc => exact second hc

/-- A query without an answer. -/
def Fails (query : Query α) :
    Prop := ∀ registry memory a, (query registry memory).1 ≠ .ok a

theorem Fails.tells {query : Query α} (h : query.Fails) {P : α → Prop} :
    query.Tells gap before after P :=
  fun _ _ memory _ a answer => absurd answer (h before memory a)

theorem Fails.throw (error : Error) :
    (MonadExcept.throw error : Query α).Fails := nofun

theorem Fails.throw_bind (error : Error) (next : α → Query β) :
    ((MonadExcept.throw error : Query α) >>= next).Fails := nofun

theorem Fails.ite {c : Prop} [Decidable c] {query other : Query α}
    (first : query.Fails) (second : other.Fails) :
    (if c then query else other).Fails := by
  split
  · exact first
  · exact second

theorem Fails.bind {query : Query α} {next : α → Query β}
    (h : ∀ a, (next a).Fails) :
    (query >>= next).Fails := by
  intro registry memory b
  rcases hrun : query registry memory with ⟨error | a, memory'⟩
  · rw [bind_apply_error hrun]
    exact nofun
  · rw [bind_apply_ok hrun]
    exact h a registry memory' b

/-! ### Outcomes of composed queries -/

/-- A query and the next have an answer if both have one. -/
theorem bind_eq_ok {query : Query α} {next : α → Query β} {registry : Registry}
    {memory : Memory} {b : β} :
    ((query >>= next) registry memory).1 = .ok b ↔ ∃ a memory',
      query registry memory = (.ok a, memory') ∧
      (next a registry memory').1 = .ok b := by
  rcases hrun : query registry memory with ⟨error | a, memory'⟩
  · rw [bind_apply_error hrun]
    constructor
    · exact nofun
    · rintro ⟨_, _, run, _⟩
      cases run
  · rw [bind_apply_ok hrun]
    constructor
    · exact fun h => ⟨a, memory', rfl, h⟩
    · rintro ⟨_, _, run, h⟩
      cases run
      exact h

/-- A query and the next run through if both do. -/
@[simp]
theorem bind_run_eq_ok {query : Query α} {next : α → Query β}
    {registry : Registry} {memory after : Memory} {b : β} :
    (query >>= next) registry memory = (.ok b, after) ↔ ∃ a memory',
      query registry memory = (.ok a, memory') ∧
      next a registry memory' = (.ok b, after) := by
  constructor
  · intro h
    obtain ⟨a, memory', run, -⟩ := bind_eq_ok.mp (congrArg Prod.fst h)
    exact ⟨a, memory', run, (bind_apply_ok run).symm.trans h⟩
  · rintro ⟨a, memory', run, h⟩
    exact (bind_apply_ok run).trans h

theorem attempt_apply {query : Query α} {memory memory' : Memory}
    {outcome : Except Error α} (run : query before memory = (outcome, memory'))
    (ends : ∀ name token, outcome ≠ .error (.circular name token)) :
    query.attempt before memory = (.ok outcome, memory') := by
  rw [attempt, run]
  split
  · next same =>
    cases same
    exact absurd rfl (ends _ _)
  · next same =>
    cases same
    rfl

theorem Reaches.bind {query : Nat → Query α} {next : Nat → α → Query β} {a : α}
    {outcome : Except Error β} (first : Reaches after query (.ok a))
    (second : Reaches after (fun l => next l a) outcome) :
    Reaches after (fun l => query l >>= next l) outcome := by
  filter_upwards [first, second] with l hl hl' memory true
  obtain ⟨answer, kept⟩ := hl memory true
  have run : query l (after.withPatience l) memory
      = (.ok a, (query l (after.withPatience l) memory).2) :=
      Prod.ext answer rfl
  rw [bind_apply_ok run]
  exact hl' _ kept

theorem Reaches.bind_error {query : Nat → Query α} {next : Nat → α → Query β}
    {error : Error} (first : Reaches after query (.error error)) :
    Reaches after (fun l => query l >>= next l) (.error error) := by
  filter_upwards [first] with l hl memory true
  obtain ⟨answer, kept⟩ := hl memory true
  have run : query l (after.withPatience l) memory
      = (.error error, (query l (after.withPatience l) memory).2) :=
      Prod.ext answer rfl
  rw [bind_apply_error run]
  exact ⟨rfl, kept⟩

/-- What is found of a fact in a true memory is what would be found in an empty
one. -/
theorem Reaches.isTrue {fact : Fact} {value : fact.Value}
    (h : ∀ room, Tendsto room atTop atTop →
      Reaches after (fun l => fact.ask (room l)) (.ok value)) :
    fact.IsTrue after value :=
  Fact.IsSettled.isTrue h

namespace Transfers

variable {lasting : Gap → α → Prop} {lasting' : Gap → β → Prop}
  {query : Query α} {again : Nat → Query α}

/-- Across a gap, fewer answers may be said to last. -/
theorem imp_across {lasting' : Gap → α → Prop}
    (h : query.Transfers gap before after lasting again)
    (fewer : ∀ a, lasting' gap a → lasting gap a) :
    query.Transfers gap before after lasting' again := by
  intro leads sound memory settled
  obtain ⟨kept, reached⟩ := h leads sound memory settled
  refine ⟨kept, fun carried => reached ?_⟩
  cases hrun : (query before memory).1 with
  | error => simpa only [hrun, Gap.Carries] using carried
  | ok a =>
    rw [hrun] at carried
    exact carried.imp_right (fewer a)

/-- Fewer answers may be said to last. -/
theorem imp {lasting' : Gap → α → Prop}
    (h : query.Transfers gap before after lasting again)
    (fewer : ∀ gap a, lasting' gap a → lasting gap a) :
    query.Transfers gap before after lasting' again :=
  h.imp_across (fewer gap)

theorem of_leads (h : before.LeadsTo gap after → after.IsSound →
    query.Transfers gap before after lasting again) :
    query.Transfers gap before after lasting again :=
  fun leads sound => h leads sound leads sound

/-- A query that leaves no traces. -/
theorem of_outcome (outcome : Except Error α)
    (run : ∀ memory, query before memory = (outcome, memory))
    (runs : gap.Carries lasting outcome → ∀ l memory,
      again l (after.withPatience l) memory = (outcome, memory)) :
    query.Transfers gap before after lasting again := by
  intro _ _ memory settled
  rw [run]
  refine ⟨settled, fun carried => .of_forall fun l memory true => ?_⟩
  rw [runs carried]
  exact ⟨rfl, true⟩

/-- What happens with little patience does not matter. -/
theorem congr {again' : Nat → Query α}
    (h : query.Transfers gap before after lasting again)
    (same : ∀ᶠ l in atTop, again l = again' l) :
    query.Transfers gap before after lasting again' := by
  intro leads sound memory settled
  obtain ⟨kept, reached⟩ := h leads sound memory settled
  refine ⟨kept, fun carried => ?_⟩
  filter_upwards [reached carried, same] with l hl hsame
  rw [← hsame]
  exact hl

/-- Where answers do not last, a query only has to leave the memory settled. -/
theorem of_settled (hgap : gap ≠ .none)
    (h : before.LeadsTo gap after → after.IsSound → ∀ memory : Memory,
      memory.IsSettled after → (query before memory).2.IsSettled after) :
    query.Transfers gap before after never again := by
  intro leads sound memory settled
  refine ⟨h leads sound memory settled, fun carried => ?_⟩
  cases hrun : (query before memory).1 with
  | error error =>
    rw [hrun] at carried
    exact absurd carried.1 hgap
  | ok a =>
    rw [hrun] at carried
    exact absurd carried (not_or.mpr ⟨hgap, id⟩)

/-- An answer may be said not to last, and then nothing has to be reached. -/
theorem unlasting {again' : Nat → Query α} (hgap : gap ≠ .none)
    (h : query.Transfers gap before after lasting again) :
    query.Transfers gap before after never again' :=
  .of_settled hgap fun leads sound memory settled =>
    (h leads sound memory settled).1

/-- Where only answers are carried, what has none transfers to anything. -/
theorem lost_of_ne_ok {again' : Nat → Query α}
    (h : query.Transfers gap before after lasting again) (hgap : gap ≠ .none)
    (fails : ∀ memory a, (query before memory).1 ≠ .ok a) :
    query.Transfers gap before after lasting again' := by
  intro leads sound memory settled
  refine ⟨(h leads sound memory settled).1, fun carried => ?_⟩
  cases hrun : (query before memory).1 with
  | error error =>
    rw [hrun] at carried
    exact absurd carried.1 hgap
  | ok a => exact absurd hrun (fails memory a)

/-- A query that runs in a circle has no outcome to be carried. -/
theorem circular (name : String) (token : Token) :
    (MonadExcept.throw (.circular name token) : Query α).Transfers gap before
      after lasting again :=
  of_outcome _ (fun _ => rfl) fun carried => absurd rfl (carried.2 name token)

theorem pure (a : α) :
    (Pure.pure a : Query α).Transfers gap before after lasting
    fun _ => Pure.pure a :=
  of_outcome (.ok a) (fun _ => rfl) fun _ _ _ => rfl

theorem throw (error : Error) :
    (MonadExcept.throw error : Query α).Transfers gap before after
      lasting fun _ => MonadExcept.throw error :=
  of_outcome (.error error) (fun _ => rfl) fun _ _ _ => rfl

/-- What would follow an error does not matter. -/
theorem throw_bind {next : α → Query β} {nextAgain : Nat → α → Query β}
    (error : Error) :
    ((MonadExcept.throw error : Query α) >>= next).Transfers gap before
      after lasting'
      fun l => MonadExcept.throw error >>= nextAgain l :=
  of_outcome (.error error) (fun _ => rfl) fun _ _ _ => rfl

/-- A result that needs no type system. -/
theorem lift (result : Except Error α) :
    (liftM result : Query α).Transfers gap before after lasting
    fun _ => liftM result := by
  cases result with
  | error error => exact throw error
  | ok a => exact pure a

theorem ite {c : Prop} [Decidable c] {other : Query α}
    {otherAgain : Nat → Query α}
    (first : c → query.Transfers gap before after lasting again)
    (second : ¬ c → other.Transfers gap before after lasting otherAgain) :
    (if c then query else other).Transfers gap before after lasting
      fun l => if c then again l else otherAgain l := by
  by_cases hc : c
  · simpa only [if_pos hc] using first hc
  · simpa only [if_neg hc] using second hc

/-- A query that is followed by another.  Where the first answer does not last,
nor does what follows it. -/
theorem bind_of {next : α → Query β} {nextAgain : Nat → α → Query β}
    {P : α → Prop} (first : query.Transfers gap before after lasting again)
    (told : query.Tells gap before after P)
    (second : ∀ a, P a → (next a).Transfers gap before after lasting'
      fun l => nextAgain l a)
    (lost : ∀ a, gap ≠ .none → ¬ lasting gap a → ∀ registry memory b,
      (next a registry memory).1 = .ok b → ¬ lasting' gap b) :
    (query >>= next).Transfers gap before after lasting' fun l => again l >>=
      nextAgain l := by
  intro leads sound memory settled
  obtain ⟨kept, reached⟩ := first leads sound memory settled
  rcases hrun : query before memory with ⟨error | a, memory'⟩
  · rw [hrun] at kept reached
    rw [bind_apply_error hrun]
    exact ⟨kept, fun carried => (reached carried).bind_error⟩
  · rw [hrun] at kept reached
    rw [bind_apply_ok hrun]
    have known : P a := told leads sound memory settled a (by rw [hrun])
    obtain ⟨kept', reached'⟩ := second a known leads sound memory' kept
    refine ⟨kept', fun carried => ?_⟩
    -- Either the first answer lasts, and is given again, or nothing is promised
    -- of what follows it.
    by_cases lasts : gap = .none ∨ lasting gap a
    · exact (reached lasts).bind (reached' carried)
    · obtain ⟨hgap, hlasting⟩ := not_or.mp lasts
      cases hnext : (next a before memory').1 with
      | error error =>
        rw [hnext] at carried
        exact absurd carried.1 hgap
      | ok b =>
        rw [hnext] at carried
        exact absurd (carried.resolve_left hgap)
          (lost a hgap hlasting before memory' b hnext)

/-- A query all of whose answers last, followed by another that may use what is
known of them. -/
theorem bind_told {next : α → Query β} {nextAgain : Nat → α → Query β}
    {P : α → Prop} (first : query.Transfers gap before after always again)
    (told : query.Tells gap before after P)
    (second : ∀ a, P a → (next a).Transfers gap before after lasting'
      fun l => nextAgain l a) :
    (query >>= next).Transfers gap before after lasting' fun l => again l >>=
      nextAgain l :=
  first.bind_of told second fun _ _ lost => absurd trivial lost

/-- A query that has to find something, which lasts then. -/
theorem bind_required {query : Query (Option α)}
    {again : Nat → Query (Option α)} {next : Option α → Query β}
    {nextAgain : Nat → Option α → Query β}
    (first : query.Transfers gap before after whereFound again)
    (found : ∀ a, (next (some a)).Transfers gap before after lasting'
      fun l => nextAgain l (some a))
    (missing : (next none).Transfers gap before after lasting'
      fun l => nextAgain l none)
    (fails : (next none).Fails) :
    (query >>= next).Transfers gap before after lasting' fun l => again l >>=
      nextAgain l := by
  refine first.bind_of .trivial (fun a _ => ?_)
    fun a _ lost registry memory b answer => ?_
  · -- The same is found, or the same is missing.
    cases a with
    | some a => exact found a
    | none => exact missing
  · -- Something was missing, and so there is no answer to transfer.
    cases a with
    | some a => exact absurd (fun _ => rfl) lost
    | none => exact absurd answer (fails registry memory b)

/-- A query all of whose answers last, followed by another. -/
theorem bind {next : α → Query β} {nextAgain : Nat → α → Query β}
    (first : query.Transfers gap before after always again)
    (second : ∀ a, (next a).Transfers gap before after lasting'
      fun l => nextAgain l a) :
    (query >>= next).Transfers gap before after lasting' fun l => again l >>=
      nextAgain l :=
  first.bind_told .trivial fun a _ => second a

/-- A query whose answers may not last, followed by another that ends in nothing
that lasts. -/
theorem bind_never {next : α → Query β} {nextAgain : Nat → α → Query β}
    (first : query.Transfers gap before after lasting again)
    (second : ∀ a, (next a).Transfers gap before after never
      fun l => nextAgain l a) :
    (query >>= next).Transfers gap before after never fun l => again l >>=
      nextAgain l :=
  first.bind_of .trivial (fun a _ => second a) fun _ _ _ _ _ _ _ => id

/-- Queries whose answers last across the same gaps. -/
theorem bind_alike {lasts : Gap → Prop} {next : α → Query β}
    {nextAgain : Nat → α → Query β}
    (first : query.Transfers gap before after (fun gap _ => lasts gap) again)
    (second : ∀ a, (next a).Transfers gap before after (fun gap _ => lasts gap)
      fun l => nextAgain l a) :
    (query >>= next).Transfers gap before after (fun gap _ => lasts gap)
      fun l => again l >>= nextAgain l :=
  first.bind_of .trivial (fun a _ => second a) fun _ _ lost _ _ _ _ => lost

/-- A query whose answers may not last, followed by what fails. -/
theorem bind_fails {next : α → Query β} {nextAgain : Nat → α → Query β}
    (first : query.Transfers gap before after lasting again)
    (second : ∀ a, (next a).Transfers gap before after lasting'
      fun l => nextAgain l a)
    (fails : ∀ a, (next a).Fails) :
    (query >>= next).Transfers gap before after lasting' fun l => again l >>=
      nextAgain l :=
  first.bind_of .trivial (fun a _ => second a)
    fun a _ _ registry memory b answer => absurd answer
      (fails a registry memory b)

/-- A query whose answers may not last, followed by an error. -/
theorem bind_throw {error : α → Error}
    (first : query.Transfers gap before after lasting again) :
    (query >>= fun a => MonadExcept.throw (error a) : Query β).Transfers gap
      before after lasting'
      fun l => again l >>= fun a => MonadExcept.throw (error a) :=
  first.bind_fails (fun a => throw (error a)) fun a => .throw (error a)

/-- A query that looks at the registry first. -/
theorem read {next : Registry → Query α} {nextAgain : Nat → Registry → Query α}
    (h : before.LeadsTo gap after →
      (next before).Transfers gap before after lasting fun l => nextAgain l
        (after.withPatience l)) :
    (MonadReader.read >>= next).Transfers gap before after lasting
      fun l => MonadReader.read >>= nextAgain l :=
  fun leads sound memory settled => h leads leads sound memory settled

/-- A query that looks at the registry, but not at its patience. -/
theorem read_bind {next : Registry → Query α}
    {nextAgain : Nat → Registry → Query α}
    (same : ∀ l, nextAgain l (after.withPatience l) = nextAgain l after)
    (h : before.LeadsTo gap after →
      (next before).Transfers gap before after lasting
        fun l => nextAgain l after) :
    (MonadReader.read >>= next).Transfers gap before after lasting
      fun l => MonadReader.read >>= nextAgain l :=
  read fun leads => by simpa only [same] using h leads

/-- Where something is found for sure, it lasts. -/
theorem always_of_tells {query : Query (Option α)}
    {again : Nat → Query (Option α)}
    (h : query.Transfers gap before after whereFound again)
    (told : query.Tells gap before after fun found => found.isSome) :
    query.Transfers gap before after always again := by
  intro leads sound memory settled
  obtain ⟨kept, reached⟩ := h leads sound memory settled
  refine ⟨kept, fun carried => reached ?_⟩
  cases hrun : (query before memory).1 with
  | error error => simpa only [hrun, Gap.Carries] using carried
  | ok found => exact .inr fun _ => told leads sound memory settled found hrun

theorem attempt (h : query.Transfers gap before after lasting again) :
    query.attempt.Transfers gap before after
      (fun gap result => ∃ a, result = .ok a ∧ lasting gap a)
      fun l => (again l).attempt := by
  intro leads sound memory settled
  obtain ⟨kept, reached⟩ := h leads sound memory settled
  rw [Query.attempt]
  split
  · next hrun =>
    rw [hrun] at kept
    exact ⟨kept, fun carried => absurd rfl (carried.2 _ _)⟩
  · next outcome memory' ends hrun =>
    rw [hrun] at kept reached
    refine ⟨kept, fun carried => ?_⟩
    -- What is attempted carries over if its outcome does.
    have carried' : gap.Carries lasting outcome := by
      cases outcome with
      | error error =>
        refine ⟨carried.resolve_right ?_, fun name token same => ends name token
          (by rw [same])⟩
        rintro ⟨_, ⟨⟩, _⟩
      | ok a =>
        refine carried.imp_right ?_
        rintro ⟨_, ⟨⟩, lasts⟩
        exact lasts
    refine (reached carried').mono fun l hl memory true => ?_
    obtain ⟨answer, kept'⟩ := hl memory true
    have run : again l (after.withPatience l) memory
        = (outcome, (again l (after.withPatience l) memory).2) :=
        Prod.ext answer rfl
    dsimp only
    rw [attempt_apply run fun name token same => ends name token same]
    exact ⟨rfl, kept'⟩

/-! ### What is known of answers -/

theorem tells_bind {next : α → Query β} {P : α → Prop} {Q : β → Prop}
    (first : query.Transfers gap before after lasting again)
    (told : query.Tells gap before after P)
    (second : ∀ a, P a → (next a).Tells gap before after Q) :
    (query >>= next).Tells gap before after Q := by
  intro leads sound memory settled b answer
  have kept := (first leads sound memory settled).1
  rcases hrun : query before memory with ⟨error | a, memory'⟩
  · rw [bind_apply_error hrun] at answer
    cases answer
  · rw [hrun] at kept
    rw [bind_apply_ok hrun] at answer
    have known := told leads sound memory settled a (by rw [hrun])
    exact second a known leads sound memory' kept b answer

/-- A query whose answer is known, followed by another. -/
theorem tells_bind_eq {next : α → Query β} {a : α} {Q : β → Prop}
    (first : query.Transfers gap before after lasting again)
    (told : query.Tells gap before after (· = a))
    (second : (next a).Tells gap before after Q) :
    (query >>= next).Tells gap before after Q := by
  refine first.tells_bind told ?_
  rintro _ rfl
  exact second

/-- An answer that lasts is one that is given where nothing is remembered. -/
theorem tells_of_apply {P : α → Prop}
    (first : query.Transfers gap before after lasting again)
    (h : ∀ l a, (again l (after.withPatience l) {}).1 = .ok a → P a) :
    query.Tells gap before after fun a => lasting gap a → P a := by
  intro leads sound memory settled a answer lasts
  obtain ⟨_, reached⟩ := first leads sound memory settled
  rw [answer] at reached
  obtain ⟨l, hl⟩ := (reached (.inr lasts)).exists
  exact h l a (hl {} (Memory.isTrue_empty after)).1

/-- What is answered where nothing is remembered is reached from any memory. -/
theorem reaches_of_apply {a : α}
    (first : query.Transfers gap before after lasting again)
    (leads : before.LeadsTo gap after) (sound : after.IsSound)
    (answer : (query before {}).1 = .ok a)
    (lasts : gap = .none ∨ lasting gap a) :
    Reaches after again (.ok a) := by
  obtain ⟨_, reached⟩ := first leads sound {} (Memory.isSettled_empty after)
  rw [answer] at reached
  exact reached lasts

/-- Answers that last tell nodes if they do so where nothing is remembered. -/
theorem tells_nodes {types : α → List Ty}
    (first : query.Transfers gap before after lasting fun _ => query)
    (gives : ∀ l, query.Gives (after.withPatience l) false
      (fun _ => True) types) :
    query.Tells gap before after
      fun a => lasting gap a →
        AreNodes after.modules (fun _ => True) (types a) := by
  intro leads sound
  refine first.tells_of_apply (fun l a answer => ?_) leads sound
  obtain ⟨_, _, nodes⟩ := gives l {} (sound.withPatience l).isFaithful_empty
    fun _ _ => nofun
  exact (nodes a answer).le fun _ _ => True.intro

/-! ### Sharing -/

/-- Sharing does not decide anything. -/
theorem share (t : Ty) : (Query.share t).Transfers gap before after always
    fun _ => Query.share t := by
  intro _ _ memory settled
  rw [share_eq]
  refine ⟨{ settled with }, fun _ => .of_forall fun l memory true => ?_⟩
  dsimp only
  rw [share_eq]
  exact ⟨rfl, { true with }⟩

end Transfers

/-! ### Establishing facts -/

section
variable {fact : Fact} {isKept : fact.Value → Bool} {find : Query fact.Value}
  {value : fact.Value} {registry : Registry} {memory memory' : Memory}

@[simp]
theorem rememberIf_apply_some (known : memory.facts.get? fact = some value) :
    rememberIf fact isKept find registry memory = (.ok value, memory) := by
  have run :
      established? fact registry memory = (.ok (some value), memory) := by
    rw [← known]
    rfl
  exact bind_apply_ok run

theorem rememberIf_apply_error {error : Error}
    (unknown : memory.facts.get? fact = none)
    (run : find registry memory = (.error error, memory')) :
    rememberIf fact isKept find registry memory = (.error error, memory') := by
  have asked : established? fact registry memory = (.ok none, memory) := by
    rw [← unknown]
    rfl
  exact (bind_apply_ok asked).trans (bind_apply_error run)

theorem rememberIf_apply_ok (unknown : memory.facts.get? fact = none)
    (run : find registry memory = (.ok value, memory')) :
    rememberIf fact isKept find registry memory = (.ok value, if isKept value
      then { memory' with facts := memory'.facts.insert fact value }
        else memory') := by
  have asked : established? fact registry memory = (.ok none, memory) := by
    rw [← unknown]
    rfl
  refine (bind_apply_ok asked).trans ((bind_apply_ok run).trans ?_)
  by_cases kept : isKept value
  · simp only [kept, if_true]
    rfl
  · simp only [kept, Bool.false_eq_true, if_false]
    rfl

/-- What is not known is answered as it is found. -/
@[simp]
theorem rememberIf_apply_unknown (unknown : memory.facts.get? fact = none) :
    (rememberIf fact isKept find registry memory).1
      = (find registry memory).1 := by
  rcases run : find registry memory with ⟨error | value, memory'⟩
  · rw [rememberIf_apply_error unknown run]
  · rw [rememberIf_apply_ok unknown run]

end

section
variable {fact : Fact} {isKept : fact.Value → Bool} {find : Query fact.Value}
  {findAgain : Nat → Query fact.Value} {outcome : Except Error fact.Value}

/-- The question of a fact is to remember what is found of it, given enough
steps. -/
def Remembers (registry : Registry) (fact : Fact) (isKept : fact.Value → Bool)
    (find : Nat → Query fact.Value) : Prop :=
  ∀ᶠ room in atTop, ∀ l memory, fact.ask room (registry.withPatience l) memory
    = rememberIf fact isKept (find room) (registry.withPatience l) memory

theorem Remembers.of_ask
    (asks : ∀ room, fact.ask room = Query.remember fact find) :
    Remembers after fact (fun _ => true) fun _ => find :=
  .of_forall fun room l memory => by
    rw [asks room]
    rfl

/-- To ask for a fact is to remember what is found of it. -/
theorem Remembers.reaches_ask_iff (asks : Remembers after fact isKept findAgain)
    {room : Nat → Nat} (large : Tendsto room atTop atTop) :
    Reaches after (fun l => fact.ask (room l)) outcome ↔
      Reaches after (fun l => Query.rememberIf fact isKept (findAgain (room l)))
        outcome := by
  refine eventually_congr ?_
  filter_upwards [large.eventually asks] with l hasks
  simp only [hasks]

/-- What is found of a fact is found also where nothing is remembered. -/
theorem Remembers.ask_empty (asks : Remembers after fact isKept findAgain)
    {room : Nat → Nat} (large : Tendsto room atTop atTop)
    (h : Reaches after (fun l => findAgain (room l)) outcome) :
    ∀ᶠ l in atTop, (fact.ask (room l) (after.withPatience l) {}).1
      = outcome := by
  filter_upwards [h, large.eventually asks] with l hl hasks
  obtain ⟨answer, _⟩ := hl {} (Memory.isTrue_empty after)
  have run : findAgain (room l) (after.withPatience l) {}
      = (outcome, (findAgain (room l) (after.withPatience l) {}).2) :=
    Prod.ext answer rfl
  rw [hasks]
  cases outcome with
  | error error => rw [rememberIf_apply_error (by simp) run]
  | ok value => rw [rememberIf_apply_ok (by simp) run]

/-- Remembering does not change an outcome that is reached. -/
theorem Reaches.rememberIf (asks : Remembers after fact isKept findAgain)
    (steady : fact.IsSteady after.modules)
    (h : ∀ room, Tendsto room atTop atTop →
      Reaches after (fun l => findAgain (room l)) outcome)
    {room : Nat → Nat} (large : Tendsto room atTop atTop) :
    Reaches after (fun l => Query.rememberIf fact isKept (findAgain (room l)))
      outcome := by
  filter_upwards [h room large] with l hl memory true
  cases known : memory.facts.get? fact with
  | some value =>
    -- What is remembered is what is found in an empty memory, which is the
    -- outcome.
    have told := true.facts fact value known steady
    obtain ⟨l', found, found'⟩ :=
      ((told id tendsto_id).and (asks.ask_empty tendsto_id
        (h id tendsto_id))).exists
    rw [rememberIf_apply_some known]
    exact ⟨found.symm.trans found', true⟩
  | none =>
    obtain ⟨answer, kept⟩ := hl memory true
    have run : findAgain (room l) (after.withPatience l) memory
        = (outcome, (findAgain (room l) (after.withPatience l) memory).2) :=
        Prod.ext answer rfl
    cases outcome with
    | error error =>
      rw [rememberIf_apply_error known run]
      exact ⟨rfl, kept⟩
    | ok value =>
      rw [rememberIf_apply_ok known run]
      refine ⟨rfl, ?_⟩
      split
      · exact kept.establish fun _ room large => asks.ask_empty large
          (h room large)
      · exact kept

/-- Facts are found or remembered, and it does not matter which. -/
theorem Transfers.rememberIf {lasting : Gap → fact.Value → Prop}
    (asks : Remembers after fact isKept findAgain)
    (steady : fact.IsSteady after.modules)
    (allowed : ∀ value, isKept value → fact.IsAllowed after.modules value)
    (lasts : ∀ value, isKept value → lasting gap value)
    (h : ∀ room, Tendsto room atTop atTop →
      find.Transfers gap before after lasting fun l => findAgain (room l))
    {room : Nat → Nat} (large : Tendsto room atTop atTop) :
    (Query.rememberIf fact isKept find).Transfers gap before after lasting
      fun l => Query.rememberIf fact isKept (findAgain (room l)) := by
  intro leads sound memory settled
  cases hknown : memory.facts.get? fact with
  | some value =>
    have settles := settled.facts fact value hknown steady room large
    rw [rememberIf_apply_some hknown]
    exact ⟨settled, fun _ => (asks.reaches_ask_iff large).mp settles⟩
  | none =>
    have kept := (h id tendsto_id leads sound memory settled).1
    -- What is found now is found again, and so it is whether or not it is
    -- remembered then.
    have again {room : Nat → Nat} (large : Tendsto room atTop atTop)
        (carried : gap.Carries lasting (find before memory).1) :
        Reaches after (fun l => Query.rememberIf fact isKept
          (findAgain (room l)))
          (find before memory).1 :=
      Reaches.rememberIf asks steady
        (fun room large => (h room large leads sound memory settled).2 carried)
        large
    rcases hrun : find before memory with ⟨error | value, memory'⟩
    · rw [hrun] at kept again
      rw [rememberIf_apply_error hknown hrun]
      exact ⟨kept, again large⟩
    · rw [hrun] at kept again
      rw [rememberIf_apply_ok hknown hrun]
      refine ⟨?_, again large⟩
      split
      · next keeps =>
        have settles : fact.IsSettled after value := fun room large =>
          (asks.reaches_ask_iff large).mpr
            (again large (.inr (lasts value keeps)))
        exact kept.establish (fun _ => settles) (allowed value keeps)
      · exact kept

/-- A fact that depends on when it is established may be established. -/
theorem Transfers.rememberIf_of_not_isSteady (hgap : gap ≠ .none)
    (unsteady : ¬ fact.IsSteady after.modules)
    (allowed : ∀ value, fact.IsAllowed after.modules value)
    (h : find.Transfers gap before after never fun _ => find) :
    (Query.rememberIf fact isKept find).Transfers gap before after never
      fun _ => Query.rememberIf fact isKept find := by
  refine .of_settled hgap fun leads sound memory settled => ?_
  cases known : memory.facts.get? fact with
  | some value =>
    -- What is known was settled.
    rw [rememberIf_apply_some known]
    exact settled
  | none =>
    have kept := (h leads sound memory settled).1
    rcases hrun : find before memory with ⟨error | value, memory'⟩
    · rw [hrun] at kept
      rw [rememberIf_apply_error known hrun]
      exact kept
    · rw [hrun] at kept
      rw [rememberIf_apply_ok known hrun]
      -- The value may be noted, for nothing is said of a fact that is not
      -- steady.
      split
      · exact kept.establish (fun steady => absurd steady unsteady)
          (allowed value)
      · exact kept

/-- A fact that takes no number of steps is found or remembered. -/
theorem Transfers.remember
    (asks : ∀ room, fact.ask room = Query.remember fact find)
    (steady : fact.IsSteady after.modules)
    (allowed : ∀ value, fact.IsAllowed after.modules value)
    (h : find.Transfers gap before after always fun _ => find) :
    (Query.remember fact find).Transfers gap before after always
      fun _ => Query.remember fact find :=
  Transfers.rememberIf (.of_ask asks) steady
    (fun value _ => allowed value) (fun _ _ => trivial)
    (fun _ _ => h) tendsto_id

/-- What is settled may be established. -/
theorem Transfers.establish {value : fact.Value}
    (settles : fact.IsSettled after value)
    (allowed : fact.IsAllowed after.modules value) :
    (Query.establish fact value).Transfers gap before after always
      fun _ => Query.establish fact value := by
  intro _ _ memory settled
  refine ⟨settled.establish (fun _ => settles) allowed,
    fun _ => .of_forall fun l memory true => ?_⟩
  exact ⟨rfl, true.establish fun _ => settles.isTrue⟩

/-- What is settled is found. -/
theorem Reaches.of_isSettled {value : fact.Value} (sound : after.IsSound)
    (asks : ∀ room, fact.ask room = Query.remember fact find)
    (h : ∀ before, find.Transfers .none before after always fun _ => find)
    (settled : fact.IsSettled after value) :
    Reaches after (fun _ => find) (.ok value) := by
  obtain ⟨l, hl⟩ := (settled.isTrue id tendsto_id).exists
  rw [asks] at hl
  have leads := Registry.leadsTo_of_withPatience sound.live l
  refine (h (after.withPatience l)).reaches_of_apply leads sound ?_ (.inl rfl)
  rcases hrun : find (after.withPatience l) {} with ⟨error | found, memory⟩
  · rw [Query.remember, rememberIf_apply_error (by simp) hrun] at hl
    cases hl
  · rw [Query.remember, rememberIf_apply_ok (by simp) hrun] at hl
    exact hl

end

/-! ### Owners of members -/

section
variable {known : Memory → Option Ty} {remember : Ty → Memory → Memory}
  {owner : Query Ty} {Declared : Ty → Prop}

@[simp]
theorem ownerOf_apply_some {registry : Registry} {memory : Memory} {t : Ty}
    (met : known memory = some t) :
    ownerOf known remember owner registry memory = (.ok t, memory) := by
  have run : (get : Query Memory) registry memory = (.ok memory, memory) := rfl
  refine (bind_apply_ok run).trans ?_
  rw [met]
  rfl

theorem ownerOf_apply_error {registry : Registry} {memory memory' : Memory}
    {error : Error} (unmet : known memory = none)
    (found : owner registry memory = (.error error, memory')) :
    ownerOf known remember owner registry memory = (.error error, memory') := by
  have run : (get : Query Memory) registry memory = (.ok memory, memory) := rfl
  refine (bind_apply_ok run).trans ?_
  rw [unmet]
  exact bind_apply_error found

theorem ownerOf_apply_ok {registry : Registry} {memory memory' : Memory}
    {t : Ty} (unmet : known memory = none)
    (found : owner registry memory = (.ok t, memory')) :
    ownerOf known remember owner registry memory
      = (.ok t, remember t memory') := by
  have run : (get : Query Memory) registry memory = (.ok memory, memory) := rfl
  refine (bind_apply_ok run).trans ?_
  rw [unmet]
  exact bind_apply_ok found

/-- The owner is found if it is declared, whether or not it is remembered. -/
theorem Reaches.ownerOf (unique : ∀ t u, Declared t → Declared u → t = u)
    (told : ∀ memory : Memory, memory.IsTrue after → ∀ t,
      known memory = some t → Declared t)
    (keeps : ∀ (memory : Memory) t, memory.IsTrue after → Declared t →
      (remember t memory).IsTrue after)
    {t : Ty} (ht : Declared t)
    (reached : Reaches after (fun _ => owner) (.ok t)) :
    Reaches after (fun _ => CliMetadata.ownerOf known remember owner)
      (.ok t) := by
  filter_upwards [reached] with l hl memory true
  cases hknown : known memory with
  | some u =>
    -- Whoever is known was declared, and only one is.
    rw [ownerOf_apply_some hknown, unique t u ht (told memory true u hknown)]
    exact ⟨rfl, true⟩
  | none =>
    -- The owner is declared now, and it is noted.
    obtain ⟨answer, kept⟩ := hl memory true
    rw [ownerOf_apply_ok hknown (Prod.ext answer rfl)]
    exact ⟨rfl, keeps _ t kept ht⟩

/-- Where no owner is found, none is remembered. -/
theorem Reaches.ownerOf_error
    (told : ∀ memory : Memory, memory.IsTrue after → ∀ t,
      known memory = some t → Declared t)
    (declared : ∀ t, Declared t → Reaches after (fun _ => owner) (.ok t))
    {error : Error} (reached : Reaches after (fun _ => owner) (.error error)) :
    Reaches after (fun _ => CliMetadata.ownerOf known remember owner)
      (.error error) := by
  filter_upwards [reached] with l hl memory true
  cases hknown : known memory with
  | some u =>
    -- What is remembered is declared, so that it is found, and not the error.
    obtain ⟨l', hl', hl''⟩ :=
      ((declared u (told memory true u hknown)).and reached).exists
    have := (hl' memory true).1.symm.trans (hl'' memory true).1
    cases this
  | none =>
    obtain ⟨answer, kept⟩ := hl memory true
    rw [ownerOf_apply_error hknown (Prod.ext answer rfl)]
    exact ⟨rfl, kept⟩

/-- Where a member is met with its declaring type only, its owner does not
depend on how it was met first. -/
theorem Transfers.ownerOf (unique : ∀ t u, Declared t → Declared u → t = u)
    (told : ∀ memory : Memory, memory.IsTrue after → ∀ t,
      known memory = some t → Declared t)
    (settles : ∀ (memory : Memory) t, memory.IsSettled after → Declared t →
      (remember t memory).IsSettled after)
    (keeps : ∀ (memory : Memory) t, memory.IsTrue after → Declared t →
      (remember t memory).IsTrue after)
    (found : owner.Transfers gap before after always fun _ => owner)
    (declared : owner.Tells gap before after Declared)
    (reached : ∀ t, Declared t → Reaches after (fun _ => owner) (.ok t)) :
    (CliMetadata.ownerOf known remember owner).Transfers gap before after always
      fun _ => CliMetadata.ownerOf known remember owner := by
  have again (t : Ty) (ht : Declared t) :
      Reaches after (fun _ => CliMetadata.ownerOf known remember owner)
        (.ok t) :=
    Reaches.ownerOf unique told keeps ht (reached t ht)
  intro leads sound memory settled
  -- Remembered or found, the owner is declared, and so it is the one that is
  -- found again.
  cases hknown : known memory with
  | some t =>
    rw [ownerOf_apply_some hknown]
    exact ⟨settled, fun _ => again t (told memory settled.isTrue t hknown)⟩
  | none =>
    obtain ⟨kept, carries⟩ := found leads sound memory settled
    rcases hrun : owner before memory with ⟨error | t, memory'⟩
    · rw [hrun] at kept carries
      rw [ownerOf_apply_error hknown hrun]
      exact ⟨kept, fun carried => Reaches.ownerOf_error told reached
        (carries carried)⟩
    · rw [hrun] at kept
      rw [ownerOf_apply_ok hknown hrun]
      have ht := declared leads sound memory settled t (by rw [hrun])
      exact ⟨settles memory' t kept ht, fun _ => again t ht⟩

end

end Query

/-! ### Parts of a type's flags -/

namespace Ty

open Query

variable {gap : Gap} {before after : Registry}

section
variable {t : Ty} {aspect : TypeAspect} {find : Query aspect.Value}
  {registry : Registry} {memory memory' : Memory}

@[simp]
theorem part_apply_known {value : aspect.Value}
    (known : memory.facts.get? (.ofType t aspect) = some value) :
    t.part true aspect find registry memory = (.ok (some value), memory) := by
  have run : established? (.ofType t aspect) registry memory
      = (.ok (some value), memory) := by
    rw [← known]
    rfl
  exact bind_apply_ok run

theorem part_apply_unknown {outcome : Except Error aspect.Value}
    (unknown : memory.facts.get? (.ofType t aspect) = none)
    (run : find registry memory = (outcome, memory')) :
    t.part true aspect find registry memory = (outcome.map some, memory') := by
  have asked :
      established? (.ofType t aspect) registry memory = (.ok none, memory) := by
    rw [← unknown]
    rfl
  refine (bind_apply_ok asked).trans ?_
  cases outcome with
  | error error => exact bind_apply_error run
  | ok value => exact bind_apply_ok run

variable (t aspect) (steady : (Fact.ofType t aspect).IsSteady after.modules)
  (asks : ∀ room, (Fact.ofType t aspect).ask room
    = remember (.ofType t aspect) find)
  (h : ∀ gap before, find.Transfers gap before after always fun _ => find)
include steady asks h

/-- A part of a type's flags is settled. -/
theorem tells_part (isWanted : Bool) :
    (t.part isWanted aspect find).Tells gap before after
    fun part => ∀ value ∈ part,
      (Fact.ofType t aspect).IsSettled after value := by
  intro leads sound memory settled part answer
  cases isWanted with
  | false =>
    cases answer
    exact nofun
  | true =>
    -- The part is remembered, or it is found and reached again.
    cases known : memory.facts.get? (.ofType t aspect) with
    | some value =>
      rw [part_apply_known known] at answer
      cases answer
      rintro _ ⟨⟩
      exact settled.facts _ value known steady
    | none =>
      obtain ⟨_, reached⟩ := h gap before leads sound memory settled
      rcases hrun : find before memory with ⟨error | value, memory'⟩
      · rw [part_apply_unknown known hrun] at answer
        cases answer
      · rw [part_apply_unknown known hrun] at answer
        rw [hrun] at reached
        cases answer
        rintro _ ⟨⟩
        intro room large
        simp only [asks]
        exact Reaches.rememberIf (.of_ask asks) steady
          (fun _ _ => reached (.inr trivial)) large

omit h in
/-- A part of a type's flags is found, whether or not it is known. -/
theorem reaches_part {outcome : Except Error aspect.Value}
    (reached : Reaches after (fun _ => find) outcome) :
    Reaches after (fun _ => t.part true aspect find) (outcome.map some) := by
  have found := Remembers.ask_empty (.of_ask asks) tendsto_id reached
  filter_upwards [reached] with l hl memory true
  cases known : memory.facts.get? (.ofType t aspect) with
  | some value =>
    have told := true.facts _ value known steady
    obtain ⟨l', found, found'⟩ := ((told id tendsto_id).and found).exists
    rw [part_apply_known known, ← found.symm.trans found']
    exact ⟨rfl, true⟩
  | none =>
    obtain ⟨answer, kept⟩ := hl memory true
    rw [part_apply_unknown known (Prod.ext answer rfl)]
    exact ⟨rfl, kept⟩

theorem transfers_part (isWanted : Bool) :
    (t.part isWanted aspect find).Transfers gap before after
      always fun _ => t.part isWanted aspect find := by
  cases isWanted with
  | false => exact .pure none
  | true =>
    intro leads sound memory settled
    cases known : memory.facts.get? (.ofType t aspect) with
    | some value =>
      -- What is known was settled, and settled facts are reached.
      rw [part_apply_known known]
      have settles := settled.facts _ value known steady
      have reached := Reaches.of_isSettled sound asks
        (fun before => h .none before) settles
      exact ⟨settled, fun _ => reaches_part t aspect steady asks reached⟩
    | none =>
      -- What is not known is found, and reached if it is carried.
      obtain ⟨kept, reached⟩ := h gap before leads sound memory settled
      rcases hrun : find before memory with ⟨outcome, memory'⟩
      rw [hrun] at kept reached
      rw [part_apply_unknown known hrun]
      refine ⟨kept, fun carried => reaches_part t aspect steady asks
        (reached ?_)⟩
      cases outcome with
      | error error => exact carried
      | ok value => exact .inr trivial

/-- A part of a type's flags, followed by what may use that the part is
settled. -/
theorem transfers_part_bind {β : Type} {lasting : Gap → β → Prop}
    {next : Option aspect.Value → Query β} (isWanted : Bool)
    (second : ∀ part,
      (∀ value ∈ part, (Fact.ofType t aspect).IsSettled after value) →
      (next part).Transfers gap before after lasting fun _ => next part) :
    (t.part isWanted aspect find >>= next).Transfers gap before after lasting
      fun _ => t.part isWanted aspect find >>= next :=
  (transfers_part t aspect steady asks h isWanted).bind_told
    (tells_part t aspect steady asks h isWanted) second

end

end Ty

end CliMetadata
