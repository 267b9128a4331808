import CliMetadata.Proofs.TypeSystem.Starting
import CliMetadata.Proofs.TypeSystem.Substitution

/-!
# What was asked before

A caller is *careful* who names no type as the owner of a member that it does
not declare.  Whatever a careful caller does, what is remembered stays settled
and what is known as well known is what the system module declares
(`IsCareful.isSettled`): adding a module and getting ready only let the type
system grow, and a question leaves nothing behind that is not settled.

Therefore two careful callers who have added the same modules, in whatever
order, get the same answer to a steady question, whatever each of them asked
before (`IsCareful.answers_alike`).  Two questions are not steady: what is known
of a base without asking for it, and the hash of a type where a type around a
definition in it is told by a reference.
-/

namespace CliMetadata

open Filter Query

/-- The type system, with patience for further steps. -/
def TypeSystem.withPatience (system : TypeSystem) (patience : Nat) :
    TypeSystem :=
  { system with registry := system.registry.withPatience patience }

/-- A steady question has one answer in registries that know the same, whatever
true things are remembered.  An answer that is given in some number of steps is
given with enough patience. -/
theorem Question.answers_alike {before after : Registry}
    (leads : before.LeadsTo .none after) (sound : after.IsSound)
    (owns : after.OwnsMembers) {question : Question}
    (nodes : AreNodes after.modules (fun _ => True) question.types)
    (owners : question.NamesOwners after)
    (steady : question.IsSteady after.modules) {memory memory' : Memory}
    (settled : memory.IsSettled after) (true' : memory'.IsTrue after)
    (ends : ∀ name token, (question.answer before memory).1
      ≠ .error (.circular name token)) :
    ∀ᶠ patience in atTop,
      (question.answer (after.withPatience patience) memory').1
        = (question.answer before memory).1 := by
  have transfers : question.answer.Transfers .none before after question.IsKept
      fun _ => question.answer :=
    question.transfers_answer owns nodes owners steady
  -- An answer carries over, and so does an error that is not that something
  -- runs in a circle.
  have carried : Gap.none.Carries question.IsKept
      (question.answer before memory).1 := by
    cases answer : (question.answer before memory).1 with
    | ok items => exact .inl rfl
    | error error =>
      rw [answer] at ends
      exact ⟨rfl, fun name token same => ends name token
        (congrArg Except.error same)⟩
  filter_upwards [(transfers leads sound memory settled).2 carried]
    with patience reached
  exact (reached memory' true').1

namespace Session

variable {s s' : Session} {options : Options}

/-! ### Careful callers -/

/-- The action does not mistake owners of members, and a module that is added is
small enough for tokens to tell its members apart. -/
def Action.IsCareful (s : Session) : Action → Prop
  | .addModule b =>
    b.tables.methodDefs.size < 2 ^ 24 ∧ b.tables.fields.size < 2 ^ 24
  | .start => True
  | .ask question => question.NamesOwners s.system.registry

/-- A session that a careful caller can come to. -/
inductive IsCareful (options : Options) : Session → Prop where
  | new : IsCareful options (new options)
  | step {s s' : Session} {action : Action} : IsCareful options s →
      action.IsCareful s →
      Step s action s' → IsCareful options s'

theorem IsCareful.isReachable (h : s.IsCareful options) :
    s.IsReachable options := by
  induction h with
  | new => exact .new
  | step _ _ step ih => exact ih.step step

/-- A question that names no members may be asked by who holds its types. -/
theorem Allows.of_types {question : Question}
    (types : ∀ t ∈ question.types, t ∈ s.types)
    (methods : question.methods = []) (fields : question.fields = []) :
    s.Allows question := by
  constructor
  · exact types
  · rw [methods]
    exact List.forall_mem_nil _
  · rw [fields]
    exact List.forall_mem_nil _

/-- A careful caller who is told something holds it. -/
theorem IsCareful.hold (h : s.IsCareful options) {question : Question}
    {α : Type} {query : Query α} {items : α → List Item} {a : α}
    (allowed : s.Allows question)
    (owners : question.NamesOwners s.system.registry)
    (asks : question.answer s.system.registry
      = (do return items (← query) : Query (List Item)) s.system.registry)
    (answer : (s.system.ask query).1 = .ok a) :
    ∃ s' : Session, s'.IsCareful options ∧
      s'.system.registry = s.system.registry ∧
      s'.items = s.items ++ items a := by
  -- The question asks the query and leaves what the query leaves.
  have run : query s.system.registry s.system.memory
      = (.ok a, (query s.system.registry s.system.memory).2) :=
      Prod.ext answer rfl
  have asked : s.system.ask question.answer
      = (.ok (items a), (s.system.ask query).2) := by
    rw [TypeSystem.ask, asks, bind_apply_ok run]
    rfl
  have careful : (Action.ask question).IsCareful s := owners
  exact ⟨_, h.step careful (.answered allowed asked), rfl, rfl⟩

/-! ### What is remembered -/

/-- What a session knows and remembers does not depend on the way to it. -/
structure IsSettled (s : Session) : Prop where
  members : s.system.registry.OwnsMembers
  known : s.system.registry.KnowsDeclared
  memory : s.system.memory.IsSettled s.system.registry

theorem isSettled_new (options : Options) : (new options).IsSettled where
  members := nofun
  known := ⟨nofun, nofun⟩
  memory := Memory.isSettled_empty _

/-- A session that can be come to is sound. -/
theorem IsReachable.isSound (h : s.IsReachable options) :
    s.system.registry.IsSound where
  proper := h.isFaithful.system.proper
  live := h.live
  wellKnown types htypes :=
    (h.isFaithful.system.wellKnown types htypes).le fun _ _ => True.intro

/-- The types that a caller may name are nodes, however they were shared. -/
theorem IsReachable.areNodes (h : s.IsReachable options) {question : Question}
    (allowed : s.Allows question) :
    AreNodes s.system.registry.modules (fun _ => True) question.types :=
  AreNodes.le (h.isFaithful.isAboutNodes allowed).types fun _ _ => True.intro

/-- A question leaves behind what is settled. -/
theorem IsSettled.ask (h : s.IsSettled) (reachable : s.IsReachable options)
    {question : Question} (allowed : s.Allows question)
    (owners : question.NamesOwners s.system.registry) :
    (s.system.ask question.answer).2.memory.IsSettled s.system.registry := by
  have sound := reachable.isSound
  have leads : s.system.registry.LeadsTo .growth s.system.registry :=
    .rfl sound.live
  have leaves : question.answer.Transfers .growth s.system.registry
      s.system.registry never
      fun _ => question.answer :=
    question.unlasting_answer h.members (reachable.areNodes allowed)
      owners nofun
  exact (leaves leads sound s.system.memory h.memory).1

/-- A session is settled after a question. -/
theorem IsSettled.of_ask (h : s.IsSettled) (reachable : s.IsReachable options)
    {question : Question} (allowed : s.Allows question)
    (owners : question.NamesOwners s.system.registry)
    {outcome : Except Error (List Item)} {system : TypeSystem}
    (items : List Item)
    (asked : s.system.ask question.answer = (outcome, system)) :
    IsSettled { system, items } := by
  have same : system.registry = s.system.registry :=
    TypeSystem.registry_of_ask asked
  have kept := h.ask reachable allowed owners
  rw [asked] at kept
  constructor
  · -- A question leaves the registry alone.
    rw [same]
    exact h.members
  · rw [same]
    exact h.known
  · rw [same]
    exact kept

/-- A session is settled after a module is added. -/
theorem IsSettled.addModule (h : s.IsSettled)
    (reachable : s.IsReachable options) {b : ModuleBuilder} (built : b.IsBuilt)
    (methods : b.tables.methodDefs.size < 2 ^ 24)
    (fields : b.tables.fields.size < 2 ^ 24) {system : TypeSystem}
    (added : s.system.addModule (.ofImage b.image) = .ok system) :
    IsSettled { s with system } := by
  have after : IsReachable options { s with system } :=
    reachable.step (.addModule built added)
  have more := TypeSystem.eq_of_addModule added
  have members : system.registry.OwnsMembers := by
    rw [more]
    refine List.forall_mem_append.mpr
      ⟨h.members, List.forall_mem_singleton.mpr ?_⟩
    exact built.ownsMembers methods fields
  have sound : system.registry.IsSound := after.isSound
  have leads := TypeSystem.leadsTo_addModule reachable.live added
  refine ⟨members, ?_, ?_⟩
  · rw [more]
    exact h.known.more _
  -- What was settled before stays settled while the type system grows.
  · have grown := h.memory.grow leads sound members
    rw [more] at grown ⊢
    exact grown

/-- A start leaves the type system as it is, or publishes what it finds in the
system module. -/
theorem IsSettled.start_cases (h : s.IsSettled)
    (reachable : s.IsReachable options) :
    s.system.start.2 = s.system ∨ s.system.registry.wellKnown = none ∧
      ∃ m fixed wellKnown, s.system.registry.IsSystemModule m ∧
        s.system.Finds m WellKnown.all
          (s.system.findWellKnown m WellKnown.all).1
          (s.system.findWellKnown m WellKnown.all).2 fixed ∧
        (∀ types, wellKnown = some types →
          (s.system.findWellKnown m WellKnown.all).1 = .ok types) ∧
        s.system.start.2 = { (s.system.findWellKnown m WellKnown.all).2 with
          registry := { (s.system.findWellKnown m WellKnown.all).2.registry
            with wellKnown } } := by
  by_cases starts : s.system.isReady = true ∨
      s.system.registry.module? s.system.registry.options.systemModule = none
  · exact .inl (TypeSystem.start_eq_self starts)
  obtain ⟨unready, there⟩ := not_or.mp starts
  obtain ⟨m, hm⟩ := Option.ne_none_iff_exists'.mp there
  -- Otherwise the core library is searched for all types in turn.
  have unknown : s.system.registry.wellKnown = none := by
    simpa [TypeSystem.isReady] using unready
  obtain ⟨mem, named⟩ := Registry.mem_of_module? hm
  obtain ⟨fixed, finds⟩ := TypeSystem.finds_findWellKnown reachable.isSound
    h.members h.memory unknown mem WellKnown.all
  obtain ⟨wellKnown, found, started⟩ :=
    TypeSystem.start_of_module? (Bool.eq_false_iff.mpr unready)
      hm (by rw [finds.registry]; exact unknown)
  exact .inr ⟨unknown, m, fixed, wellKnown, ⟨mem, named⟩, finds, found, started⟩

/-- A start lets the type system grow. -/
theorem IsSettled.leadsTo_start (h : s.IsSettled)
    (reachable : s.IsReachable options) :
    s.system.registry.LeadsTo .growth s.system.start.2.registry := by
  obtain same | ⟨unknown, m, fixed, wellKnown, -, finds, -, started⟩ :=
    h.start_cases reachable
  · rw [same]
    exact .rfl reachable.live
  · rw [started, finds.registry]
    exact .grow reachable.live rfl (fun _ => id) rfl (by simp [unknown])

/-- A session is settled after its type system was asked to get ready, whether
or not it is ready. -/
theorem IsSettled.start (h : s.IsSettled) (reachable : s.IsReachable options) :
    IsSettled { s with system := s.system.start.2 } := by
  have after : IsReachable options { s with system := s.system.start.2 } :=
    reachable.step (.start rfl)
  obtain same | ⟨unknown, m, fixed, wellKnown, hm, finds, found, started⟩ :=
    h.start_cases reachable
  · rw [same]
    exact h
  -- What is found is declared by the system module, and with it the type system
  -- grows once more.
  have sound := reachable.isSound
  have modules :
      s.system.start.2.registry.modules = s.system.registry.modules := by
    rw [started, finds.registry]
  have members : s.system.start.2.registry.OwnsMembers := by
    rw [Registry.OwnsMembers, modules]
    exact h.members
  refine ⟨members, ?_, ?_⟩
  · show s.system.start.2.registry.KnowsDeclared
    rw [started]
    exact finds.knowsDeclared h.known sound.proper hm found
  · have leads :
        (s.system.findWellKnown m WellKnown.all).2.registry.LeadsTo .growth
        s.system.start.2.registry := by
      rw [started, finds.registry]
      exact .grow sound.live rfl (fun _ => id) (List.append_nil _).symm
        (by simp [unknown])
    have grown := finds.settled.grow leads after.isSound members
    rw [started] at grown ⊢
    exact grown

/-- Whatever a careful caller does, the session is settled. -/
theorem IsCareful.isSettled (h : s.IsCareful options) : s.IsSettled := by
  induction h with
  | new => exact isSettled_new options
  | @step s s' action before careful step ih =>
    have reachable := before.isReachable
    cases step with
    | addModule built added =>
      exact ih.addModule reachable built careful.1 careful.2 added
    | start started =>
      have settled := ih.start reachable
      rw [started] at settled
      exact settled
    | failed allowed _ asked =>
      exact ih.of_ask reachable allowed careful _ asked
    | answered allowed asked =>
      exact ih.of_ask reachable allowed careful _ asked

/-! ### The same answer again -/

/-- No session changes its options. -/
theorem IsReachable.options_eq (h : s.IsReachable options) :
    s.system.registry.options = options := by
  induction h with
  | new => rfl
  | step _ step ih =>
    obtain ⟨modules, fixed, wellKnown, same⟩ := step.registry
    rw [same]
    exact ih

/-- Whatever two careful callers have asked before, once they have added the
same modules and are ready, they get the same answer to a steady question.  An
answer that one of them gets in some number of steps, the other gets with enough
patience. -/
theorem IsCareful.answers_alike (h : s.IsCareful options)
    (h' : s'.IsCareful options) (ready : s.system.isReady)
    (ready' : s'.system.isReady)
    (modules : ∀ m, m ∈ s.system.registry.modules ↔
      m ∈ s'.system.registry.modules)
    {question : Question} (allowed : s.Allows question)
    (owners : question.NamesOwners s.system.registry)
    (steady : question.IsSteady s.system.registry.modules)
    (ends : ∀ name token, (s.system.ask question.answer).1
      ≠ .error (.circular name token)) :
    ∀ᶠ patience in atTop,
      ((s'.system.withPatience patience).ask question.answer).1
        = (s.system.ask question.answer).1 := by
  have reachable := h.isReachable
  have reachable' := h'.isReachable
  have sound' := reachable'.isSound
  have more : ∀ m ∈ s.system.registry.modules, m ∈ s'.system.registry.modules :=
    fun m => (modules m).mp
  have fewer : ∀ m ∈ s'.system.registry.modules,
      m ∈ s.system.registry.modules :=
    fun m => (modules m).mpr
  have options_eq : s'.system.registry.options = s.system.registry.options :=
    reachable'.options_eq.trans reachable.options_eq.symm
  -- To both, the same is known as well known, so that the registries differ in
  -- order only.
  have leads : s.system.registry.LeadsTo .none s'.system.registry :=
    h.isSettled.known.leadsTo h'.isSettled.known sound'.proper reachable.live
      options_eq modules ready ready'
  have nodes : AreNodes s'.system.registry.modules
      (fun _ => True) question.types :=
    fun t ht => (reachable.areNodes allowed t ht).mono more fun _ => id
  have memory : s.system.memory.IsSettled s'.system.registry :=
    h.isSettled.memory.grow leads sound' h'.isSettled.members
  exact question.answers_alike leads sound' h'.isSettled.members nodes
    (owners.more more)
    (.of_more fewer steady) memory h'.isSettled.memory.isTrue ends

end Session

end CliMetadata
