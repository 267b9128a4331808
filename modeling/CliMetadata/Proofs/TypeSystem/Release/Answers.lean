import CliMetadata.Proofs.TypeSystem.Nearest
import CliMetadata.Proofs.TypeSystem.Release.Recovery

/-!
# Answers after a release

What a caller holds can be asked about after the type system is released, and
what is told then is what would have been told before
(`Session.IsCareful.answers_after_release`), part by part where there is a
listing, apart from what is said to be released.

Three questions are answered where nothing can be known (`Question.fallback?`):
a type is shown by a placeholder, it is not well known, and it has no layout.
These answers need not be those of before: after the release no type is well
known (`Session.KeepsFrom.ask_isWellKnown`), and a type has a layout only if its
module is held (`Session.KeepsFrom.ask_layout`).
-/

namespace CliMetadata

open Filter Query

variable {before after : Registry}

/-! ### Listings -/

/-- What is left of a part of an answer: the part itself, or what is released,
in its place. -/
inductive Item.IsLeftOf : Item → Item → Prop where
  | same (item : Item) : IsLeftOf item item
  | lost (holder : Holder) (item : Item) :
      IsLeftOf (.failure (.released holder)) item

theorem Item.isLeftOf_ofResult {α : Type} {late early : Except Error α}
    (item : α → Item) (left : CliMetadata.IsLeftOf late early) :
    (Item.ofResult item late).IsLeftOf (.ofResult item early) := by
  cases left with
  | same outcome => exact .same _
  | lost holder a => exact .lost holder _

/-- All parts of an answer are left. -/
theorem Item.areLeftOf_self (items : List Item) :
    List.Forall₂ Item.IsLeftOf items items :=
  List.forall₂_same.mpr fun item _ => .same item

section
variable {α : Type} (item : α → Item)

theorem Item.areLeftOf_map {late early : List (Except Error α)}
    (left : List.Forall₂ CliMetadata.IsLeftOf late early) :
    List.Forall₂ Item.IsLeftOf (late.map (.ofResult item))
      (early.map (.ofResult item)) := by
  rw [List.forall₂_map_left_iff, List.forall₂_map_right_iff]
  exact left.imp fun _ _ => isLeftOf_ofResult item

theorem Item.areLeftOf_toList {late early : Option (Except Error α)}
    (left : Option.Rel CliMetadata.IsLeftOf late early) :
    List.Forall₂ Item.IsLeftOf (late.toList.map (.ofResult item))
      (early.toList.map (.ofResult item)) := by
  cases left with
  | none => exact .nil
  | some left => exact .cons (isLeftOf_ofResult item left) .nil

end

namespace ModuleQuestion

variable {m : Module} (hm : m ∈ after.modules)
include hm

theorem recovers_types :
    (types.answer m).Recovers before after (List.Forall₂ Item.IsLeftOf)
    (types.answer m) := by
  refine (Module.recovers_typesFrom hm 1 _).map ?_
  rintro late _ rfl
  exact Item.areLeftOf_self _

theorem recovers_typeAt (position : Nat) :
    ((typeAt position).answer m).Recovers before after
      (List.Forall₂ Item.IsLeftOf) ((typeAt position).answer m) := by
  refine (Module.recovers_typeAt? hm position).map ?_
  rintro late _ rfl
  exact Item.areLeftOf_self _

end ModuleQuestion

namespace TypeQuestion

variable {t : Ty} (owns : after.OwnsMembers)
  (ht : t.IsNode after.modules fun _ => True)
include owns ht

theorem recovers_methods (filter : MethodFilter) :
    ((methods filter).answer t).Recovers before after
      (List.Forall₂ Item.IsLeftOf)
      ((methods filter).answer t) :=
  .bind_told (t.transfers_methods filter)
    (Ty.tells_methods_endure owns ht filter) fun _ endures =>
    (Members.recovers_all endures).map fun _ _ left =>
      Item.areLeftOf_map .method left

theorem recovers_methodAt (filter : MethodFilter) (position : Nat) :
    ((methodAt filter position).answer t).Recovers before after
      (List.Forall₂ Item.IsLeftOf)
      ((methodAt filter position).answer t) :=
  .bind_told (t.transfers_methods filter)
    (Ty.tells_methods_endure owns ht filter) fun _ endures =>
    (Members.recovers_item? position endures).map
      fun _ _ left => Item.areLeftOf_toList .method left

theorem recovers_fields :
    (fields.answer t).Recovers before after (List.Forall₂ Item.IsLeftOf)
    (fields.answer t) :=
  .bind_told (t.transfers_fields none) (Ty.tells_fields_endure owns ht none)
    fun _ endures =>
    (Members.recovers_all endures).map fun _ _ left =>
      Item.areLeftOf_map .field left

theorem recovers_fieldAt (position : Nat) :
    ((fieldAt position).answer t).Recovers before after
      (List.Forall₂ Item.IsLeftOf) ((fieldAt position).answer t) :=
  .bind_told (t.transfers_fields none) (Ty.tells_fields_endure owns ht none)
    fun _ endures =>
    (Members.recovers_item? position endures).map
      fun _ _ left => Item.areLeftOf_toList .field left

end TypeQuestion

/-! ### Questions -/

/-- What is left of the answer to a question about a module is told if the
module is there. -/
theorem Question.recovers_ofModule {name : String} {question : ModuleQuestion}
    (h : ∀ m ∈ after.modules, (question.answer m).Recovers before after
      (List.Forall₂ Item.IsLeftOf) (question.answer m)) :
    (ofModule name question).answer.Recovers before after
      (List.Forall₂ Item.IsLeftOf)
      (ofModule name question).answer := by
  refine .read_bind (fun _ => rfl) fun leads sound => ?_
  cases hm : before.module? name with
  | some m =>
    have found := leads.module?_eq_some sound.proper hm
    rw [found]
    exact h m (Registry.mem_of_module? found).1
  | none =>
    rw [leads.module?_eq_none nofun hm]
    exact .pure .nil

section
variable (leads : before.LeadsTo .release after) (sound : after.IsSound)
  (members : after.OwnsMembers) {memory : Memory}
  (settled : memory.IsSettled after) {question : Question}
  (nodes : AreNodes after.modules (fun _ => True) question.types)
  (owners : question.NamesOwners after)
  (steady : question.IsSteady after.modules)
include leads sound members settled nodes owners steady

/-- What a released type system tells is what is left of what the live one
tells, or is told where nothing can be known. -/
theorem Question.exists_yields {items : List Item}
    (answer : (question.answer before memory).1 = .ok items) :
    question.fallback? = some items ∨
      ∃ told, List.Forall₂ Item.IsLeftOf items told ∧
      question.answer.Yields after told := by
  have transfers : question.answer.Transfers .release before after
      question.IsKept
      fun _ => question.answer :=
    question.transfers_answer members nodes owners steady
  by_cases kept : question.IsKept .release items
  · have reached := (transfers leads sound memory settled).2
    rw [answer] at reached
    exact .inr ⟨items, Item.areLeftOf_self items, reached (.inr kept)⟩
  -- What is not kept is told where nothing can be known, or it is listed.
  have recovered (h : question.answer.Recovers before after
      (List.Forall₂ Item.IsLeftOf)
      question.answer) : question.fallback? = some items ∨
        ∃ told, List.Forall₂ Item.IsLeftOf items told ∧
        question.answer.Yields after told := by
    obtain ⟨told, yields, left⟩ := (h leads sound memory settled).2 items answer
    exact .inr ⟨told, left, yields⟩
  have known (others : question.fallback? ≠ some items →
      question.IsKept .release items) :
      question.fallback? = some items :=
      not_not.mp fun other => kept (others other)
  cases question with
  | ofModule name question =>
    cases question with
    | types =>
      exact recovered (recovers_ofModule fun m hm =>
        ModuleQuestion.recovers_types hm)
    | typeAt position =>
      exact recovered (recovers_ofModule fun m hm =>
        ModuleQuestion.recovers_typeAt hm position)
    | _ => exact .inl (known (And.intro rfl))
  | ofType t question =>
    cases question with
    | methods filter =>
      exact recovered (TypeQuestion.recovers_methods members nodes.head filter)
    | methodAt filter position =>
      exact recovered
        (TypeQuestion.recovers_methodAt members nodes.head filter position)
    | fields =>
      exact recovered (TypeQuestion.recovers_fields members nodes.head)
    | fieldAt position =>
      exact recovered
        (TypeQuestion.recovers_fieldAt members nodes.head position)
    | _ => exact .inl (known (And.intro rfl))
  | _ => exact .inl (known (And.intro rfl))

end

/-! ### Layouts -/

/-- The module of a name, if it can be reached. -/
def Registry.reached? (registry : Registry) (name : String) : Option Module :=
  if registry.reaches name then registry.module? name else none

/-- What a module says about the layout of a type. -/
def Module.statedLayout (m : Module) (type : Token) : UInt16 × UInt32 :=
  match m.image.layoutOf? type with
  | some row => (row.packing, row.size)
  | none => (0, 0)

theorem reachModule_apply_reached? (name : String) (registry : Registry)
    (memory : Memory) :
    reachModule name registry memory
      = ((registry.reached? name).elim (.error (.released .module)) .ok,
        memory) := by
  have run : (read : Query Registry) registry memory = (.ok registry, memory) :=
    rfl
  refine (bind_apply_ok run).trans ?_
  rw [Registry.reached?]
  cases registry.module? name with
  | none => cases registry.reaches name <;> rfl
  | some m => cases registry.reaches name <;> rfl

/-- The layout of a type is what its module says, if it can be reached. -/
theorem Ty.layout_apply {t : Ty} {d : TypeDefinition}
    (hd : t.definition? = some d) (registry : Registry) (memory : Memory) :
    t.layout registry memory
      = (.ok ((registry.reached? d.module).elim (0, 0)
        fun m => m.statedLayout d.token),
        memory) := by
  have run := reachModule_apply_reached? d.module registry memory
  rw [Ty.layout.eq_def, hd]
  cases reached : registry.reached? d.module with
  | none =>
    rw [reached] at run
    exact bind_apply_ok (attempt_apply run (NotCircular.error rfl))
  | some m =>
    rw [reached] at run
    refine (bind_apply_ok (attempt_apply run (NotCircular.ok m))).trans ?_
    dsimp only [Option.elim, Module.statedLayout]
    cases m.image.layoutOf? d.token <;> rfl

/-! ### Sessions -/

namespace Session

variable {s late : Session} {options : Options} {held : List String}

/-- The caller releases the type system, and goes on to hold some of the
modules. -/
def release (s : Session) (held : List String) : Session :=
  { s with system := s.system.release held }

/-- A session that a careful caller can come to after the release. -/
inductive Outlives (s : Session) (held : List String) : Session → Prop where
  | release : Outlives s held (s.release held)
  | ask {late later : Session} {question : Question} : Outlives s held late →
      question.NamesOwners s.system.registry → Step late (.ask question) later →
        Outlives s held later

/-- What a session has of the one that was released. -/
structure KeepsFrom (s : Session) (held : List String) (late : Session) :
    Prop where
  registry : late.system.registry = { s.system.registry with held := some held }
  memory : late.system.memory.IsSettled s.system.registry
  faithful : late.IsFaithful

theorem KeepsFrom.leadsTo (keeps : KeepsFrom s held late) :
    late.system.registry.LeadsTo .release s.system.registry := by
  rw [keeps.registry]
  exact s.system.registry.leadsTo_of_release held

/-- The types that a caller may name are nodes of the modules that were
there. -/
theorem KeepsFrom.areNodes (keeps : KeepsFrom s held late) {question : Question}
    (allowed : late.Allows question) :
    AreNodes s.system.registry.modules (fun _ => True) question.types := by
  have nodes := (keeps.faithful.isAboutNodes allowed).types
  rw [keeps.registry] at nodes
  exact nodes.le fun _ _ => True.intro

/-- Whatever a careful caller asks after the release, what is remembered is
settled. -/
theorem IsCareful.keepsFrom (h : s.IsCareful options)
    (outlives : s.Outlives held late) :
    KeepsFrom s held late := by
  have sound := h.isReachable.isSound
  induction outlives with
  | release =>
    -- At the release nothing has been asked yet.
    have faithful := h.isReachable.isFaithful
    exact {
      registry := rfl
      memory := h.isSettled.memory
      faithful :=
        ⟨{ faithful.system with proper := { faithful.system.proper with } },
        faithful.held⟩ }
  | @ask late later question _ owners step ih =>
    -- A question leaves a settled memory, whether or not it is answered.
    have leaves (allowed : late.Allows question) :
        (late.system.ask question.answer).2.memory.IsSettled
          s.system.registry := by
      have unlasting : question.answer.Transfers .release late.system.registry
          s.system.registry
          never fun _ => question.answer :=
        question.unlasting_answer h.isSettled.members
          (ih.areNodes allowed) owners nofun
      exact (unlasting ih.leadsTo sound late.system.memory ih.memory).1
    have faithful := (ih.faithful.step_precedes step).1
    cases step with
    | failed allowed _ asked =>
      have kept := leaves allowed
      rw [asked] at kept
      exact ⟨(TypeSystem.registry_of_ask asked).trans ih.registry,
        kept, faithful⟩
    | answered allowed asked =>
      have kept := leaves allowed
      rw [asked] at kept
      exact ⟨(TypeSystem.registry_of_ask asked).trans ih.registry,
        kept, faithful⟩

/-- What a careful caller is told after the release is what is left of what the
type system had to say before it, whatever was asked since, or is told where
nothing can be known. -/
theorem IsCareful.answers_after_release (h : s.IsCareful options)
    (outlives : s.Outlives held late) {question : Question}
    (allowed : late.Allows question)
    (owners : question.NamesOwners s.system.registry)
    (steady : question.IsSteady s.system.registry.modules) {items : List Item}
    (answer : (late.system.ask question.answer).1 = .ok items) :
    question.fallback? = some items ∨
      ∃ told, List.Forall₂ Item.IsLeftOf items told ∧
      s.system.Resolves question.answer told := by
  have sound := h.isReachable.isSound
  have keeps := h.keepsFrom outlives
  obtain known | ⟨told, left, yields⟩ :=
    Question.exists_yields keeps.leadsTo sound
      h.isSettled.members keeps.memory (keeps.areNodes allowed) owners
      steady answer
  · exact .inl known
  · exact .inr ⟨told, left, h.answers_of_yields yields⟩

/-! ### What is told where nothing can be known -/

/-- After the release no type is said to be well known. -/
theorem KeepsFrom.ask_isWellKnown (keeps : KeepsFrom s held late) (t : Ty)
    (kind : WellKnown) :
    (late.system.ask (t.isWellKnown kind)).1 = .ok false := by
  have gone : ¬ late.system.registry.isLive = true := by
    rw [keeps.registry]
    exact Bool.false_ne_true
  show ((if ¬ late.system.registry.isLive
      = true then pure false else _ : Query Bool)
    late.system.registry late.system.memory).1 = _
  rw [if_pos gone]
  rfl

/-- After the release a type has the layout that it had if its module is held,
or else none. -/
theorem KeepsFrom.ask_layout (keeps : KeepsFrom s held late)
    (live : s.system.registry.held = none) {t : Ty} {d : TypeDefinition}
    (hd : t.definition? = some d) :
    (late.system.ask t.layout).1
      = if d.module ∈ held then (s.system.ask t.layout).1 else .ok (0, 0) := by
  -- The layout is read off the module of the definition, if it is reached.
  have told (system : TypeSystem) : (system.ask t.layout).1 = .ok
      ((system.registry.reached? d.module).elim (0, 0)
        fun m => m.statedLayout d.token) := by
    rw [TypeSystem.ask, Ty.layout_apply hd]
  have before : s.system.registry.reached? d.module
      = s.system.registry.module? d.module :=
    -- Everything was reached before, and the modules that are held are now.
    if_pos (Registry.reaches_of_live live d.module)
  have after : late.system.registry.reached? d.module
      = if d.module ∈ held then s.system.registry.module? d.module
        else none := by
    rw [keeps.registry]
    simp only [Registry.reached?, Registry.reaches, List.contains_iff_mem]
    rfl
  rw [told, told, before, after]
  split <;> rfl

/-! A type with a layout. -/

def paddedCalls : List ModuleBuilder.Call :=
  [.typeDef "N" "Padded" .public .null, .classLayout ⟨0x02000002⟩ 4 16]

def padded : TypeDefinition where
  module := "App"
  token := ⟨0x02000002⟩
  flags := .public
  name := 10
  namespaceName := 17
  base := .null

theorem declares_padded : (Module.ofImage
    ((ModuleBuilder.new "App").applyAll paddedCalls).image).Declares
      ⟨0x02000002⟩ (.definition padded) := ⟨_, rfl, rfl⟩

/-- Where the module is held, the layout of the type is told as before; where it
is not, the type is said to have none. -/
theorem padded_answers_after_release : ∃ s : Session, s.IsCareful {} ∧
    s.system.Resolves (Question.ofType (.definition padded) .layout).answer
      [.number 4, .number 16] ∧
    ((s.release ["App"]).system.ask
      (Question.ofType (.definition padded) .layout).answer).1
      = .ok [.number 4, .number 16] ∧
    ((s.release []).system.ask
      (Question.ofType (.definition padded) .layout).answer).1
      = .ok [.number 0, .number 0] := by
  obtain ⟨s, careful, same, held⟩ :=
    exists_holds paddedCalls (by constructor <;> decide) declares_padded
  have layout :
      (s.system.ask (Ty.definition padded).layout).1 = .ok (4, 16) := by
    rw [TypeSystem.ask, Ty.layout_apply rfl, same]
    rfl
  have answers {system : TypeSystem} {packing : UInt16} {size : UInt32}
      (told :
        (system.ask (Ty.definition padded).layout).1 = .ok (packing, size)) :
      (system.ask (Question.ofType (.definition padded) .layout).answer).1
        = .ok [.number packing.toNat, .number size.toNat] := by
    have run : (Ty.definition padded).layout system.registry system.memory
        = (.ok (packing, size), _) := Prod.ext told rfl
    rw [TypeSystem.ask]
    exact congrArg Prod.fst (bind_apply_ok run)
  have keeps (modules : List String) :
      KeepsFrom s modules (s.release modules) :=
    careful.keepsFrom .release
  have kept : ((s.release ["App"]).system.ask (Ty.definition padded).layout).1
      = .ok (4, 16) := by
    rw [(keeps _).ask_layout careful.isReachable.live rfl]
    exact layout
  have lost : ((s.release []).system.ask (Ty.definition padded).layout).1
      = .ok (0, 0) := by
    rw [(keeps _).ask_layout careful.isReachable.live rfl]
    rfl
  refine ⟨s, careful, ?_, answers kept, answers lost⟩
  -- What is told where the module is held is what was told before.
  have allowed :
      (s.release ["App"]).Allows (.ofType (.definition padded) .layout) :=
    .of_types (List.forall_mem_singleton.mpr held) rfl rfl
  obtain known | ⟨told, left, resolves⟩ :=
    IsCareful.answers_after_release careful .release allowed trivial trivial
      (answers kept)
  · simp [Question.fallback?] at known
  · obtain _ | ⟨⟨⟩, _ | ⟨⟨⟩, ⟨⟩⟩⟩ := left
    exact resolves

end Session

end CliMetadata
