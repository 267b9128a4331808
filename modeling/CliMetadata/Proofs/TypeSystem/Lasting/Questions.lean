import CliMetadata.Proofs.TypeSystem.Commutation
import CliMetadata.Proofs.TypeSystem.Lasting.Flags

/-!
# Answers that stay as they were

No step of a caller takes anything away from a type system
(`Session.Step.growsInto`): modules are added behind those that are there, a
type system that is ready is not made ready again, and any question only adds to
what is remembered.  So once a question has led to a type, a member or a
signature, it leads there again, whatever the caller does in between
(`Session.IsReachable.finds_again`).  That nothing was found may change, and so
may an error.
-/

namespace CliMetadata

open Query

/-! ### Questions -/

/-- Questions that lead to a type, a member or a signature, where they lead
anywhere. -/
def ModuleQuestion.IsSearch : ModuleQuestion → Prop
  | types | typeAt _ | loadAll => False
  | _ => True

/-- Questions that lead to types or to a member, where they lead anywhere. -/
def TypeQuestion.IsSearch : TypeQuestion → Prop
  | containing | base | openBase | parameters | method .. | equivalentMethod
      .. | field _ => True
  | staticConstructor | defaultConstructor | dispatch _ | finalizer | nested
      _ | underlying => True
  | substituted .. | applied _ | shaped _ => True
  | _ => False

/-- Questions that lead to types, to a signature or to a view. -/
def MethodQuestion.IsSearch : MethodQuestion → Prop
  | signature | parameters | viewedOn _ => True
  | _ => False

/-- Questions that lead to a type or to a view. -/
def FieldQuestion.IsSearch : FieldQuestion → Prop
  | type | viewedOn _ => True
  | _ => False

/-- Questions that lead to types, members or signatures, where they lead
anywhere. -/
def Question.IsSearch : Question → Prop
  | wellKnown _ | «variable» .. | substituted .. => True
  | ofModule _ question => question.IsSearch
  | ofType _ question => question.IsSearch
  | ofMethod _ question => question.IsSearch
  | ofField _ question => question.IsSearch

/-! ### Answers -/

section
variable {α : Type}

/-- An answer that is made from what stays. -/
theorem lasts_items {query : Query α} (h : query.Stays) {items : α → List Item}
    {P : List Item → Prop} :
    (do return items (← query) : Query (List Item)).Lasts P :=
  h.bind fun _ => .pure _

/-- An answer that is made from what is found, if anything is. -/
theorem lasts_found {query : Query (Option α)} (h : query.Finds)
    {item : α → Item} {isSearch : Prop} :
    (do return (← query).toList.map item : Query (List Item)).Lasts
      fun items => isSearch ∧ items ≠ [] := by
  refine h.bind_of (fun _ _ _ _ => .pure _) ?_
  rintro (_ | a) lost _ _ items ⟨⟩
  · exact fun ⟨_, found⟩ => found rfl
  · exact absurd rfl lost

/-- An answer of which nothing is said. -/
theorem lasts_unsought {query : Query α} {lasting : α → Prop}
    (h : query.Lasts lasting) {items : α → List Item} :
    (do return items (← query) : Query (List Item)).Lasts
      fun items => False ∧ items ≠ [] := by
  apply Lasts.imp (h.bind_adds fun _ => .pure _)
  exact fun _ nothing => nothing.1

end

theorem ModuleQuestion.lasts_answer (m : Module) (question : ModuleQuestion) :
    (question.answer m).Lasts fun items => question.IsSearch ∧ items ≠ [] := by
  cases question with
  | type token => exact lasts_found (finds_type m token)
  | typeNamed home text => exact lasts_found (m.finds_typeNamed home text)
  | types => exact lasts_unsought (m.adds_typesFrom 1 _)
  | typeAt position => exact lasts_unsought (m.adds_typeAt? position)
  | loadAll => exact lasts_unsought m.stays_loadAll
  | parameter token => exact lasts_items (m.stays_parameter token)
  | method token owner => exact lasts_items (m.stays_method token owner)
  | field token owner => exact lasts_items (m.stays_field token owner)
  | entity token => exact lasts_found (m.finds_entity token)
  | resolve signature => exact lasts_items (m.stays_resolve signature)
  | resolveMethod signature =>
    exact lasts_items (m.stays_resolveMethod signature)

theorem TypeQuestion.lasts_answer (t : Ty) (question : TypeQuestion) :
    (question.answer t).Lasts fun items => question.IsSearch ∧ items ≠ [] := by
  cases question with
  -- What a type is called, which need not be told again.
  | name => exact lasts_unsought t.stays_simpleName
  | namespaceName => exact lasts_unsought t.stays_namespaceText
  | fullName => exact lasts_unsought t.adds_fullName
  | display => exact lasts_unsought t.adds_display
  | module => exact lasts_unsought t.stays_module?
  | containing => exact lasts_found t.finds_containing
  -- What it derives from.
  | base => exact lasts_items t.stays_base
  | openBase =>
    cases t with
    | definition d => exact lasts_items d.stays_openBase
    | _ => exact .pure _
  | hasBase => exact lasts_unsought t.stays_hasBase
  | baseState =>
    cases t with
    | definition d => exact lasts_unsought d.adds_baseState
    | _ => exact .pure _
  -- Which type it is, and its flags.
  | parameters => exact lasts_items t.stays_instantiation
  | isGenericDefinition => exact lasts_unsought t.stays_isGenericDefinition
  | isWellKnown kind => exact lasts_unsought (t.adds_isWellKnown kind)
  | flags request => exact lasts_unsought (t.adds_findFlags request)
  | category => exact lasts_unsought t.stays_category
  | variance => exact lasts_unsought t.stays_hasVariance
  | markers => exact lasts_unsought t.stays_attributeFlags
  | hasFinalizer => exact lasts_unsought t.stays_hasFinalizer
  | isSealed => exact lasts_unsought t.stays_isSealed
  | methods filter =>
    -- Lists of members, which need not be told again.
    exact t.lasts_methods_bind filter fun _ stay =>
      lasts_unsought stay.lasts_all
  | methodAt filter position =>
    exact t.lasts_methods_bind filter fun _ stay => lasts_unsought
      (stay.adds_item? position)
  | fields =>
    exact t.lasts_fields_bind none fun _ stay => lasts_unsought stay.lasts_all
  | fieldAt position =>
    exact t.lasts_fields_bind none fun _ stay => lasts_unsought
      (stay.adds_item? position)
  | method text wanted substitution =>
    -- Members that were searched for.
    exact lasts_items (t.stays_findMethod text wanted substitution _)
  | equivalentMethod text wanted substitution =>
    exact lasts_items (t.stays_findMethod text wanted substitution _)
  | field text => exact lasts_items (t.stays_fieldNamed text)
  | staticConstructor => exact lasts_items t.stays_staticConstructor
  | defaultConstructor => exact lasts_items t.stays_defaultConstructor
  | dispatch declaration => exact lasts_items (t.stays_dispatch declaration)
  | finalizer => exact lasts_items t.stays_finalizer
  -- Types inside it and what stands at its row.
  | nestedTypes => exact lasts_unsought t.adds_nestedTypes
  | nested text => exact lasts_found (t.finds_nestedType text)
  | hasAttribute home text =>
    exact lasts_unsought (t.stays_hasAttribute home text)
  | inlineLength => exact lasts_unsought t.stays_inlineLength
  | layout => exact lasts_unsought t.adds_layout
  | underlying => exact lasts_items t.stays_underlying
  | hash => exact lasts_unsought t.adds_hash
  | substituted forTypes forMethods =>
    -- Types that are made of it.
    exact lasts_items (t.stays_substituted forTypes forMethods)
  | applied arguments => exact lasts_items (stays_instantiate t arguments)
  | shaped shape => exact lasts_items (stays_shapeOf shape t)

theorem MethodQuestion.lasts_answer (method : Method)
    (question : MethodQuestion) :
    (question.answer method).Lasts fun items => question.IsSearch ∧
      items ≠ [] := by
  cases question with
  | name => exact lasts_unsought method.stays_name
  | module => exact lasts_unsought (stays_reachModule _)
  | signature => exact lasts_items method.stays_signature
  | parameters => exact lasts_items method.stays_parameters
  | isConstructor => exact lasts_unsought method.stays_isConstructor
  | isStaticConstructor => exact lasts_unsought method.stays_isStaticConstructor
  | hasAttribute home text =>
    exact lasts_unsought (method.stays_hasAttribute home text)
  | viewedOn owner => exact .pure _

theorem FieldQuestion.lasts_answer (field : Field) (question : FieldQuestion) :
    (question.answer field).Lasts fun items => question.IsSearch ∧
      items ≠ [] := by
  cases question with
  | name => exact lasts_unsought field.stays_name
  | module => exact lasts_unsought (stays_reachModule _)
  | type => exact lasts_items field.stays_type
  | hasAttribute home text =>
    exact lasts_unsought (field.stays_hasAttribute home text)
  | viewedOn owner => exact .pure _

/-- What a question leads to, it leads to again. -/
theorem Question.lasts_answer (question : Question) :
    question.answer.Lasts fun items => question.IsSearch ∧ items ≠ [] := by
  cases question with
  | wellKnown kind => exact lasts_items (stays_wellKnown kind)
  | «variable» index isMethod =>
    exact lasts_items (stays_variableOf index isMethod)
  | substituted signature types =>
    exact lasts_items (signature.stays_substituted types)
  | ofModule name question =>
    refine Lasts.read_bind (fun registry => ?_) ?_
    · cases registry.module? name with
      | some m => exact question.lasts_answer m
      | none => exact .pure []
    · -- If there was an answer, the module was there, and it is there now.
      intro registry memory items answer lasts later grows
      cases there : registry.module? name with
      | some m => rw [grows.modules name m there]
      | none =>
        rw [there] at answer
        cases answer
        exact absurd rfl lasts.2
  | ofType t question => exact question.lasts_answer t
  | ofMethod method question => exact question.lasts_answer method
  | ofField field question => exact question.lasts_answer field

/-! ### Steps -/

/-- A live type system that knows and remembers what another one did. -/
structure TypeSystem.GrowsInto (system later : TypeSystem) : Prop where
  registry : system.registry.GrowsInto later.registry
  memory : system.memory.Precedes later.memory

namespace TypeSystem

variable {system later latest : TypeSystem}

theorem GrowsInto.refl (live : system.registry.held = none) :
    system.GrowsInto system where
  registry := .refl live
  memory := .refl _

theorem GrowsInto.trans (h : system.GrowsInto later)
    (h' : later.GrowsInto latest) :
    system.GrowsInto latest where
  registry := h.registry.trans h'.registry
  memory := h.memory.trans h'.memory

/-- A question takes nothing away. -/
theorem growsInto_ask (live : system.registry.held = none) {question : Question}
    {outcome : Except Error (List Item)}
    (asked : system.ask question.answer = (outcome, later)) :
    system.GrowsInto later := by
  obtain rfl : (system.ask question.answer).2 = later := congrArg Prod.snd asked
  exact ⟨.refl live, question.lasts_answer.adds system.registry system.memory⟩

/-- A module is added behind those that are there. -/
theorem growsInto_addModule (live : system.registry.held = none) {m : Module}
    (added : system.addModule m = .ok later) : system.GrowsInto later := by
  rw [addModule] at added
  split at added
  · cases added
  · cases added
    refine ⟨⟨rfl, fun name n there => ?_, fun _ => id, live⟩, .refl _⟩
    show (system.registry.modules ++ [m]).find? _ = some n
    rw [List.find?_append, show system.registry.modules.find? _
      = some n from there]
    rfl

theorem adds_declaredWellKnown (m : Module) (kind : WellKnown) :
    (declaredWellKnown m kind).Adds := by
  refine (m.finds_typeNamed _ _).bind_adds fun found => ?_
  cases found with
  | some t => exact .pure t
  | none => exact .throw _

/-- Looking for well-known types only adds to what is remembered. -/
theorem precedes_findWellKnown (system : TypeSystem) (m : Module)
    (kinds : List WellKnown) :
    system.memory.Precedes (system.findWellKnown m kinds).2.memory := by
  induction kinds generalizing system with
  | nil => exact .refl _
  | cons kind rest ih =>
    have asked := (adds_declaredWellKnown m kind).adds system.registry
      system.memory
    rw [findWellKnown, ask]
    rcases hrun : declaredWellKnown m kind system.registry system.memory
      with ⟨error | t, memory⟩
    · -- The kind is not declared, and the search ends here.
      rw [hrun] at asked
      exact asked
    · -- The kind is declared, and fixing its category forgets nothing.
      rw [hrun] at asked
      have others := ih (fixCategory { system with memory } t kind)
      rw [fixCategory_eq] at others
      show system.memory.Precedes
        ((fixCategory { system with memory } t kind).findWellKnown m
          rest).2.memory
      rw [fixCategory_eq]
      exact asked.trans others

/-- To get ready takes nothing away, whether or not it succeeds. -/
theorem growsInto_start (live : system.registry.held = none) :
    system.GrowsInto system.start.2 := by
  -- Nothing is started twice, and nothing without a core library.
  by_cases starts : system.isReady = true ∨
      system.registry.module? system.registry.options.systemModule = none
  · rw [start_eq_self starts]
    exact .refl live
  obtain ⟨unready, there⟩ := not_or.mp starts
  obtain ⟨m, hm⟩ := Option.ne_none_iff_exists'.mp there
  have unknown : system.registry.wellKnown = none := by
    simpa [isReady] using unready
  obtain ⟨fixed, found⟩ := registry_findWellKnown system m WellKnown.all
  obtain ⟨wellKnown, -, started⟩ :=
    start_of_module? (Bool.eq_false_iff.mpr unready) hm
      (by rw [found]; exact unknown)
  rw [started]
  constructor
  · rw [found]
    exact ⟨rfl, fun _ _ => id, by simp [unknown], live⟩
  · exact precedes_findWellKnown system m WellKnown.all

end TypeSystem

namespace Session

variable {s s' : Session} {options : Options}

/-- A session that a caller can go on to from another one. -/
def LeadsTo : Session → Session → Prop :=
  Relation.ReflTransGen fun s s' => ∃ action, Step s action s'

/-- No step takes anything away from the type system. -/
theorem Step.growsInto {action : Action} (step : Step s action s')
    (live : s.system.registry.held = none) : s.system.GrowsInto s'.system := by
  cases step with
  | addModule _ added => exact TypeSystem.growsInto_addModule live added
  | start started =>
    have grown := TypeSystem.growsInto_start live
    rw [started] at grown
    exact grown
  | failed _ _ asked | answered _ asked =>
    exact TypeSystem.growsInto_ask live asked

/-- What a caller holds, the caller keeps. -/
theorem Step.items {action : Action} (step : Step s action s') :
    s.items ⊆ s'.items := by
  cases step with
  | answered => exact List.subset_append_left _ _
  | _ => exact List.Subset.refl _

/-- However many steps a caller takes, the type system only grows, and so does
what is held. -/
theorem LeadsTo.growsInto (h : s.LeadsTo s')
    (live : s.system.registry.held = none) :
    s.system.GrowsInto s'.system ∧ s.items ⊆ s'.items := by
  induction h with
  | refl => exact ⟨.refl live, List.Subset.refl _⟩
  | tail _ step ih =>
    obtain ⟨grows, kept⟩ := ih
    obtain ⟨action, step⟩ := step
    exact ⟨grows.trans (step.growsInto grows.registry.live),
      List.Subset.trans kept step.items⟩

/-- Whatever a caller does, the session can be come to. -/
theorem LeadsTo.isReachable (leads : s.LeadsTo s') (h : s.IsReachable options) :
    s'.IsReachable options := by
  induction leads with
  | refl => exact h
  | tail _ step ih =>
    obtain ⟨_, step⟩ := step
    exact ih.step step

/-- No module is lost. -/
theorem LeadsTo.mem_modules (leads : s.LeadsTo s') (h : s.IsReachable options)
    {m : Module} (hm : m ∈ s.system.registry.modules) :
    m ∈ s'.system.registry.modules := by
  obtain ⟨grows, -⟩ := leads.growsInto h.live
  have found := h.isFaithful.system.proper.module?_eq_some hm
  exact (Registry.mem_of_module? (grows.registry.modules m.name m found)).1

/-- What may be asked by who holds something may be asked by who holds more. -/
theorem Allows.more {question : Question} (h : s.Allows question)
    (more : s.items ⊆ s'.items) :
    s'.Allows question := by
  have keeps {α : Type} (part : Item → List α) :
      s.items.flatMap part ⊆ s'.items.flatMap part := by
    intro a ha
    obtain ⟨item, hitem, told⟩ := List.mem_flatMap.mp ha
    exact List.mem_flatMap.mpr ⟨item, more hitem, told⟩
  constructor
  · exact fun t ht => keeps Item.types (h.types t ht)
  · exact fun m hm => keeps Item.methods (h.methods m hm)
  · exact fun f hf => keeps Item.fields (h.fields f hf)

/-- An answer that lasts is given again, whatever a caller does in between. -/
theorem IsReachable.asked_again (h : s.IsReachable options)
    {question : Question} {lasting : List Item → Prop}
    (lasts : question.answer.Lasts lasting) {items : List Item}
    {system : TypeSystem}
    (asked : s.system.ask question.answer = (.ok items, system))
    (stays : lasting items)
    (later : LeadsTo { system, items := s.items ++ items } s') :
    (s'.system.ask question.answer).1 = .ok items := by
  have same : system.registry = s.system.registry :=
    TypeSystem.registry_of_ask asked
  have live : system.registry.held = none := by rw [same, h.live]
  obtain ⟨grows, -⟩ := later.growsInto live
  have answer : (question.answer s.system.registry s.system.memory).1
      = .ok items :=
    congrArg Prod.fst asked
  have left : (question.answer s.system.registry s.system.memory).2
      = system.memory :=
    congrArg (fun run => run.2.memory) asked
  -- The registry is what the question was asked of, and the memory what it left
  -- behind.
  refine lasts.again s.system.registry s.system.memory items answer stays
    s'.system.registry s'.system.memory ?_ ?_
  · rw [← same]
    exact grows.registry
  · rw [left]
    exact grows.memory

/-- What is found is found again.  Whatever a caller does after a question has
led to types, members or signatures, the question can be asked again and leads
to the same. -/
theorem IsReachable.finds_again (h : s.IsReachable options)
    {question : Question} (isSearch : question.IsSearch)
    (allowed : s.Allows question) {items : List Item} {system : TypeSystem}
    (asked : s.system.ask question.answer = (.ok items, system))
    (found : items ≠ [])
    (later : LeadsTo { system, items := s.items ++ items } s') :
    s'.Allows question ∧ (s'.system.ask question.answer).1 = .ok items := by
  constructor
  · have live : system.registry.held = none := by
      rw [TypeSystem.registry_of_ask asked, h.live]
    obtain ⟨-, kept⟩ := later.growsInto live
    exact allowed.more fun item hitem => kept (List.mem_append_left _ hitem)
  · exact h.asked_again question.lasts_answer asked ⟨isSearch, found⟩ later

/-- A field that was asked for is found again after another module was added. -/
theorem crateContent_found_again : ∃ s : Session, s.IsReachable {} ∧
    s.system.registry.modules.map Module.name = ["App", "Lib"] ∧
    s.Allows (.ofModule "App" (.field ⟨0x04000001⟩ none)) ∧
    (s.system.ask (Question.ofModule "App" (.field ⟨0x04000001⟩ none)).answer).1
      = .ok [.field crateContent] := by
  let start : Session :=
    { system := { registry := { modules := [crateModule] } } }
  have built := (ModuleBuilder.IsBuilt.new "App").applyAll crateCalls
  have reachable : start.IsReachable {} :=
    IsReachable.new.step (.addModule built rfl)
  have sound : start.system.registry.IsSound := reachable.isSound
  have allowed : start.Allows (.ofModule "App" (.field ⟨0x04000001⟩ none)) :=
    .of_types (List.forall_mem_nil _) rfl rfl
  -- The field is asked for a first time.
  have field := field_crateContent sound (List.mem_singleton_self _)
  rcases hrun : crateModule.field ⟨0x04000001⟩ none start.system.registry {}
    with ⟨answer, memory⟩
  rw [hrun] at field
  obtain rfl := field
  have asked :
      start.system.ask
          (Question.ofModule "App" (.field ⟨0x04000001⟩ none)).answer
        = (.ok [.field crateContent], { start.system with memory }) :=
    congrArg
      (fun run : Except Error (List Item) × Memory =>
        (run.1, ({ start.system with memory := run.2 } : TypeSystem)))
      (bind_apply_ok hrun)
  -- Then a library is added, and it is asked for again.
  let told : Session :=
    { system := { start.system with memory }, items := [.field crateContent] }
  let lib : Module := .ofImage (ModuleBuilder.new "Lib").image
  let later : Session :=
    { told with
      system := { registry := { modules := [crateModule, lib] }, memory } }
  have adds : Step told (.addModule (.new "Lib")) later :=
    .addModule (.new "Lib") rfl
  have isSearch :
      (Question.ofModule "App" (.field ⟨0x04000001⟩ none)).IsSearch := trivial
  have again := reachable.finds_again isSearch allowed asked
    (List.cons_ne_nil _ _) (.single ⟨_, adds⟩)
  exact ⟨later, (reachable.step (.answered allowed asked)).step adds, rfl,
    again⟩

end Session

end CliMetadata
