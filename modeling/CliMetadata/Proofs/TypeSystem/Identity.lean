import CliMetadata.Proofs.TypeSystem.Members

/-!
# Identity of types

An answer to a question about nodes tells nodes (`Question.gives_answer`), and
so does everything else that a caller can do
(`Session.IsFaithful.step_precedes`), which takes no node away.  Thus all that a
caller can come to hold are nodes (`Session.IsReachable.isFaithful`).
-/

namespace CliMetadata

open Query

/-! ### Answers -/

section
variable {registry : Registry} {tracked : Bool} {shared : Ty → Prop}

/-- Types as items tell nothing but themselves and their parts. -/
theorem AreNodes.items {ts : List Ty}
    (h : AreNodes registry.modules shared ts) :
    AreNodes registry.modules shared
      ((ts.map Item.type).flatMap Item.types) := by
  rw [List.flatMap_map]
  exact .flatMap fun t ht => .of_parts (h t ht)

/-- Results as items tell what those that are there tell. -/
theorem AreNodes.itemsOfResults {α : Type} {item : α → Item}
    {results : List (Except Error α)}
    (h : ∀ a, .ok a ∈ results →
      AreNodes registry.modules shared (item a).types) :
    AreNodes registry.modules shared
      ((results.map (Item.ofResult item)).flatMap Item.types) := by
  rw [List.flatMap_map]
  refine .flatMap fun result hresult => ?_
  cases result with
  | error => exact .nil
  | ok a => exact h a hresult

theorem AreNodes.itemsOfMethods {methods : List Method}
    (h : AreNodes registry.modules shared (methods.flatMap Method.types)) :
    AreNodes registry.modules shared
      ((methods.map Item.method).flatMap Item.types) := by
  rw [List.flatMap_map]
  exact h

theorem AreNodes.itemsOfFields {fields : List Field}
    (h : AreNodes registry.modules shared (fields.flatMap Field.types)) :
    AreNodes registry.modules shared
      ((fields.map Item.field).flatMap Item.types) := by
  rw [List.flatMap_map]
  exact h

/-- An answer that is made from what a query gives. -/
theorem gives_items {α : Type} {query : Query α} {P : (Ty → Prop) → α → Prop}
    {items : α → List Item} (h : query.Ensures registry tracked shared P)
    (nodes : ∀ shared a, P shared a →
      AreNodes registry.modules shared ((items a).flatMap Item.types)) :
    (do return items (← query) : Query (List Item)).Gives registry
      tracked shared
      fun items => items.flatMap Item.types :=
  h.bind fun _ _ a ha => .pure fun _ le => (nodes _ a ha).le le

/-- An answer that tells no types. -/
theorem gives_noTypes {α : Type} {query : Query α} {items : α → List Item}
    (h : query.Keeps registry tracked shared)
    (none : ∀ a, (items a).flatMap Item.types = []) :
    (do return items (← query) : Query (List Item)).Gives registry
      tracked shared
      fun items => items.flatMap Item.types :=
  gives_items h fun _ a _ => by
    rw [none a]
    exact .nil

theorem ModuleQuestion.gives_answer {m : Module} (hm : m ∈ registry.modules)
    (question : ModuleQuestion)
    (htypes : AreNodes registry.modules shared
      (Question.ofModule m.name question).types) :
    (question.answer m).Gives registry tracked shared
      fun items => items.flatMap Item.types := by
  cases question with
  | type token =>
    exact gives_items (givesNodes_type m hm token) fun _ _ h => h.items
  | typeNamed home text =>
    exact gives_items (Module.gives_typeNamed hm home text) fun _ _ h => h.items
  | types =>
    refine gives_items (Module.ensures_typesFrom hm 1 _) fun _ results h => ?_
    exact .itemsOfResults fun t ht => .of_parts (h t ht)
  | typeAt position =>
    refine gives_items (Module.ensures_typeAt? hm position) fun _ result h => ?_
    exact .itemsOfResults fun t ht => .of_parts (h t (Option.mem_toList.mp ht))
  | loadAll => exact gives_noTypes (Module.keeps_loadAll hm) fun _ => rfl
  | parameter token =>
    exact gives_items (Module.gives_parameter hm token) fun _ _ h => h.items
  | method token owner =>
    exact gives_items (Module.gives_method hm token htypes)
      fun _ _ h => .append h .nil
  | field token owner =>
    exact gives_items (Module.gives_field hm token htypes)
      fun _ _ h => .append h .nil
  | entity token =>
    refine gives_items (Module.gives_entity hm token) fun _ found h => ?_
    rw [List.flatMap_map]
    refine .flatMap fun entity hentity => ?_
    have := h.of_flatMap hentity
    cases entity with
    | _ => exact this
  | resolve signature =>
    exact gives_items (Module.gives_resolve hm signature) fun _ _ h => h.items
  | resolveMethod signature =>
    refine gives_items (Module.gives_resolveMethod hm signature)
      fun _ resolved h => ?_
    exact .append (Ty.IsNode.of_mem_partsOfEach resolved.types h) .nil

theorem TypeQuestion.gives_answer {t : Ty}
    (ht : t.IsNode registry.modules shared) (question : TypeQuestion)
    (htypes : AreNodes registry.modules shared
      (Question.ofType t question).types)
    (hmethods : ∀ m ∈ (Question.ofType t question).methods,
      AreNodes registry.modules shared m.types) :
    (question.answer t).Gives registry tracked shared
      fun items => items.flatMap Item.types := by
  cases question with
  -- What a type is called and where it is.
  | name => exact gives_noTypes t.keeps_simpleName fun _ => rfl
  | namespaceName => exact gives_noTypes t.keeps_namespaceText fun _ => rfl
  | fullName => exact gives_noTypes t.keeps_fullName fun _ => rfl
  | display => exact gives_noTypes t.keeps_display fun _ => rfl
  | module =>
    refine gives_noTypes t.keeps_module? fun found => ?_
    cases found with
    | _ => rfl
  | containing => exact gives_items t.gives_containing fun _ _ h => h.items
  -- What it derives from.
  | base => exact gives_items (Ty.gives_base ht) fun _ _ h => h.items
  | openBase =>
    cases t with
    | definition d => exact gives_items d.gives_openBase fun _ _ h => h.items
    | _ => exact .pure fun _ _ => .nil
  | hasBase => exact gives_noTypes (Ty.keeps_hasBase ht) fun _ => rfl
  | baseState =>
    cases t with
    | definition d =>
      refine gives_items d.ensures_baseState fun _ state h => ?_
      cases state with
      | resolved base => exact .append (.of_parts (h base rfl)) .nil
      | _ => exact .nil
    | _ => exact .pure fun _ _ => .nil
  | parameters =>
    -- What it is applied to and which type it is.
    exact gives_items (Ty.gives_instantiation ht) fun _ _ h => AreNodes.items h
  | isGenericDefinition =>
    exact gives_noTypes t.keeps_isGenericDefinition fun _ => rfl
  | isWellKnown kind =>
    exact gives_noTypes (t.keeps_isWellKnown kind) fun _ => rfl
  | flags request =>
    -- Its flags.
    exact gives_noTypes (Ty.keeps_findFlags ht request) fun _ => rfl
  | category => exact gives_noTypes t.keeps_category fun _ => rfl
  | variance => exact gives_noTypes t.keeps_hasVariance fun _ => rfl
  | markers => exact gives_noTypes t.keeps_attributeFlags fun _ => rfl
  | hasFinalizer => exact gives_noTypes (Ty.keeps_hasFinalizer ht) fun _ => rfl
  | isSealed => exact gives_noTypes t.keeps_isSealed fun _ => rfl
  | methods filter =>
    -- Its members.
    refine (Ty.ensures_methods ht filter).bind fun _ _ members h => ?_
    exact gives_items (Members.ensures_all h) fun _ _ h => .itemsOfResults h
  | methodAt filter position =>
    refine (Ty.ensures_methods ht filter).bind fun _ _ members h => ?_
    refine gives_items (Members.ensures_item? position h) fun _ found h => ?_
    exact .itemsOfResults fun m hm => h m (Option.mem_toList.mp hm)
  | fields =>
    refine (Ty.ensures_fields ht none).bind fun _ _ members h => ?_
    exact gives_items (Members.ensures_all h) fun _ _ h => .itemsOfResults h
  | fieldAt position =>
    refine (Ty.ensures_fields ht none).bind fun _ _ members h => ?_
    refine gives_items (Members.ensures_item? position h) fun _ found h => ?_
    exact .itemsOfResults fun f hf => h f (Option.mem_toList.mp hf)
  | method text wanted substitution =>
    have hsubstitution := (List.forall_mem_append.mp htypes.tail).2
    exact gives_items (Ty.gives_findMethod ht text hsubstitution _)
      fun _ _ h => .itemsOfMethods h
  | equivalentMethod text wanted substitution =>
    have hsubstitution := (List.forall_mem_append.mp htypes.tail).2
    exact gives_items (Ty.gives_findMethod ht text hsubstitution _)
      fun _ _ h => .itemsOfMethods h
  | field text =>
    exact gives_items (Ty.gives_fieldNamed ht text)
      fun _ _ h => .itemsOfFields h
  | staticConstructor =>
    exact gives_items (Ty.gives_staticConstructor ht)
      fun _ _ h => .itemsOfMethods h
  | defaultConstructor =>
    exact gives_items (Ty.gives_defaultConstructor ht)
      fun _ _ h => .itemsOfMethods h
  | dispatch declaration =>
    have hdeclaration := hmethods declaration List.mem_cons_self
    exact gives_items (Ty.gives_dispatch ht hdeclaration)
      fun _ _ h => .itemsOfMethods h
  | finalizer =>
    exact gives_items (Ty.gives_finalizer ht) fun _ _ h => .itemsOfMethods h
  | nestedTypes =>
    -- Types inside it and what stands at its row.
    exact gives_items t.gives_nestedTypes fun _ _ h => AreNodes.items h
  | nested text =>
    exact gives_items (t.gives_nestedType text) fun _ _ h => h.items
  | hasAttribute home text =>
    exact gives_noTypes (t.keeps_hasAttribute home text) fun _ => rfl
  | inlineLength => exact gives_noTypes t.keeps_inlineLength fun _ => rfl
  | layout => exact t.keeps_layout.bind fun _ _ _ _ => .pure fun _ _ => .nil
  | underlying =>
    exact gives_items (Ty.gives_underlying ht) fun _ _ h => h.items
  | hash => exact gives_noTypes t.keeps_hash fun _ => rfl
  | substituted forTypes forMethods =>
    -- Types that are made of it.
    have ⟨hforTypes, hforMethods⟩ := List.forall_mem_append.mp htypes.tail
    exact gives_items (Ty.gives_substituted ht hforTypes hforMethods)
      fun _ _ h => h.items
  | applied arguments =>
    exact gives_items (gives_instantiate ht htypes.tail) fun _ _ h => h.items
  | shaped shape =>
    exact gives_items (gives_shapeOf shape ht) fun _ _ h => h.items

theorem MethodQuestion.gives_answer {method : Method}
    (hmethod : AreNodes registry.modules shared method.types)
    (question : MethodQuestion)
    (htypes : AreNodes registry.modules shared
      (Question.ofMethod method question).types) :
    (question.answer method).Gives registry tracked shared
      fun items => items.flatMap Item.types := by
  cases question with
  | name => exact gives_noTypes method.keeps_name fun _ => rfl
  | module => exact gives_noTypes (ensures_reachModule _).keeps fun _ => rfl
  | signature =>
    refine gives_items (Method.gives_signature hmethod) fun _ signature h => ?_
    exact .append (Ty.IsNode.of_mem_partsOfEach signature.types h) .nil
  | parameters =>
    exact gives_items method.gives_parameters fun _ _ h => AreNodes.items h
  | isConstructor => exact gives_noTypes method.keeps_isConstructor fun _ => rfl
  | isStaticConstructor =>
    exact gives_noTypes method.keeps_isStaticConstructor fun _ => rfl
  | hasAttribute home text =>
    exact gives_noTypes (method.keeps_hasAttribute home text) fun _ => rfl
  | viewedOn owner =>
    refine .pure fun _ le => .append (.append (.of_parts ?_) (hmethod.le le))
      .nil
    exact htypes.head.le le

theorem FieldQuestion.gives_answer {field : Field}
    (hfield : AreNodes registry.modules shared field.types)
    (question : FieldQuestion)
    (htypes : AreNodes registry.modules shared
      (Question.ofField field question).types) :
    (question.answer field).Gives registry tracked shared
      fun items => items.flatMap Item.types := by
  cases question with
  | name => exact gives_noTypes field.keeps_name fun _ => rfl
  | module => exact gives_noTypes (ensures_reachModule _).keeps fun _ => rfl
  | type => exact gives_items (Field.gives_type hfield) fun _ _ h => h.items
  | hasAttribute home text =>
    exact gives_noTypes (field.keeps_hasAttribute home text) fun _ => rfl
  | viewedOn owner =>
    refine .pure fun _ le => .append
      (.append (.of_parts ?_) (hfield.le le)) .nil
    exact htypes.head.le le

/-- All that a question names are nodes. -/
structure Question.IsAboutNodes (modules : List Module) (shared : Ty → Prop)
    (question : Question) : Prop where
  types : AreNodes modules shared question.types
  methods : ∀ m ∈ question.methods, AreNodes modules shared m.types
  fields : ∀ f ∈ question.fields, AreNodes modules shared f.types

/-- An answer to a question about nodes tells nodes. -/
theorem Question.gives_answer {question : Question}
    (h : question.IsAboutNodes registry.modules shared) :
    question.answer.Gives registry tracked shared
      fun items => items.flatMap Item.types := by
  cases question with
  | wellKnown kind =>
    exact gives_items (gives_wellKnown kind) fun _ _ h => h.items
  | «variable» index isMethod =>
    exact gives_items (gives_variableOf index isMethod) fun _ _ h => h.items
  | substituted signature arguments =>
    have ⟨hsignature, harguments⟩ := List.forall_mem_append.mp h.types
    refine gives_items (MethodSignature.gives_substituted hsignature harguments)
      fun _ changed h => ?_
    exact .append (Ty.IsNode.of_mem_partsOfEach changed.types h) .nil
  | ofModule name question =>
    refine Ensures.read_bind ?_
    split
    · next m hm =>
      refine ModuleQuestion.gives_answer
        (Registry.mem_of_module? hm).1 question ?_
      cases question with
      | _ => exact h.types
    · -- A module that is missing tells nothing.
      exact .pure fun _ _ => .nil
  | ofType t question =>
    refine TypeQuestion.gives_answer (h.types t ?_) question h.types h.methods
    cases question with
    | _ => exact List.mem_cons_self
  | ofMethod method question =>
    refine MethodQuestion.gives_answer (h.methods method ?_) question h.types
    exact List.mem_cons_self
  | ofField field question =>
    refine FieldQuestion.gives_answer (h.fields field ?_) question h.types
    exact List.mem_cons_self

end

/-! ### Type systems -/

namespace TypeSystem

/-- All that a type system tells are nodes. -/
def IsFaithful (system : TypeSystem) :
    Prop := system.memory.IsFaithful system.registry true

/-- Types that are nodes of a type system. -/
abbrev Has (system : TypeSystem) (types : List Ty) : Prop :=
  AreNodes system.registry.modules (system.memory.Shares true) types

/-- A type system that a later one has the modules and the nodes of. -/
structure Precedes (system later : TypeSystem) : Prop where
  modules : ∀ m ∈ system.registry.modules, m ∈ later.registry.modules
  nodes : system.memory.nodes.GrowsInto later.memory.nodes

variable {system later : TypeSystem}

@[refl]
theorem Precedes.rfl : system.Precedes system := ⟨fun _ => id, .refl _⟩

theorem Precedes.trans {last : TypeSystem} (h : system.Precedes later)
    (h' : later.Precedes last) :
    system.Precedes last :=
  ⟨fun m hm => h'.modules m (h.modules m hm), h.nodes.trans h'.nodes⟩

theorem Precedes.has (h : system.Precedes later) {types : List Ty}
    (nodes : system.Has types) :
    later.Has types :=
  nodes.mono h.modules fun _ shares => shares.grow h.nodes

/-- What a question does to a type system. -/
theorem IsFaithful.ask {α : Type} (faithful : system.IsFaithful)
    {query : Query α} {types : α → List Ty}
    (h : query.Gives system.registry true (system.memory.Shares true) types)
    {outcome : Except Error α} (asked : system.ask query = (outcome, later)) :
    later.IsFaithful ∧ system.Precedes later ∧
      ∀ a, outcome = .ok a → later.Has (types a) := by
  obtain ⟨grows, kept, answer⟩ := h system.memory faithful fun _ => id
  cases asked
  exact ⟨kept, ⟨fun _ => id, grows⟩, answer⟩

/-- A module that was built can be added. -/
theorem IsFaithful.addModule (faithful : system.IsFaithful) {b : ModuleBuilder}
    (built : b.IsBuilt)
    (added : system.addModule (.ofImage b.image) = .ok later) :
    later.IsFaithful ∧ system.Precedes later := by
  rw [TypeSystem.addModule] at added
  split at added
  · cases added
  · next hnone =>
    cases added
    have more : ∀ m ∈ system.registry.modules,
        m ∈ system.registry.modules ++ [Module.ofImage b.image] :=
      fun m hm => List.mem_append_left _ hm
    -- The new module finds its own rows, and no module has its name.
    have proper : Registry.IsProper { system.registry with
        modules := system.registry.modules ++ [Module.ofImage b.image] } := by
      constructor
      · intro m hm
        rcases List.mem_append.mp hm with hm | hm
        · exact faithful.proper.rows m hm
        · obtain rfl := List.mem_singleton.mp hm
          exact built.findsOwnRows
      · refine List.pairwise_append.mpr
          ⟨faithful.proper.names, List.pairwise_singleton _ _, ?_⟩
        intro m hm n hn
        obtain rfl := List.mem_singleton.mp hn
        simpa using List.find?_eq_none.mp hnone m hm
    refine ⟨?_, more, .refl _⟩
    exact {
      proper
      wellKnown := fun types htypes => (faithful.wellKnown types htypes).mono
        more fun _ => id
      methodOwners := fun key t ht => (faithful.methodOwners key t ht).mono more
        fun _ => id
      fieldOwners := fun key t ht => (faithful.fieldOwners key t ht).mono more
        fun _ => id
      facts := fun fact value h => (faithful.facts fact value h).mono more
        fun _ => id
      kept := faithful.kept
      nodes := fun follows address t made =>
        (faithful.nodes follows address t made).mono more fun _ => id }

theorem IsFaithful.fixCategory (faithful : system.IsFaithful) (t : Ty)
    (kind : WellKnown) :
    (system.fixCategory t kind).IsFaithful ∧
    system.Precedes (system.fixCategory t kind) := by
  rw [TypeSystem.fixCategory]
  split
  · exact ⟨faithful, .rfl⟩
  · exact ⟨{ faithful with proper := { faithful.proper with } },
      ⟨fun _ => id, .refl _⟩⟩

theorem gives_declaredWellKnown {registry : Registry} {shared : Ty → Prop}
    {m : Module} (hm : m ∈ registry.modules) (kind : WellKnown) :
    (declaredWellKnown m kind).Gives registry true shared fun t => [t] := by
  refine (Module.gives_typeNamed hm _ _).bind fun _ _ found hfound => ?_
  cases found with
  | some t => exact .pure fun _ le => hfound.le le
  | none => exact .throw _

/-- The well-known types that are found are nodes, and looking for them does no
harm. -/
theorem IsFaithful.findWellKnown (faithful : system.IsFaithful) {m : Module}
    (hm : m ∈ system.registry.modules) (kinds : List WellKnown) :
    (system.findWellKnown m kinds).2.IsFaithful ∧
      system.Precedes (system.findWellKnown m kinds).2 ∧
        ∀ types, (system.findWellKnown m kinds).1 = .ok types →
          (system.findWellKnown m kinds).2.Has types := by
  induction kinds generalizing system with
  | nil =>
    refine ⟨faithful, .rfl, ?_⟩
    rintro _ ⟨⟩
    exact .nil
  | cons kind rest ih =>
    rw [TypeSystem.findWellKnown]
    split
    · next asked =>
      obtain ⟨faithful, before, -⟩ :=
        faithful.ask (gives_declaredWellKnown hm kind) asked
      exact ⟨faithful, before, nofun⟩
    · next t asking asked =>
      obtain ⟨faithful, before, nodes⟩ :=
        faithful.ask (gives_declaredWellKnown hm kind) asked
      -- To fix a category shares no type, and keeps all that is known.
      obtain ⟨faithful, before'⟩ := faithful.fixCategory t kind
      obtain ⟨faithful, before'', others⟩ :=
        ih faithful (before'.modules m (before.modules m hm))
      refine ⟨faithful, (before.trans before').trans before'',
        fun types htypes => ?_⟩
      cases hfound : ((asking.fixCategory t kind).findWellKnown m rest).1 with
      | error error =>
        dsimp only at htypes
        rw [hfound] at htypes
        cases htypes
      | ok found =>
        dsimp only at htypes
        rw [hfound] at htypes
        cases htypes
        exact .cons ((before'.trans before'').has (nodes t rfl)).head
          (others found hfound)

theorem IsFaithful.start (faithful : system.IsFaithful)
    {outcome : Except Error Unit} (started : system.start = (outcome, later)) :
    later.IsFaithful ∧ system.Precedes later := by
  rw [TypeSystem.start] at started
  split at started
  · -- The type system was ready.
    cases started
    exact ⟨faithful, .rfl⟩
  · dsimp only at started
    split at started
    · -- There is no core library.
      cases started
      exact ⟨faithful, .rfl⟩
    · next m hm =>
      obtain ⟨faithful, before, nodes⟩ :=
        faithful.findWellKnown (Registry.mem_of_module? hm).1 WellKnown.all
      split at started
      · -- A type is missing, and what was found so far is kept.
        next hfound =>
        cases started
        rw [hfound] at faithful before
        exact ⟨faithful, before⟩
      · -- All types are there, and they are nodes.
        next types found hfound =>
        cases started
        rw [hfound] at faithful before nodes
        refine ⟨?_, before.modules, before.nodes⟩
        refine { faithful with proper := { faithful.proper with }, wellKnown := ?_ }
        rintro _ ⟨⟩
        exact nodes types rfl

end TypeSystem

/-! ### Sessions -/

theorem Method.types_subset_of_mem_versions {m : Method} :
    (n : Method) → m ∈ n.versions →
    ∀ t ∈ m.types, t ∈ n.types
  | .definition d, h => by
    obtain rfl := List.mem_singleton.mp h
    exact fun _ => id
  | .view method owner, h => by
    rcases List.mem_cons.mp h with rfl | h
    · exact fun _ => id
    · exact fun t ht =>
        List.mem_append_right _
          (Method.types_subset_of_mem_versions method h t ht)

theorem Field.types_subset_of_mem_versions {f : Field} :
    (g : Field) → f ∈ g.versions →
    ∀ t ∈ f.types, t ∈ g.types
  | .definition d, h => by
    obtain rfl := List.mem_singleton.mp h
    exact fun _ => id
  | .view field owner, h => by
    rcases List.mem_cons.mp h with rfl | h
    · exact fun _ => id
    · exact fun t ht =>
        List.mem_append_right _
          (Field.types_subset_of_mem_versions field h t ht)

namespace Session

variable {s s' : Session} {options : Options}

/-- The types that a held method tells are held. -/
theorem types_of_mem_methods {m : Method} (hm : m ∈ s.methods) :
    ∀ t ∈ m.types, t ∈ s.types := by
  intro t ht
  obtain ⟨item, hitem, hm⟩ := List.mem_flatMap.mp hm
  refine List.mem_flatMap.mpr ⟨item, hitem, ?_⟩
  cases item with
  | method n => exact Method.types_subset_of_mem_versions n hm t ht
  | _ => cases hm

/-- The types that a held field tells are held. -/
theorem types_of_mem_fields {f : Field} (hf : f ∈ s.fields) :
    ∀ t ∈ f.types, t ∈ s.types := by
  intro t ht
  obtain ⟨item, hitem, hf⟩ := List.mem_flatMap.mp hf
  refine List.mem_flatMap.mpr ⟨item, hitem, ?_⟩
  cases item with
  | field g => exact Field.types_subset_of_mem_versions g hf t ht
  | _ => cases hf

/-- All that a type system tells and all that its caller holds are nodes. -/
structure IsFaithful (s : Session) : Prop where
  system : s.system.IsFaithful
  held : s.system.Has s.types

theorem isFaithful_new (options : Options) : (new options).IsFaithful := by
  refine ⟨?_, .nil⟩
  exact {
    proper := ⟨nofun, .nil⟩
    wellKnown := nofun
    methodOwners := by simp [new, TypeSystem.new]
    fieldOwners := by simp [new, TypeSystem.new]
    facts := by simp [new, TypeSystem.new]
    kept := fun _ => Nodes.areKept_empty
    nodes := by simp [new, TypeSystem.new, Nodes.empty] }

/-- What a caller may ask about are nodes. -/
theorem IsFaithful.isAboutNodes (h : s.IsFaithful) {question : Question}
    (allowed : s.Allows question) :
    question.IsAboutNodes s.system.registry.modules
      (s.system.memory.Shares true) where
  types t ht := h.held t (allowed.types t ht)
  methods m hm t ht :=
  h.held t (types_of_mem_methods (allowed.methods m hm) t ht)
  fields f hf t ht := h.held t (types_of_mem_fields (allowed.fields f hf) t ht)

/-- Whatever a caller does, nodes lead to nodes, and no node is taken away. -/
theorem IsFaithful.step_precedes (h : s.IsFaithful) {action : Action}
    (step : Step s action s') :
    s'.IsFaithful ∧ s.system.Precedes s'.system := by
  cases step with
  | addModule built added =>
    -- A module is added.
    obtain ⟨faithful, before⟩ := h.system.addModule built added
    exact ⟨⟨faithful, before.has h.held⟩, before⟩
  | start started =>
    obtain ⟨faithful, before⟩ := h.system.start started
    exact ⟨⟨faithful, before.has h.held⟩, before⟩
  | failed allowed _ asked =>
    -- A question fails.
    obtain ⟨faithful, before, -⟩ :=
      h.system.ask (Question.gives_answer (h.isAboutNodes allowed)) asked
    exact ⟨⟨faithful, before.has h.held⟩, before⟩
  | answered allowed asked =>
    -- A question is answered with nodes, which are held from now on.
    obtain ⟨faithful, before, nodes⟩ :=
      h.system.ask (Question.gives_answer (h.isAboutNodes allowed)) asked
    refine ⟨⟨faithful, ?_⟩, before⟩
    rw [types, List.flatMap_append]
    exact .append (before.has h.held) (nodes _ rfl)

theorem IsReachable.isFaithful (h : s.IsReachable options) : s.IsFaithful := by
  induction h with
  | new => exact isFaithful_new options
  | step _ step ih => exact (ih.step_precedes step).1

end Session

end CliMetadata
