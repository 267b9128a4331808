import CliMetadata.Proofs.NameHash
import CliMetadata.Proofs.TypeSystem.Yields

/-!
# What hashes depend on

The description of a type tells how it is named and what it is built from: a
definition in its namespace or within the definition around it, a parameter by
its name, a variable by its number, and any other type by the descriptions of
its parts (`Registry.Describes`).  Modules, tokens and what was asked before are
no part of it.

The hash of a type is that of its description (`Registry.Describes.tells_hash`).
A hash that is remembered was found at some other time, in some other number of
steps, so that the induction is on how the type is named and not on the steps.
A definition is described only if the definitions around it are told by tokens
of definitions; one that is told by a reference may have been hashed when the
reference led nowhere.

Main results: two careful callers, of whatever type systems, who are told the
hashes of types with one description are told the same hash
(`IsCareful.hash_eq_of_describes`), and the hash of a definition that is not
nested is the hash of its full name (`IsCareful.hash_eq_ofName`).
-/

namespace CliMetadata

open Filter Query

/-! ### Hashing a name in pieces -/

namespace NameHash

/-- A name that is hashed in pieces is hashed like the whole. -/
@[simp]
theorem ofQualified_eq (namespaceText name : String) :
    ofQualified namespaceText name = ofName (qualified namespaceText name) := by
  by_cases nameless : namespaceText.isEmpty = true
  · obtain rfl := String.isEmpty_iff.mp nameless
    rfl
  · simp only [ofQualified, ofName, qualified, start, if_neg nameless,
      append_append]

end NameHash

/-! ### Descriptions -/

/-- How a definition is named. -/
inductive DefinitionName where
  | outermost (namespaceText name : String)
  | nested (outer : DefinitionName) (name : String)

/-- How a type is named and what it is built from. -/
inductive TypeDescription where
  | definition (name : DefinitionName)
  | applied (name : DefinitionName) (arguments : List TypeDescription)
  | parameter (name : String)
  | var (index : UInt32) (isMethod : Bool)
  | shaped (shape : Shape) (element : TypeDescription)

/-- The hash of a named definition. -/
def DefinitionName.hash : DefinitionName → UInt32
  | outermost namespaceText name =>
    NameHash.ofName (qualified namespaceText name)
  | nested outer name => NameHash.nested outer.hash (NameHash.ofName name)

/-- The hash of a type of a shape, from the hash of what it is built over. -/
def Shape.hashOver (element : UInt32) : Shape → UInt32
  | vector => NameHash.array element none
  | array rank => NameHash.array element (some rank)
  | byRef => NameHash.byRef element
  | pointer => NameHash.pointer element

mutual

/-- The hash of a described type. -/
def TypeDescription.hash : TypeDescription → UInt32
  | definition name => name.hash
  | applied name arguments =>
    NameHash.generic name.hash (TypeDescription.hashEach arguments)
  | parameter name => NameHash.ofName name
  | var index isMethod => NameHash.signatureVariable index isMethod
  | shaped shape element => shape.hashOver element.hash

/-- The hashes of several described types. -/
def TypeDescription.hashEach : List TypeDescription → List UInt32
  | [] => []
  | description :: rest => description.hash :: TypeDescription.hashEach rest

end

/-- The definition is named so in its module, and those around it are. -/
inductive Registry.Names (registry : Registry) :
    TypeDefinition → DefinitionName → Prop where
  | outermost {m : Module} {d : TypeDefinition} {namespaceText name : String} :
      m ∈ registry.modules → m.name = d.module → d.flags.isNested = false →
      m.image.enclosing? d.token = none →
      m.image.string d.namespaceName = .ok namespaceText →
      m.image.string d.name = .ok name →
      Names registry d (.outermost namespaceText name)
  | nested {m : Module} {d outer : TypeDefinition} {around : Token}
      {outerName : DefinitionName}
      {name : String} :
      m ∈ registry.modules → m.name = d.module → d.flags.isNested = true →
      m.image.enclosing? d.token = some around →
      m.Declares around (.definition outer) →
      Names registry outer outerName → m.image.string d.name = .ok name →
      Names registry d (.nested outerName name)

/-- The type is described so by the modules of its definitions and
parameters. -/
inductive Registry.Describes (registry : Registry) :
    Ty → TypeDescription → Prop where
  | definition {d : TypeDefinition} {name : DefinitionName} :
      registry.Names d name →
      Describes registry (.definition d) (.definition name)
  | applied {d : TypeDefinition} {name : DefinitionName} {arguments : List Ty}
      {descriptions : List TypeDescription} :
      registry.Names d name →
      List.Forall₂ (Describes registry) arguments descriptions →
      Describes registry (.applied d arguments) (.applied name descriptions)
  | parameter {m : Module} {p : GenericParameter} {name : String} :
      m ∈ registry.modules → m.name = p.module →
      m.image.string p.name = .ok name →
      Describes registry (.parameter p) (.parameter name)
  | var {index : UInt32} {isMethod : Bool} :
      Describes registry (.var index isMethod) (.var index isMethod)
  | shaped {shape : Shape} {element : Ty} {description : TypeDescription} :
      Describes registry element description →
      Describes registry (.shaped shape element) (.shaped shape description)

variable {registry : Registry}

/-- The definitions around a named definition can always be found. -/
theorem Registry.Names.isSteady (proper : registry.IsProper)
    {d : TypeDefinition} {name : DefinitionName} (h : registry.Names d name) :
    (Ty.definition d).IsSteady registry.modules := by
  have nests : ∀ m ∈ registry.modules, m.name = d.module →
      m.NestsInDefinitions d.token := by
    induction h with
    | @outermost m d _ _ hm named _ alone _ _ =>
      intro n hn named' inner leads outer around
      obtain rfl := proper.eq_of_name_eq hn hm (named'.trans named.symm)
      -- There is no way from a type that nothing is around.
      obtain rfl | ⟨next, step, -⟩ := leads.cases_head
      · rw [alone] at around
        cases around
      · rw [alone] at step
        cases step
    | @nested m d outer token _ _ hm named _ around declares _ _ ih =>
      intro n hn named' inner leads next step
      obtain rfl := proper.eq_of_name_eq hn hm (named'.trans named.symm)
      obtain ⟨row, hrow, same⟩ := declares
      obtain rfl : outer = n.definitionOfRow row := by injection same
      obtain rfl | ⟨first, toFirst, leads⟩ := leads.cases_head
      · rw [around] at step
        cases step
        exact ((proper.rows n hn).isTypeDef hrow).1
      · rw [around] at toFirst
        cases toFirst
        refine ih n hn rfl inner ?_ next step
        rw [show (n.definitionOfRow row).token
          = token from (proper.rows n hn).typeDef hrow]
        exact leads
  intro e he m hm named
  obtain rfl : e = d := by simpa [Ty.parts] using he
  exact nests m hm named

mutual

/-- The definitions around those in a described type can always be found. -/
theorem Registry.Describes.isSteady (proper : registry.IsProper) (t : Ty)
    {description : TypeDescription} (h : registry.Describes t description) :
    t.IsSteady registry.modules := by
  match t with
  | .definition d =>
    cases h with
    | definition names => exact names.isSteady proper
  | .applied d arguments =>
    cases h with
    | applied names each =>
      -- The parts are the definition and those of the arguments.
      intro e he
      simp only [Ty.parts, List.mem_cons, reduceCtorEq, false_or] at he
      rcases he with same | he
      · exact names.isSteady proper e (by simpa [Ty.parts] using same)
      · exact Registry.Describes.steadyEach proper arguments each e he
  | .parameter p =>
    -- A parameter and a variable contain no definition.
    intro e he
    simp [Ty.parts] at he
  | .var index isMethod =>
    intro e he
    simp [Ty.parts] at he
  | .shaped shape element =>
    cases h with
    | shaped inner =>
      intro e he
      simp only [Ty.parts, List.mem_cons, reduceCtorEq, false_or] at he
      exact Registry.Describes.isSteady proper element inner e he

theorem Registry.Describes.steadyEach (proper : registry.IsProper)
    (types : List Ty) {descriptions : List TypeDescription}
    (h : List.Forall₂ registry.Describes types descriptions)
    (d : TypeDefinition) (hd : .definition d ∈ Ty.partsOfEach types)
    (m : Module) (hm : m ∈ registry.modules) (named : m.name = d.module) :
    m.NestsInDefinitions d.token := by
  match types with
  | [] => simp [Ty.partsOfEach] at hd
  | t :: rest =>
    cases h with
    | cons first others =>
      rw [Ty.partsOfEach, List.mem_append] at hd
      rcases hd with hd | hd
      · exact Registry.Describes.isSteady proper t first d hd m hm named
      · exact Registry.Describes.steadyEach proper rest others d hd m hm named

end

/-! ### What is told of a definition -/

/-- What a query yields is all that it is known to answer. -/
theorem Query.Yields.tells {α : Type} {query : Query α} {a : α} {gap : Gap}
    {before : Registry} (h : query.Yields registry a)
    (transfers : query.Transfers gap before registry always fun _ => query) :
    query.Tells gap before registry (· = a) := by
  intro leads sound memory settled b answer
  obtain ⟨-, reached⟩ := transfers leads sound memory settled
  rw [answer] at reached
  have again : query.Yields registry b := reached (.inr trivial)
  exact again.eq h

section
variable {gap : Gap} {before : Registry} {m : Module}
  (hm : m ∈ registry.modules)
include hm

theorem TypeDefinition.tells_simpleName {d : TypeDefinition}
    (named : m.name = d.module) {name : String}
    (text : m.image.string d.name = .ok name) :
    d.simpleName.Tells gap before registry (· = name) := by
  refine .of_sound fun sound =>
    Yields.tells (.remember (fun _ => rfl) trivial ?_) d.transfers_simpleName
  exact yields_string sound hm named text

theorem TypeDefinition.tells_namespaceText {d : TypeDefinition}
    (named : m.name = d.module) {namespaceText : String}
    (text : m.image.string d.namespaceName = .ok namespaceText) :
    d.namespaceText.Tells gap before registry (· = namespaceText) := by
  refine .of_sound fun sound =>
    Yields.tells (.remember (fun _ => rfl) trivial ?_) d.transfers_namespaceText
  exact yields_string sound hm named text

theorem GenericParameter.tells_simpleName {p : GenericParameter}
    (named : m.name = p.module) {name : String}
    (text : m.image.string p.name = .ok name) :
    p.simpleName.Tells gap before registry (· = name) := by
  refine .of_sound fun sound =>
    Yields.tells (.remember (fun _ => rfl) trivial ?_) p.transfers_simpleName
  exact yields_string sound hm named text

omit hm in
/-- Nothing is around a definition that is not nested. -/
theorem TypeDefinition.tells_containing_of_flat {d : TypeDefinition}
    (flat : d.flags.isNested = false) :
    d.containing.Tells gap before registry (· = none) := by
  refine Tells.ite (fun _ => .pure rfl) fun nested => absurd ?_ nested
  simp [flat]

/-- The definition around a definition is found where the module declares it. -/
theorem TypeDefinition.tells_containing_declared {d outer : TypeDefinition}
    (named : m.name = d.module) (nested : d.flags.isNested = true)
    {around : Token} (encloses : m.image.enclosing? d.token = some around)
    (declares : m.Declares around (.definition outer)) :
    d.containing.Tells gap before registry (· = some (.definition outer)) := by
  refine Tells.ite (fun outermost => absurd nested outermost) fun _ => ?_
  refine (transfers_reachModule _).tells_bind (tells_reachModule _)
    fun n hn => ?_
  refine .of_sound fun sound => ?_
  obtain rfl := sound.proper.eq_of_name_eq hn.1 hm (hn.2.trans named.symm)
  rw [encloses]
  refine transfers_requireTypeSystem.tells_bind .trivial
    fun _ _ => .read_bind ?_
  refine .ite (fun _ => ?_) fun _ => (Fails.throw_bind _ _).tells
  exact Module.tells_type_of_declares hm declares

end

/-! ### Hashes -/

/-- However many steps may be taken, no other hash is told of the type. -/
def Ty.HashesTo (registry : Registry) (t : Ty) (hash : UInt32) : Prop :=
  ∀ room gap before,
    (t.hashFrom (TypeDefinition.hashWithin room)).Tells gap before
      registry (· = hash)

/-- A hash that may be remembered is told if it is what is always found. -/
theorem Ty.hashesTo_of_found {t : Ty} (steady : t.IsSteady registry.modules)
    {hash : UInt32}
    (found : ∀ room, (t.hashFrom (TypeDefinition.hashWithin room)).Fails ∨
      ∃ find, t.hashFrom (TypeDefinition.hashWithin room)
        = Ty.hashFrom.remembered t find ∧
          ∀ gap before, find.Tells gap before registry (· = hash)) :
    t.HashesTo registry hash := by
  have unknown (room : Nat) (gap : Gap) (before : Registry)
      (leads : before.LeadsTo gap registry)
      (sound : registry.IsSound) (memory : Memory)
      (settled : memory.IsSettled registry)
      (unmet : memory.facts.get? (.ofType t .hash) = none) (value : UInt32)
      (answer : (t.hashFrom (TypeDefinition.hashWithin room) before memory).1
        = .ok value) :
      value = hash := by
    rcases found room with fails | ⟨find, remembers, tells⟩
    · exact absurd answer (fails before memory value)
    · rw [remembers, hashFrom.remembered, rememberIf_apply_unknown unmet]
        at answer
      exact tells gap before leads sound memory settled value answer
  intro room gap before leads sound memory settled value answer
  cases known : memory.facts.get? (.ofType t .hash) with
  | none =>
    exact unknown room gap before leads sound memory settled known value answer
  | some kept =>
    -- What is remembered was found where nothing was, in some number of steps.
    obtain ⟨l, fresh⟩ :=
      ((settled.facts _ kept known steady).isTrue id tendsto_id).exists
    obtain rfl :=
      unknown l .none _ (Registry.leadsTo_of_withPatience sound.live l) sound {}
        (Memory.isSettled_empty registry) (by simp) kept fresh
    rcases found room with fails | ⟨find, remembers, -⟩
    · exact absurd answer (fails before memory value)
    · rw [remembers, hashFrom.remembered, rememberIf_apply_some known] at answer
      exact (Except.ok.inj answer).symm

/-- The hash of a definition, likewise. -/
theorem TypeDefinition.hashesTo_of_found {d : TypeDefinition}
    (steady : (Ty.definition d).IsSteady registry.modules) {hash : UInt32}
    (found : ∀ room gap before,
      (d.hashWith (TypeDefinition.hashWithin room)).Tells gap before registry
        (· = hash)) :
    (Ty.definition d).HashesTo registry hash := by
  refine Ty.hashesTo_of_found steady fun room => ?_
  cases room with
  | zero => exact .inl (Fails.throw _)
  | succ room =>
    exact .inr ⟨d.hashWith (TypeDefinition.hashWithin room), rfl, found room⟩

section
variable (sound : registry.IsSound)
include sound

/-- The hash of a named definition is that of its name. -/
theorem Registry.Names.hashesTo {d : TypeDefinition} {name : DefinitionName}
    (h : registry.Names d name) :
    (Ty.definition d).HashesTo registry name.hash := by
  induction h with
  | @outermost m d namespaceText name hm named flat alone inside text =>
    -- The hash is that of the namespace and the name.
    have steady := (Registry.Names.outermost hm named flat alone inside
      text).isSteady sound.proper
    refine d.hashesTo_of_found steady fun room gap before => ?_
    refine d.transfers_simpleName.tells_bind_eq
      (d.tells_simpleName hm named text) ?_
    refine d.transfers_containing.tells_bind_eq
      (d.tells_containing_of_flat flat) ?_
    refine d.transfers_namespaceText.tells_bind_eq
      (d.tells_namespaceText hm named inside) ?_
    exact .pure (NameHash.ofQualified_eq _ _)
  -- The hash goes on from that of the enclosing type.
  | @nested m d outer around outerName name hm named nested encloses declares
    names text ih =>
    have steady := (Registry.Names.nested hm named nested encloses declares
      names text).isSteady sound.proper
    refine d.hashesTo_of_found steady fun room gap before => ?_
    refine d.transfers_simpleName.tells_bind_eq
      (d.tells_simpleName hm named text) ?_
    refine d.transfers_containing.tells_bind_eq
      (d.tells_containing_declared hm named nested encloses declares) ?_
    refine (Ty.transfers_hashFrom (TypeDefinition.transfers_hashWithin room) _
      (names.isSteady sound.proper) tendsto_id).tells_bind_eq
        (ih room gap before) ?_
    exact .pure rfl

mutual

/-- The hash of a described type is that of its description. -/
theorem Registry.Describes.hashesTo (t : Ty) {description : TypeDescription}
    (h : registry.Describes t description) :
    t.HashesTo registry description.hash := by
  have steady := h.isSteady sound.proper t
  match t with
  | .definition d =>
    cases h with
    | definition names => exact names.hashesTo sound
  | .applied d arguments =>
    -- The hash of the definition is mixed with those of the arguments.
    cases h with
    | applied names each =>
      obtain ⟨definition, others⟩ := steady.of_applied
      refine Ty.hashesTo_of_found steady fun room => .inr
        ⟨_, rfl, fun gap before => ?_⟩
      refine (d.transfers_hashWithin room definition id
        tendsto_id).tells_bind_eq (names.hashesTo sound room gap before) ?_
      refine (Ty.transfers_hashesFrom (TypeDefinition.transfers_hashWithin room)
        arguments others
        tendsto_id).tells_bind_eq
          (Registry.Describes.tells_hashesFrom arguments each room) ?_
      exact .pure rfl
  | .parameter p =>
    cases h with
    | parameter hm named text =>
      -- A parameter is hashed by its name.
      refine Ty.hashesTo_of_found steady fun room => .inr
        ⟨_, rfl, fun gap before => ?_⟩
      refine p.transfers_simpleName.tells_bind_eq
        (p.tells_simpleName hm named text) ?_
      exact .pure rfl
  | .var index isMethod =>
    cases h with
    | var => exact fun _ _ _ => .pure rfl
  | .shaped shape element =>
    -- What is inside is hashed first.
    cases h with
    | shaped inner =>
      refine Ty.hashesTo_of_found steady fun room => .inr
        ⟨_, rfl, fun gap before => ?_⟩
      refine (Ty.transfers_hashFrom (TypeDefinition.transfers_hashWithin room)
        element
        steady.of_shaped tendsto_id).tells_bind_eq
        (Registry.Describes.hashesTo element inner room gap before) ?_
      cases shape with
      | _ => exact .pure rfl

theorem Registry.Describes.tells_hashesFrom (types : List Ty)
    {descriptions : List TypeDescription}
    (h : List.Forall₂ registry.Describes types descriptions) (room : Nat)
    {gap : Gap} {before : Registry} :
    (Ty.hashesFrom (TypeDefinition.hashWithin room) types).Tells gap before
      registry (· = TypeDescription.hashEach descriptions) := by
  match types with
  | [] =>
    cases h with
    | nil => exact .pure rfl
  | t :: rest =>
    cases h with
    | cons first others =>
      have steady := first.isSteady sound.proper t
      refine (Ty.transfers_hashFrom (TypeDefinition.transfers_hashWithin room) t
        steady
        tendsto_id).tells_bind_eq
          (Registry.Describes.hashesTo t first room _ _) ?_
      -- The rest is hashed in whatever memory the first has left.
      have steadyRest (u : Ty) (hu : u ∈ rest) :
          u.IsSteady registry.modules := fun d hd =>
        Registry.Describes.steadyEach sound.proper rest others d
          (Ty.parts_subset_partsOfEach hu hd)
      refine (Ty.transfers_hashesFrom (TypeDefinition.transfers_hashWithin room)
        rest steadyRest
        tendsto_id).tells_bind_eq
          (Registry.Describes.tells_hashesFrom rest others room) ?_
      exact .pure rfl

end

/-- Whatever the memory holds, the hash of a described type is that of its
description. -/
theorem Registry.Describes.tells_hash {t : Ty} {description : TypeDescription}
    (h : registry.Describes t description) {gap : Gap} {before : Registry} :
    t.hash.Tells gap before registry (· = description.hash) :=
  .read_bind (Registry.Describes.hashesTo sound t h _ _ _)

end

example :
    (TypeDescription.definition (.nested (.outermost "N" "Outer") "Inner")).hash
      = 2888980399 := by
  decide +kernel

/-! ### Full names -/

/-- The full name of a definition that is not nested is its name in its
namespace. -/
theorem Registry.Names.tells_fullName {d : TypeDefinition}
    {namespaceText name : String}
    (h : registry.Names d (.outermost namespaceText name)) {gap : Gap}
    {before : Registry} :
    (Ty.definition d).fullName.Tells gap before registry
      (· = qualified namespaceText name) := by
  cases h with
  | outermost hm named flat alone inside text =>
    refine .read_bind ?_
    show (TypeDefinition.fullNameWithin Module.type before.nestingBound d).Tells
        _ _ _ _
    cases before.nestingBound with
    -- The walk outward has room for at least the type itself.
    | zero => exact (Fails.throw _).tells
    | succ room =>
      refine d.transfers_simpleName.tells_bind_eq
        (d.tells_simpleName hm named text) ?_
      refine d.transfers_containing.tells_bind_eq
        (d.tells_containing_of_flat flat) ?_
      refine d.transfers_namespaceText.tells_bind_eq
        (d.tells_namespaceText hm named inside) ?_
      exact .pure rfl

/-! ### Main results -/

namespace Session

variable {s : Session} {options : Options} (h : s.IsCareful options)
include h

/-- What a query is known to answer, it answers a careful caller. -/
theorem IsCareful.told {α : Type} {query : Query α} {P : α → Prop}
    (tells : query.Tells .none s.system.registry s.system.registry P) {a : α}
    (answer : (s.system.ask query).1 = .ok a) : P a :=
  tells (.rfl h.isReachable.live) h.isReachable.isSound s.system.memory
    h.isSettled.memory a answer

/-- A careful caller is told the hash of a type's description. -/
theorem IsCareful.hash_of_describes {t : Ty} {description : TypeDescription}
    (describes : s.system.registry.Describes t description) {hash : UInt32}
    (answer : (s.system.ask t.hash).1 = .ok hash) : hash = description.hash :=
  h.told (describes.tells_hash h.isReachable.isSound) answer

/-- Types with one description have one hash, whichever type systems they are in
and whatever was asked there before. -/
theorem IsCareful.hash_eq_of_describes {other : Session} {options' : Options}
    (h' : other.IsCareful options') {t u : Ty} {description : TypeDescription}
    (ht : s.system.registry.Describes t description)
    (hu : other.system.registry.Describes u description) {first second : UInt32}
    (answer : (s.system.ask t.hash).1 = .ok first)
    (answer' : (other.system.ask u.hash).1 = .ok second) : first = second :=
  (h.hash_of_describes ht answer).trans (h'.hash_of_describes hu answer').symm

/-- The hash of a definition that is not nested is the hash of its full name. -/
theorem IsCareful.hash_eq_ofName {d : TypeDefinition}
    {namespaceText name : String}
    (names : s.system.registry.Names d (.outermost namespaceText name))
    {fullName : String}
    (named : (s.system.ask (Ty.definition d).fullName).1 = .ok fullName)
    {hash : UInt32}
    (answer : (s.system.ask (Ty.definition d).hash).1 = .ok hash) :
    hash = NameHash.ofName fullName := by
  rw [h.told names.tells_fullName named]
  exact h.hash_of_describes (.definition names) answer

end Session

end CliMetadata
