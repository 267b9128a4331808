import CliMetadata.Proofs.TypeSystem.Building

/-!
# Members of nodes

A member tells its owner, a signature the types in it.  Members of nodes have
nodes for owners, and what their rows spell, seen through the arguments of the
owner, are nodes again.  An enumeration is a matter of nodes if each of its
members is (`Members.GivesNodes`); which of them are wanted does not matter.
-/

namespace CliMetadata

open Query

variable {registry : Registry} {tracked : Bool} {shared : Ty → Prop}

theorem AreNodes.of_parts {modules : List Module} {t : Ty}
    (h : t.IsNode modules shared) :
    AreNodes modules shared t.parts :=
  Ty.IsNode.of_mem_parts t h

theorem AreNodes.flatMap {α : Type} {modules : List Module}
    {types : α → List Ty} {items : List α}
    (h : ∀ a ∈ items, AreNodes modules shared (types a)) :
    AreNodes modules shared (items.flatMap types) := by
  intro t ht
  obtain ⟨a, ha, hta⟩ := List.mem_flatMap.mp ht
  exact h a ha t hta

theorem AreNodes.of_flatMap {α : Type} {modules : List Module}
    {types : α → List Ty} {items : List α}
    (h : AreNodes modules shared (items.flatMap types)) {a : α}
    (ha : a ∈ items) :
    AreNodes modules shared (types a) :=
  fun t ht => h t (List.mem_flatMap.mpr ⟨a, ha, ht⟩)

/-! ### The types of a module -/

section
variable {m : Module}

theorem Module.gives_typeOfRow (hm : m ∈ registry.modules) (row : Nat) :
    (m.typeOfRow row).Gives registry tracked shared fun t => [t] := by
  refine (givesNodes_type m hm _).bind fun _ _ found hfound => ?_
  cases found with
  | some t => exact .pure fun _ le => hfound.le le
  | none => exact .throw _

theorem Module.ensures_typesFrom (hm : m ∈ registry.modules) (row count : Nat) :
    (m.typesFrom row count).Ensures registry tracked shared
      fun shared items => ∀ t, .ok t ∈ items →
        t.IsNode registry.modules shared := by
  induction count generalizing row shared with
  | zero => exact .pure nofun
  | succ count ih =>
    refine (Module.gives_typeOfRow hm row).attempt.bind fun _ _ item hitem => ?_
    refine (ih (row + 1)).bind fun _ le items hitems => .pure
      fun _ le' t ht => ?_
    rcases List.mem_cons.mp ht with rfl | ht
    · exact ((hitem t rfl).head.le le).le le'
    · exact (hitems t ht).le le'

theorem Module.keeps_visitFrom (hm : m ∈ registry.modules) (row count : Nat) :
    (m.visitFrom row count).Keeps registry tracked shared := by
  induction count generalizing row shared with
  | zero => exact .pure fun _ _ => trivial
  | succ count ih =>
    exact (Module.gives_typeOfRow hm row).attempt.bind
      fun _ _ _ _ => ih (row + 1)

theorem Module.ensures_typeAt? (hm : m ∈ registry.modules) (count : Nat) :
    (m.typeAt? count).Ensures registry tracked shared
      fun shared item => ∀ t, item = some (.ok t) →
        t.IsNode registry.modules shared := by
  refine (Module.keeps_visitFrom hm 1 _).bind fun _ _ _ _ => ?_
  refine .ite (fun _ => ?_) fun _ => .pure nofun
  refine (Module.gives_typeOfRow hm _).attempt.bind fun _ _ item hitem => ?_
  refine .pure fun _ le t ht => ?_
  exact (hitem t (Option.some.inj ht)).head.le le

theorem Module.keeps_loadFrom (hm : m ∈ registry.modules) (row count : Nat) :
    (m.loadFrom row count).Keeps registry tracked shared := by
  induction count generalizing row shared with
  | zero => exact .pure fun _ _ => trivial
  | succ count ih =>
    exact (Module.gives_typeOfRow hm row).bind fun _ _ _ _ => ih (row + 1)

theorem Module.keeps_loadAll (hm : m ∈ registry.modules) :
    m.loadAll.Keeps registry tracked shared :=
  (Module.keeps_loadFrom hm 1 _).bind fun _ _ _ _ => .pure fun _ _ => trivial

/-! ### The members of a module -/

theorem Module.gives_declaredOwner (hm : m ∈ registry.modules)
    (owner : Option Token) (ownerless : Malformation) :
    (m.declaredOwner owner ownerless).Gives registry tracked shared
      fun t => [t] := by
  cases owner with
  | none => exact .throw _
  | some token =>
    refine (givesNodes_type m hm token).bind fun _ _ found hfound => ?_
    cases found with
    | some t => exact .pure fun _ le => hfound.le le
    | none => exact .throw _

theorem Module.gives_method (hm : m ∈ registry.modules) (token : Token)
    {owner : Option Ty}
    (howner : AreNodes registry.modules shared owner.toList) :
    (m.method token owner).Gives registry tracked shared Method.types := by
  rw [Module.method.eq_def]
  split
  · refine Ensures.bind (Ensures.ownerOf (fun memory faithful => ?_)
      (fun memory faithful => ?_) ?_)
      fun _ _ owner howner => .pure fun _ le => .of_parts (howner.head.le le)
    · -- The owners that are known are nodes.
      exact faithful.methodOwners _
    · -- So is an owner that is noted.
      intro t ht
      refine ⟨rfl, { faithful with methodOwners := fun key u hu => ?_ }⟩
      rw [Std.HashMap.getElem?_insert] at hu
      split at hu
      · cases hu
        exact ht
      · exact faithful.methodOwners key u hu
    · -- So is the owner that is declared.
      cases owner with
      | some owner => exact .pure fun _ le => howner.le le
      | none => exact Module.gives_declaredOwner hm _ _
  · exact .throw _

theorem Module.gives_field (hm : m ∈ registry.modules) (token : Token)
    {owner : Option Ty}
    (howner : AreNodes registry.modules shared owner.toList) :
    (m.field token owner).Gives registry tracked shared Field.types := by
  rw [Module.field.eq_def]
  split
  · refine Ensures.bind (Ensures.ownerOf (fun memory faithful => ?_)
      (fun memory faithful => ?_) ?_)
      fun _ _ owner howner => .pure fun _ le => .of_parts (howner.head.le le)
    · exact faithful.fieldOwners _
    · intro t ht
      refine ⟨rfl, { faithful with fieldOwners := fun key u hu => ?_ }⟩
      rw [Std.HashMap.getElem?_insert] at hu
      split at hu
      · cases hu
        exact ht
      · exact faithful.fieldOwners key u hu
    · cases owner with
      | some owner => exact .pure fun _ le => howner.le le
      | none => exact Module.gives_declaredOwner hm _ _
  · exact .throw _

end

/-! ### Enumerations -/

/-- An enumeration all of whose members tell nodes. -/
structure Members.GivesNodes {μ : Type} (registry : Registry) (tracked : Bool)
    (shared : Ty → Prop) (types : μ → List Ty) (members : Members μ) :
    Prop where
  isWanted : ∀ token, (members.isWanted token).Keeps registry tracked shared
  member : ∀ token, (members.member token).Gives registry tracked shared types

namespace Members

variable {μ : Type} {types : μ → List Ty} {members : Members μ}

theorem GivesNodes.le {shared' : Ty → Prop}
    (h : members.GivesNodes registry tracked shared types)
    (le : ∀ t, shared t → shared' t) :
    members.GivesNodes registry tracked shared' types :=
  ⟨fun token => (h.isWanted token).le le, fun token => (h.member token).le le⟩

theorem givesNodes_empty :
    (empty : Members μ).GivesNodes registry tracked shared types :=
  ⟨fun _ => .pure fun _ _ => trivial, fun _ => .throw _⟩

theorem ensures_next (h : members.GivesNodes registry tracked shared types) :
    members.next.Ensures registry tracked shared fun shared item =>
      (∀ a, item.1 = some (.ok a) →
        AreNodes registry.modules shared (types a)) ∧
        item.2.GivesNodes registry tracked shared types := by
  -- The induction is on the rows that are left.
  suffices hnext : ∀ tokens,
      (nextOf members.isWanted members.member tokens).Ensures registry
        tracked shared fun shared item =>
          ∀ a, item.1 = some (.ok a) →
          AreNodes registry.modules shared (types a) by
    refine (hnext members.tokens).bind fun _ le item hitem => .pure
      fun _ le' => ?_
    have h := (h.le le).le le'
    exact ⟨fun a ha => (hitem a ha).le le', h.isWanted, h.member⟩
  intro tokens
  induction tokens with
  | nil => exact .pure nofun
  | cons token rest ih =>
    refine (h.isWanted token).attempt.bind fun _ le wanted _ => ?_
    rcases wanted with _ | _ | _
    · -- The filter fails.
      exact .pure nofun
    · -- The row is not wanted.
      exact ih.le le
    · -- The row is wanted, and a member is made of it.
      refine ((h.member token).le le).attempt.bind fun _ _ item hitem => .pure
        fun _ le' a ha => ?_
      exact (hitem a (Option.some.inj ha)).le le'

theorem ensures_all (h : members.GivesNodes registry tracked shared types) :
    members.all.Ensures registry tracked shared fun shared items =>
      ∀ a, .ok a ∈ items → AreNodes registry.modules shared (types a) := by
  rw [all]
  induction members.tokens with
  | nil => exact .pure nofun
  | cons token rest ih =>
    refine (h.isWanted token).attempt.bind fun _ le wanted _ => ?_
    rcases wanted with _ | _ | _
    · -- The filter fails, which is an item of its own.
      refine (ih.le le).bind fun _ _ items hitems => .pure fun _ le' a ha => ?_
      rcases List.mem_cons.mp ha with ha | ha
      · cases ha
      · exact (hitems a ha).le le'
    · -- The row is not wanted.
      exact ih.le le
    · -- The row is wanted, and a member is made of it.
      refine ((h.member token).le le).attempt.bind fun _ le' item hitem => ?_
      refine ((ih.le le).le le').bind fun _ le'' items hitems => .pure
        fun _ le''' a ha => ?_
      rcases List.mem_cons.mp ha with rfl | ha
      · exact ((hitem a rfl).le le'').le le'''
      · exact (hitems a ha).le le'''

theorem gives_find (h : members.GivesNodes registry tracked shared types)
    {test : μ → Query Bool}
    (tests : ∀ shared', (∀ t, shared t → shared' t) → ∀ a,
      AreNodes registry.modules shared' (types a) →
      (test a).Keeps registry tracked shared') :
    (members.find test).Gives registry tracked shared
      fun found => found.toList.flatMap types := by
  rw [find]
  induction members.tokens with
  | nil => exact .pure fun _ _ => .nil
  | cons token rest ih =>
    refine (h.isWanted token).bind fun _ le _ _ => ?_
    refine .ite (fun _ => ?_) fun _ => ih.le le
    refine ((h.member token).le le).bind fun _ le' found hfound => ?_
    refine (tests _ (fun t ht => le' t (le t ht)) found hfound).bind
      fun _ le'' _ _ => ?_
    refine .ite (fun _ => .pure fun _ le''' => ?_)
      fun _ => ((ih.le le).le le').le le''
    simpa using (hfound.le le'').le le'''

theorem ensures_item? (count : Nat)
    (h : members.GivesNodes registry tracked shared types) :
    (item? count members).Ensures registry tracked shared fun shared item =>
      ∀ a, item = some (.ok a) →
      AreNodes registry.modules shared (types a) := by
  induction count generalizing members shared with
  | zero =>
    refine (ensures_next h).bind fun _ _ item hitem => .pure fun _ le a ha => ?_
    exact (hitem.1 a ha).le le
  | succ count ih =>
    refine (ensures_next h).bind fun _ _ item hitem => ?_
    obtain ⟨_ | item, rest⟩ := item
    · exact .pure nofun
    · exact ih hitem.2

end Members

/-! ### Members of types -/

theorem MethodFilter.keeps_accepts (filter : MethodFilter) (m : Module)
    (token : Token) :
    (filter.accepts m token).Keeps registry tracked shared := by
  cases filter with
  | all => exact .pure fun _ _ => trivial
  | virtual =>
    rw [MethodFilter.accepts.eq_def]
    dsimp only
    split
    · exact .pure fun _ _ => trivial
    · exact .throw _
  | named name =>
    rw [MethodFilter.accepts.eq_def]
    dsimp only
    split
    · exact Ensures.lift_bind fun _ => .pure fun _ _ => trivial
    · exact .throw _

theorem keeps_acceptsField (name : Option String) (m : Module) (token : Token) :
    (acceptsField name m token).Keeps registry tracked shared := by
  rw [acceptsField.eq_def]
  split
  · split
    · exact Ensures.lift_bind fun _ => .pure fun _ _ => trivial
    · exact .throw _
  · exact .pure fun _ _ => trivial

section
variable {m : Module} {d : TypeDefinition} {t : Ty}

theorem gives_memberMethod (hm : m ∈ registry.modules)
    (hd : Ty.IsNode registry.modules shared (.definition d))
    (ht : t.IsNode registry.modules shared) (token : Token) :
    (memberMethod m d t token).Gives registry tracked shared Method.types := by
  refine (Module.gives_method hm token (.singleton hd)).bind
    fun _ le method hmethod => ?_
  refine .ite (fun _ => .pure fun _ le' => hmethod.le le') fun _ => ?_
  refine keeps_requireTypeSystem.bind fun _ le' _ _ => .pure fun _ le'' => ?_
  exact .append (.of_parts (((ht.le le).le le').le le''))
    ((hmethod.le le').le le'')

theorem gives_memberField (hm : m ∈ registry.modules)
    (hd : Ty.IsNode registry.modules shared (.definition d))
    (ht : t.IsNode registry.modules shared) (token : Token) :
    (memberField m d t token).Gives registry tracked shared Field.types := by
  refine (Module.gives_field hm token (.singleton hd)).bind
    fun _ le field hfield => ?_
  refine .ite (fun _ => .pure fun _ le' => hfield.le le') fun _ => ?_
  refine keeps_requireTypeSystem.bind fun _ le' _ _ => .pure fun _ le'' => ?_
  exact .append (.of_parts (((ht.le le).le le').le le''))
    ((hfield.le le').le le'')

theorem TypeDefinition.keeps_row (d : TypeDefinition) (m : Module) :
    (d.row m).Keeps registry tracked shared := by
  rw [TypeDefinition.row.eq_def]
  split
  · exact .pure fun _ _ => trivial
  · exact .throw _

/-- The definition behind a node is a node. -/
theorem Ty.IsNode.of_definition? (ht : t.IsNode registry.modules shared)
    (hd : t.definition? = some d) :
    Ty.IsNode registry.modules shared (.definition d) := by
  cases ht with
  | definition declared hshared =>
    cases hd
    exact .definition declared hshared
  | applied hdefinition =>
    cases hd
    exact hdefinition
  | _ => cases hd

theorem Ty.ensures_methods (ht : t.IsNode registry.modules shared)
    (filter : MethodFilter) :
    (t.methods filter).Ensures registry tracked shared fun shared members =>
      members.GivesNodes registry tracked shared Method.types := by
  rw [Ty.methods.eq_def]
  split
  · next d hd =>
    refine (ensures_reachModule d.module).bind fun _ le m hm => ?_
    refine (d.keeps_row m).bind fun _ le' row _ => .pure fun _ le'' => ?_
    have ht := ((ht.le le).le le').le le''
    exact ⟨fun token => filter.keeps_accepts m token,
      fun token => gives_memberMethod hm.1 (ht.of_definition? hd) ht token⟩
  · exact .pure fun _ _ => Members.givesNodes_empty

theorem Ty.ensures_fields (ht : t.IsNode registry.modules shared)
    (name : Option String) :
    (t.fields name).Ensures registry tracked shared fun shared members =>
      members.GivesNodes registry tracked shared Field.types := by
  rw [Ty.fields.eq_def]
  split
  · next d hd =>
    refine (ensures_reachModule d.module).bind fun _ le m hm => ?_
    refine (d.keeps_row m).bind fun _ le' row _ => .pure fun _ le'' => ?_
    have ht := ((ht.le le).le le').le le''
    exact ⟨fun token => keeps_acceptsField name m token,
      fun token => gives_memberField hm.1 (ht.of_definition? hd) ht token⟩
  · exact .pure fun _ _ => Members.givesNodes_empty

theorem Ty.gives_fieldNamed (ht : t.IsNode registry.modules shared)
    (name : String) :
    (t.fieldNamed name).Gives registry tracked shared
      fun found => found.toList.flatMap Field.types :=
  (Ty.ensures_fields ht _).bind fun _ _ _ h =>
    Members.gives_find h fun _ _ _ _ => .pure fun _ _ => trivial

end

/-! ### Signatures -/

section
variable {m : Module}

theorem Module.ensures_resolveModifiers (hm : m ∈ registry.modules)
    (position : Nat) (modifiers : List Modifier) :
    (m.resolveModifiers position modifiers).Gives registry tracked
      shared fun resolved => resolved.map (·.type) := by
  induction modifiers generalizing shared with
  | nil => exact .pure fun _ _ => .nil
  | cons modifier rest ih =>
    refine (Module.gives_requiredType hm modifier.type).bind
      fun _ _ type htype => ?_
    refine ih.bind fun _ le others hothers => .pure fun _ le' => ?_
    exact .cons ((htype.head.le le).le le') (hothers.le le')

/-- The types of a parameter and its modifiers. -/
def paramTypes (param : Ty × List ResolvedModifier) : List Ty :=
  param.1 :: param.2.map (·.type)

theorem Module.gives_resolveParam (hm : m ∈ registry.modules) (position : Nat)
    (param : ParamSig) :
    (m.resolveParam position param).Gives registry tracked shared
      paramTypes := by
  refine (Module.ensures_resolveModifiers hm position _).bind
    fun _ _ modifiers hmodifiers => ?_
  refine (Module.gives_resolve hm param.type).bind fun _ le type htype => ?_
  refine .ite (fun _ => ?_) fun _ => .pure fun _ le' => ?_
  · refine (gives_shapeOf .byRef htype.head).bind fun _ le' _ htype => .pure
      fun _ le'' => ?_
    exact .cons (htype.head.le le'') (((hmodifiers.le le).le le').le le'')
  · exact .cons (htype.head.le le') ((hmodifiers.le le).le le')

theorem Module.gives_resolveParams (hm : m ∈ registry.modules) (position : Nat)
    (params : List ParamSig) :
    (m.resolveParams position params).Gives registry tracked shared
      fun resolved => resolved.flatMap paramTypes := by
  induction params generalizing position shared with
  | nil => exact .pure fun _ _ => .nil
  | cons param rest ih =>
    refine (Module.gives_resolveParam hm position param).bind
      fun _ _ first hfirst => ?_
    refine (ih (position + 1)).bind fun _ le others hothers => .pure
      fun _ le' => ?_
    exact .append ((hfirst.le le).le le') (hothers.le le')

theorem Module.gives_resolveMethod (hm : m ∈ registry.modules)
    (signature : MethodSig) :
    (m.resolveMethod signature).Gives registry tracked shared
      MethodSignature.types := by
  refine keeps_requireTypeSystem.bind fun _ _ _ _ => ?_
  refine (Module.gives_resolveParam hm 0 signature.result).bind
    fun _ _ result hresult => ?_
  refine (Module.gives_resolveParams hm 1 signature.params).bind
    fun _ le params hparams => ?_
  refine .pure fun _ le' => ?_
  have hresult := (hresult.le le).le le'
  have hparams :=
    fun param hparam => (hparams.of_flatMap (a := param) hparam).le le'
  refine .cons hresult.head (.append ?_ ?_)
  · -- What the parameters resolve to.
    intro t ht
    obtain ⟨param, hparam, rfl⟩ := List.mem_map.mp ht
    exact (hparams param hparam).head
  · -- The modifiers of the result and of the parameters.
    intro t ht
    rw [List.map_append, List.mem_append, List.map_flatMap] at ht
    rcases ht with ht | ht
    · exact hresult.tail t ht
    · obtain ⟨param, hparam, ht⟩ := List.mem_flatMap.mp ht
      exact (hparams param hparam).tail t ht

end

section
variable {types : List Ty}

theorem gives_mapM {α β : Type} {typeOf : α → Ty} {typeOf' : β → Ty}
    {change : α → Query β}
    (changes : ∀ shared', (∀ t, shared t → shared' t) → ∀ a,
      (typeOf a).IsNode registry.modules shared' →
      (change a).Gives registry tracked shared' fun b => [typeOf' b])
    {items : List α}
    (hitems : AreNodes registry.modules shared (items.map typeOf)) :
    (items.mapM change).Gives registry tracked shared
      fun changed => changed.map typeOf' := by
  induction items generalizing shared with
  | nil =>
    rw [List.mapM_nil]
    exact .pure fun _ _ => .nil
  | cons a items ih =>
    rw [List.mapM_cons]
    refine (changes _ (fun _ => id) a hitems.head).bind fun _ le b hb => ?_
    refine (ih (fun shared' le' => changes shared' fun t ht => le' t (le t ht))
      (hitems.tail.le le)).bind fun _ le' rest hrest => .pure fun _ le'' => ?_
    exact .cons ((hb.head.le le').le le'') (hrest.le le'')

theorem ResolvedModifier.gives_substituted {modifier : ResolvedModifier}
    (hmodifier : modifier.type.IsNode registry.modules shared)
    (htypes : AreNodes registry.modules shared types) :
    (modifier.substituted types).Gives registry tracked shared
      fun changed => [changed.type] :=
  (Ty.gives_substituted hmodifier htypes .nil).bind fun _ _ _ h => .pure
    fun _ le => h.le le

theorem MethodSignature.gives_substituted {signature : MethodSignature}
    (hsignature : AreNodes registry.modules shared signature.types)
    (htypes : AreNodes registry.modules shared types) :
    (signature.substituted types).Gives registry tracked shared
      MethodSignature.types := by
  refine .ite (fun _ => .pure fun _ le => hsignature.le le) fun _ => ?_
  have ⟨hparameters, hmodifiers⟩ := List.forall_mem_append.mp hsignature.tail
  rw [← List.map_id signature.parameters] at hparameters
  -- The parameters, their modifiers and the result are changed in turn.
  have changes : (signature.parameters.mapM fun t : Ty => t.substituted types
      []).Gives registry tracked shared
      fun changed => changed.map id :=
    gives_mapM (fun _ le t ht => Ty.gives_substituted ht (htypes.le le) .nil)
      hparameters
  refine changes.bind fun _ le parameters hparameters => ?_
  refine (gives_mapM (fun _ le' modifier h =>
    ResolvedModifier.gives_substituted h
      ((htypes.le le).le le')) (AreNodes.le hmodifiers le)).bind
      fun _ le' modifiers hmodifiers => ?_
  refine (Ty.gives_substituted ((hsignature.head.le le).le le')
    ((htypes.le le).le le')
    .nil).bind fun _ le'' result hresult => .pure fun _ le''' => ?_
  dsimp only at hparameters
  rw [List.map_id] at hparameters
  refine .cons (hresult.head.le le''') (.append ?_ ?_)
  · exact ((hparameters.le le').le le'').le le'''
  · exact (hmodifiers.le le'').le le'''

end

/-! ### Methods and fields -/

/-- A method has the name of its row. -/
theorem MethodDefinition.ensures_text (d : MethodDefinition) :
    d.text.Ensures registry tracked shared
      fun _ text => TellText registry.modules d.module d.name text := by
  have found :
      (do (← reachModule d.module).image.string d.name : Query String).Ensures
        registry
      tracked shared
        ((Fact.ofMethod (.definition d) .name).Holds registry.modules) := by
    refine (ensures_reachModule d.module).bind fun _ _ m hm => .lift
      fun text there _ _ => ?_
    rintro _ ⟨⟩
    exact ⟨m, hm.1, hm.2, there⟩
  exact (Ensures.remember found).imp fun _ _ holds => holds d rfl

/-- A field has the name of its row. -/
theorem FieldDefinition.ensures_text (d : FieldDefinition) :
    d.text.Ensures registry tracked shared
      fun _ text => TellText registry.modules d.module d.name text := by
  have found :
      (do (← reachModule d.module).image.string d.name : Query String).Ensures
        registry
      tracked shared
        ((Fact.ofField (.definition d) .name).Holds registry.modules) := by
    refine (ensures_reachModule d.module).bind fun _ _ m hm => .lift
      fun text there _ _ => ?_
    rintro _ ⟨⟩
    exact ⟨m, hm.1, hm.2, there⟩
  exact (Ensures.remember found).imp fun _ _ holds => holds d rfl

theorem Method.keeps_name (method : Method) :
    method.name.Keeps registry tracked shared :=
  method.declaration.ensures_text.keeps

theorem Field.keeps_name (field : Field) :
    field.name.Keeps registry tracked shared :=
  field.declaration.ensures_text.keeps

theorem MethodDefinition.gives_resolved (d : MethodDefinition) :
    d.resolved.Gives registry tracked shared MethodSignature.types := by
  refine Ensures.remember ((ensures_reachModule d.module).bind
    fun _ _ m hm => ?_)
  refine Ensures.lift_bind fun _ => Ensures.read_bind
    (Ensures.lift_bind fun _ => ?_)
  exact Module.gives_resolveMethod hm.1 _

theorem FieldDefinition.gives_type (d : FieldDefinition) :
    d.type.Gives registry tracked shared fun t => [t] := by
  refine Ensures.imp (Ensures.remember ?_) fun _ _ => AreNodes.singleton
  refine (ensures_reachModule d.module).bind fun _ _ m hm => ?_
  refine Ensures.lift_bind fun _ => Ensures.read_bind
    (Ensures.lift_bind fun _ => ?_)
  exact (Module.gives_resolve hm.1 _).imp fun _ _ => AreNodes.head

theorem MethodDefinition.gives_parameters (d : MethodDefinition) :
    d.parameters.Gives registry tracked shared id := by
  refine Ensures.remember ((ensures_reachModule d.module).bind
    fun _ _ m hm => ?_)
  exact (Module.ensures_parameters hm.1 _).imp fun _ _ h => h.1

/-- What the signature of a method says is a matter of nodes if the owner of the
method is one. -/
theorem Method.gives_signature : {method : Method} →
    AreNodes registry.modules shared method.types →
      method.signature.Gives registry tracked shared MethodSignature.types
  | .definition d, _ => d.gives_resolved
  | .view method owner, h => by
    have ⟨howner, hmethod⟩ := List.forall_mem_append.mp h
    refine Ensures.remember ((Method.gives_signature hmethod).bind
      fun _ le signature hs => ?_)
    have howner := (howner owner owner.mem_parts).le le
    refine (Ty.gives_instantiation howner).bind fun _ le' types htypes => ?_
    exact MethodSignature.gives_substituted (hs.le le') htypes

theorem Method.gives_parameters : (method : Method) →
    method.parameters.Gives registry tracked shared id
  | .definition d => d.gives_parameters
  | .view method _ => Ensures.remember method.gives_parameters

theorem Field.gives_type :
    {field : Field} → AreNodes registry.modules shared field.types →
    field.type.Gives registry tracked shared fun t => [t]
  | .definition d, _ => d.gives_type
  | .view field owner, h => by
    have ⟨howner, hfield⟩ := List.forall_mem_append.mp h
    refine Ensures.imp (Ensures.remember ?_) fun _ _ => AreNodes.singleton
    refine (Field.gives_type hfield).bind fun _ le t ht => ?_
    have howner := (howner owner owner.mem_parts).le le
    refine (Ty.gives_instantiation howner).bind fun _ le' types htypes => ?_
    exact (Ty.gives_substituted (ht.head.le le') htypes .nil).imp
      fun _ _ => AreNodes.head

theorem Method.keeps_isConstructor (method : Method) :
    method.isConstructor.Keeps registry tracked shared :=
  .ite (fun _ => .pure fun _ _ => trivial) fun _ =>
    method.keeps_name.bind fun _ _ _ _ => .pure fun _ _ => trivial

theorem Method.keeps_isStaticConstructor (method : Method) :
    method.isStaticConstructor.Keeps registry tracked shared :=
  .ite (fun _ => .pure fun _ _ => trivial) fun _ =>
    method.keeps_name.bind fun _ _ _ _ => .pure fun _ _ => trivial

/-! ### Finding methods -/

section
variable {t : Ty}

theorem Ty.gives_findMethod (ht : t.IsNode registry.modules shared)
    (name : String) {wanted : Option MethodSignature} {substitution : List Ty}
    (hsubstitution : AreNodes registry.modules shared substitution)
    (relates : MethodSignature → MethodSignature → Bool) :
    (t.findMethod name wanted substitution relates).Gives registry
      tracked shared
      fun found => found.toList.flatMap Method.types := by
  refine (Ty.ensures_methods ht _).bind fun _ le _ h => ?_
  refine Members.gives_find h fun _ le' method hmethod => ?_
  cases wanted with
  | none => exact .pure fun _ _ => trivial
  | some wanted =>
    refine (Method.gives_signature hmethod).bind
      fun _ le'' signature hsignature => ?_
    have hsubstitution := ((hsubstitution.le le).le le').le le''
    exact (MethodSignature.gives_substituted hsignature hsubstitution).bind
      fun _ _ _ _ =>
      .pure fun _ _ => trivial

theorem Ty.gives_staticConstructor (ht : t.IsNode registry.modules shared) :
    t.staticConstructor.Gives registry tracked shared
      fun found => found.toList.flatMap Method.types :=
  (Ty.ensures_methods ht _).bind fun _ _ _ h =>
    Members.gives_find h fun _ _ _ _ => .pure fun _ _ => trivial

theorem Ty.gives_defaultConstructor (ht : t.IsNode registry.modules shared) :
    t.defaultConstructor.Gives registry tracked shared
      fun found => found.toList.flatMap Method.types := by
  refine .ite (fun _ => .pure fun _ _ => .nil) fun _ => ?_
  refine (Ty.ensures_methods ht _).bind fun _ _ _ h => Members.gives_find h
    fun _ _ method hm => ?_
  refine .ite (fun _ => .pure fun _ _ => trivial) fun _ => ?_
  exact (Method.gives_signature hm).bind fun _ _ _ _ => .pure fun _ _ => trivial

/-- The method that a virtual call reaches is a member of a node. -/
theorem Ty.gives_dispatch (ht : t.IsNode registry.modules shared)
    {declaration : Method}
    (hdeclaration : AreNodes registry.modules shared declaration.types) :
    (t.dispatch declaration).Gives registry tracked shared
      fun found => found.toList.flatMap Method.types := by
  refine declaration.keeps_name.bind fun _ le name _ => ?_
  refine (Method.gives_signature (hdeclaration.le le)).bind
    fun _ le' signature _ => ?_
  refine keeps_requireTypeSystem.bind fun _ le'' _ _ => ?_
  refine gives_alongBases (fun _ _ candidate hcandidate => ?_)
    (((ht.le le).le le').le le'')
  refine (Ty.ensures_methods hcandidate _).bind fun _ _ _ h => ?_
  refine Members.gives_find h fun _ _ method hmethod => ?_
  refine .ite (fun _ => .pure fun _ _ => trivial) fun _ => ?_
  refine .ite (fun _ => .pure fun _ _ => trivial) fun _ => ?_
  exact (Method.gives_signature hmethod).bind fun _ _ _ _ => .pure
    fun _ _ => trivial

theorem Ty.gives_finalizer (ht : t.IsNode registry.modules shared) :
    t.finalizer.Gives registry tracked shared
      fun found => found.toList.flatMap Method.types := by
  refine (Ty.keeps_hasBase ht).bind fun _ le _ _ => ?_
  refine .ite (fun _ => ?_) fun _ => .pure fun _ _ => .nil
  refine keeps_requireTypeSystem.bind fun _ le' _ _ => ?_
  refine (gives_wellKnown .object).bind fun _ le'' root hroot => ?_
  refine (Ty.gives_findMethod hroot.head finalizerName .nil _).bind
    fun _ le₃ found hfound => ?_
  cases found with
  | none => exact .pure fun _ _ => .nil
  | some declaration =>
    have hdeclaration : AreNodes registry.modules _ declaration.types :=
      hfound.of_flatMap List.mem_cons_self
    refine (Ty.gives_dispatch ((((ht.le le).le le').le le'').le le₃)
      hdeclaration).bind
      fun _ _ target htarget => ?_
    cases target with
    -- The root declares the method, but nothing answers a call of it.
    | none => exact t.keeps_subject.bind fun _ _ _ _ => .throw _
    | some target =>
      exact .ite (fun _ => .pure fun _ _ => .nil) fun _ => .pure
        fun _ le => htarget.le le

end

/-! ### What sort of type a type is -/

theorem TypeDefinition.keeps_findCategory (d : TypeDefinition) :
    d.findCategory.Keeps registry tracked shared := by
  refine Ensures.read_bind ?_
  split
  · exact .pure fun _ _ => trivial
  · refine keeps_requireTypeSystem.bind fun _ _ _ _ => ?_
    refine (gives_wellKnown .valueType).bind fun _ _ _ _ => ?_
    refine (gives_wellKnown .enum).bind fun _ _ _ _ => ?_
    refine d.gives_baseType.bind fun _ _ _ _ => ?_
    refine .ite (fun _ => .pure fun _ _ => trivial) fun _ => ?_
    exact .ite (fun _ => .pure fun _ _ => trivial) fun _ => .pure
      fun _ _ => trivial

theorem TypeDefinition.keeps_category (d : TypeDefinition) :
    d.category.Keeps registry tracked shared := by
  refine (Ensures.remember ?_).keeps
  exact d.keeps_findCategory

theorem TypeDefinition.keeps_findVariance (d : TypeDefinition) :
    d.findVariance.Keeps registry tracked shared :=
  d.ensures_parameters.bind fun _ _ _ _ => .pure fun _ _ => trivial

theorem TypeDefinition.keeps_findAttributeFlags (d : TypeDefinition) :
    d.findAttributeFlags.Keeps registry tracked shared := by
  refine d.keeps_category.bind fun _ _ _ _ => ?_
  exact (ensures_reachModule d.module).bind fun _ _ _ _ => .lift
    fun _ _ _ _ => trivial

namespace Ty

theorem keeps_findCategory (t : Ty) :
    t.findCategory.Keeps registry tracked shared := by
  cases t with
  | definition d => exact d.keeps_findCategory
  | applied d _ => exact d.keeps_category
  | parameter | var | shaped => exact .pure fun _ _ => trivial

theorem keeps_findVariance (t : Ty) :
    t.findVariance.Keeps registry tracked shared := by
  cases t with
  | definition d => exact d.keeps_findVariance
  | applied d _ =>
    refine (Ensures.remember ?_).keeps
    exact d.keeps_findVariance
  | parameter | var | shaped => exact .pure fun _ _ => trivial

theorem keeps_findAttributeFlags (t : Ty) :
    t.findAttributeFlags.Keeps registry tracked shared := by
  cases t with
  | definition d => exact d.keeps_findAttributeFlags
  | applied d _ =>
    refine (Ensures.remember ?_).keeps
    exact d.keeps_findAttributeFlags
  | parameter | var | shaped => exact .pure fun _ _ => trivial

theorem keeps_part (t : Ty) (isWanted : Bool) (aspect : TypeAspect)
    {find : Query aspect.Value} (h : find.Keeps registry tracked shared) :
    (t.part isWanted aspect find).Keeps registry tracked shared := by
  refine .ite (fun _ => .pure fun _ _ => trivial) fun _ => ?_
  refine (Ensures.established? _).bind fun _ le known _ => ?_
  cases known with
  | some value => exact .pure fun _ _ => trivial
  | none => exact (h.le le).bind fun _ _ _ _ => .pure fun _ _ => trivial

theorem keeps_establishPart (t : Ty) {aspect : TypeAspect}
    (value : Option aspect.Value)
    (h : ∀ v, (Fact.ofType t aspect).Holds registry.modules shared v) :
    (t.establishPart aspect value).Keeps registry tracked shared := by
  cases value with
  | some value => exact .establish (h value)
  | none => exact .pure fun _ _ => trivial

section
variable {t : Ty} (ht : t.IsNode registry.modules shared)
include ht

theorem keeps_findFinalizer :
    (do return (← t.finalizer).isSome : Query Bool).Keeps registry
      tracked shared :=
  (gives_finalizer ht).bind fun _ _ _ _ => .pure fun _ _ => trivial

theorem keeps_findFlags (request : FlagRequest) :
    (t.findFlags request).Keeps registry tracked shared := by
  -- The parts are looked for in turn.
  refine (t.keeps_part _ .category t.keeps_findCategory).bind
    fun _ le category _ => ?_
  refine (t.keeps_part _ .variance t.keeps_findVariance).bind
    fun _ le' variance _ => ?_
  have ht := (ht.le le).le le'
  refine (t.keeps_part _ .finalizer (keeps_findFinalizer ht)).bind
    fun _ _ finalizer _ => ?_
  refine (t.keeps_part _ .attributeFlags t.keeps_findAttributeFlags).bind
    fun _ _ attributes _ => ?_
  -- They are published when all of them are there.
  refine (t.keeps_establishPart category fun _ => trivial).bind
    fun _ _ _ _ => ?_
  refine (t.keeps_establishPart variance fun _ => trivial).bind
    fun _ _ _ _ => ?_
  refine (t.keeps_establishPart finalizer fun _ => trivial).bind
    fun _ _ _ _ => ?_
  refine (t.keeps_establishPart attributes fun _ => trivial).bind
    fun _ _ _ _ => ?_
  exact .pure fun _ _ => trivial

theorem keeps_hasFinalizer : t.hasFinalizer.Keeps registry tracked shared := by
  refine (Ensures.remember ?_).keeps
  exact keeps_findFinalizer ht

omit ht

theorem keeps_category (t : Ty) : t.category.Keeps registry tracked shared := by
  refine (Ensures.remember ?_).keeps
  exact t.keeps_findCategory

theorem keeps_hasVariance (t : Ty) :
    t.hasVariance.Keeps registry tracked shared := by
  refine (Ensures.remember ?_).keeps
  exact t.keeps_findVariance

theorem keeps_attributeFlags (t : Ty) :
    t.attributeFlags.Keeps registry tracked shared := by
  refine (Ensures.remember ?_).keeps
  exact t.keeps_findAttributeFlags

theorem keeps_isSealed (t : Ty) : t.isSealed.Keeps registry tracked shared := by
  rw [isSealed.eq_def]
  split
  · exact .pure fun _ _ => trivial
  · refine .ite (fun _ => .pure fun _ _ => trivial) fun _ => ?_
    exact t.keeps_category.bind fun _ _ _ _ => .pure fun _ _ => trivial

theorem keeps_inlineLength (t : Ty) :
    t.inlineLength.Keeps registry tracked shared := by
  refine t.keeps_attributeFlags.bind fun _ _ flags _ => ?_
  refine .ite (fun _ => ?_) fun _ => t.keeps_fullName.bind
    fun _ _ _ _ => .throw _
  split
  · next d _ =>
    refine (ensures_reachModule d.module).bind fun _ _ m _ => Ensures.lift_bind
      fun row => ?_
    cases row with
    | none => exact .pure fun _ _ => trivial
    | some row => exact Ensures.read_bind (Ensures.lift_bind fun _ => .pure
        fun _ _ => trivial)
  · exact .pure fun _ _ => trivial

theorem keeps_layout (t : Ty) : t.layout.Keeps registry tracked shared := by
  rw [layout.eq_def]
  split
  · next d _ =>
    refine (ensures_reachModule d.module).attempt.bind fun _ _ found _ => ?_
    cases found with
    | error _ => exact .pure fun _ _ => trivial
    | ok m =>
      dsimp only
      split
      · exact .pure fun _ _ => trivial
      · exact .pure fun _ _ => trivial
  · exact .pure fun _ _ => trivial

include ht

/-- What values of a node are stored as is a node. -/
theorem gives_underlying :
    t.underlying.Gives registry tracked shared fun t => [t] := by
  refine t.keeps_category.bind fun _ le _ _ => ?_
  refine .ite (fun _ => .pure fun _ le' => .singleton ((ht.le le).le le'))
    fun _ => ?_
  refine (ensures_fields (ht.le le) none).bind fun _ _ _ h => ?_
  refine (Members.gives_find h fun _ _ _ _ => .pure fun _ _ => trivial).bind
    fun _ _ stored hstored => ?_
  cases stored with
  | some field => exact Field.gives_type (hstored.of_flatMap List.mem_cons_self)
  | none => exact t.keeps_subject.bind fun _ _ _ _ => .throw _

omit ht

theorem gives_typesOf {m : Module} (hm : m ∈ registry.modules)
    (tokens : List Token) :
    (typesOf m tokens).Gives registry tracked shared id := by
  induction tokens generalizing shared with
  | nil => exact .pure fun _ _ => .nil
  | cons token rest ih =>
    refine (givesNodes_type m hm token).bind fun _ _ type htype => ?_
    refine ih.bind fun _ le others hothers => .pure fun _ le' => ?_
    exact .append ((htype.le le).le le') (hothers.le le')

theorem gives_nestedTypes (t : Ty) :
    t.nestedTypes.Gives registry tracked shared id := by
  rw [nestedTypes.eq_def]
  split
  · next d _ =>
      exact (ensures_reachModule d.module).bind
        fun _ _ _ hm => gives_typesOf hm.1 _
  · exact .pure fun _ _ => .nil

theorem keeps_hasAttribute (t : Ty) (namespaceName name : String) :
    (t.hasAttribute namespaceName name).Keeps registry tracked shared := by
  rw [hasAttribute.eq_def]
  split
  · next d _ =>
    exact (ensures_reachModule d.module).bind fun _ _ _ _ => .lift
      fun _ _ _ _ => trivial
  · exact .pure fun _ _ => trivial

end

end Ty

theorem Method.keeps_hasAttribute (method : Method)
    (namespaceName name : String) :
    (method.hasAttribute namespaceName name).Keeps registry tracked shared :=
  (ensures_reachModule method.module).bind fun _ _ _ _ => .lift
    fun _ _ _ _ => trivial

theorem Field.keeps_hasAttribute (field : Field) (namespaceName name : String) :
    (field.hasAttribute namespaceName name).Keeps registry tracked shared :=
  (ensures_reachModule field.module).bind fun _ _ _ _ => .lift
    fun _ _ _ _ => trivial

/-! ### Tokens of members -/

/-- The types that the result of following a token tells. -/
def Entity.types : Entity → List Ty
  | .type t => t.parts
  | .method m => m.types
  | .field f => f.types

theorem MethodSignature.gives_seenFrom {signature : MethodSignature} {t : Ty}
    (hsignature : AreNodes registry.modules shared signature.types)
    (ht : t.IsNode registry.modules shared) :
    (signature.seenFrom t).Gives registry tracked shared
      MethodSignature.types := by
  cases ht with
  | applied _ harguments =>
    exact MethodSignature.gives_substituted hsignature harguments
  | _ => exact .pure fun _ le => hsignature.le le

section
variable {m : Module}

theorem Module.gives_inheritedMember (hm : m ∈ registry.modules)
    (row : MemberRefRow) :
    (m.inheritedMember row).Gives registry tracked shared
      fun found => found.toList.flatMap Entity.types := by
  refine (givesNodes_type m hm row.parent).bind fun _ _ parent hparent => ?_
  cases parent with
  | none => exact .pure fun _ _ => .nil
  | some parent =>
    refine Ensures.lift_bind fun name => Ensures.lift_bind fun blob => ?_
    -- A field is looked for by its name, and a method by what its signature
    -- spells.
    refine keeps_requireTypeSystem.bind fun _ le _ _ => .ite
      (fun _ => ?_) fun _ => ?_
    · refine (gives_alongBases (fun _ _ t ht => Ty.gives_fieldNamed ht name)
        (hparent.head.le le)).bind fun _ _ found hfound => .pure fun _ le => ?_
      cases found with
      | none => exact .nil
      | some field => exact hfound.le le
    · refine Ensures.read_bind (Ensures.lift_bind fun spelled => ?_)
      refine (Module.gives_resolveMethod hm spelled).bind
        fun _ le' signature hs => ?_
      have hparent := (hparent.head.le le).le le'
      refine (MethodSignature.gives_seenFrom hs hparent).bind
        fun _ le'' wanted _ => ?_
      refine (gives_alongBases
        (fun _ _ t ht => Ty.gives_findMethod ht name .nil _)
        (hparent.le le'')).bind fun _ _ found hfound => .pure fun _ le => ?_
      cases found with
      | none => exact .nil
      | some method => exact hfound.le le

theorem Module.gives_referencedMember (hm : m ∈ registry.modules)
    (token : Token) :
    (m.referencedMember token).Gives registry tracked shared
      fun found => found.toList.flatMap Entity.types := by
  rw [Module.referencedMember.eq_def]
  split
  · next row _ =>
    refine .ite (fun _ => ?_) fun _ => .ite (fun _ => .throw _) fun _ => ?_
    · refine (Module.gives_method hm row.parent .nil).bind
        fun _ _ method h => ?_
      exact .pure fun _ le => .append (h.le le) .nil
    · exact Module.gives_inheritedMember hm row
  · exact .throw _

/-- What a token of a module leads to is a matter of nodes. -/
theorem Module.gives_entity (hm : m ∈ registry.modules) (token : Token) :
    (m.entity token).Gives registry tracked shared
      fun found => found.toList.flatMap Entity.types := by
  have ofType :
      (do return (← m.type token).map Entity.type : Query (Option Entity)).Gives
        registry tracked shared fun found => found.toList.flatMap
        Entity.types := by
    refine (givesNodes_type m hm token).bind fun _ _ found hfound => .pure
      fun _ le => ?_
    cases found with
    | none => exact .nil
    | some t => exact .append (.of_parts (hfound.head.le le)) .nil
  rw [Module.entity.eq_def]
  split
  · -- A definition, a reference or a specification of a type.
    exact ofType
  · exact ofType
  · exact ofType
  · -- A generic parameter.
    refine (Module.gives_parameter hm token).bind fun _ _ t ht => .pure
      fun _ le => ?_
    exact .append (.of_parts (ht.head.le le)) .nil
  · -- A method.
    refine (Module.gives_method hm token .nil).bind fun _ _ method h => .pure
      fun _ le => ?_
    exact .append (h.le le) .nil
  · -- A field.
    refine (Module.gives_field hm token .nil).bind fun _ _ field h => .pure
      fun _ le => ?_
    exact .append (h.le le) .nil
  · -- A reference to a member.
    exact Module.gives_referencedMember hm token
  · exact .throw _

end

end CliMetadata
