import CliMetadata.Proofs.TypeSystem.Lasting.Building

/-!
# Bases and members that stay as they were

A base that is not found is an error, so that bases stay, and with them what is
found along them.  The owner that a member was first met with stays, whoever it
is.  A search visits rows in the order of the module and asks members for what
is remembered, so that what it finds stays as well.  A list of all members stays
as well, as long as no errors stand among the items.
-/

namespace CliMetadata

open Query

/-! ### Base types -/

theorem TypeDefinition.adds_subject (d : TypeDefinition) (moduleName : String) :
    (d.subject moduleName).Adds := by
  refine d.stays_namespaceText.attempt.bind_adds fun _ => ?_
  exact d.stays_simpleName.attempt.bind_adds fun _ => .pure _

theorem Ty.adds_subject (t : Ty) : t.subject.Adds := by
  refine t.stays_module?.attempt.bind_adds fun _ => ?_
  refine t.stays_namespaceText.attempt.bind_adds fun _ => ?_
  exact t.stays_simpleName.attempt.bind_adds fun _ => .pure _

theorem TypeDefinition.stays_openBase (d : TypeDefinition) :
    d.openBase.Stays := by
  refine .ite (fun _ => .pure _) fun _ => (stays_reachModule d.module).bind
    fun m => ?_
  refine (finds_type m d.base).attempt.bind_of (fun _ _ result _ => ?_) ?_
  · rcases result with cause | _ | base
    · exact .ite (fun _ => .throw_bind _ _) fun _ =>
        (d.adds_subject _).bind_throw
    · exact (d.adds_subject _).bind_throw
    · refine .ite (fun _ => .pure _) fun _ => ?_
      refine base.adds_display.bind_fails (fun _ => ?_) fun _ => .bind
        fun _ => .throw _
      exact (d.adds_subject _).bind_throw
  · -- A base that is not found is a failure to load it.
    intro result lost
    suffices fails : Query.Fails (α := Option Ty) _ from
      fun _ _ _ answer => absurd answer (fails _ _ _)
    rcases result with cause | _ | base
    · exact .ite (.throw_bind _ _) (.bind fun _ => .throw _)
    · exact .bind fun _ => .throw _
    · exact absurd ⟨some base, rfl, rfl⟩ lost

theorem TypeDefinition.stays_baseType (d : TypeDefinition) :
    d.baseType.Stays := by
  refine .remember (d.stays_openBase.bind fun found => ?_)
  cases found with
  | none => exact .pure _
  | some base =>
    refine .ite (fun _ => d.stays_parameters.bind fun own => ?_)
      fun _ => .pure _
    exact (base.stays_substituted own []).bind fun _ => .pure _

theorem Ty.stays_base : (t : Ty) → t.base.Stays
  | .definition d => d.stays_baseType
  | .applied d arguments => by
    refine .remember (d.stays_openBase.bind fun found => ?_)
    cases found with
    | none => exact .pure _
    | some base =>
      exact (base.stays_substituted arguments []).bind fun _ => .pure _
  | .shaped shape _ => by
    refine .ite (fun _ => .pure _) fun _ => stays_requireTypeSystem.bind
      fun _ => ?_
    exact (stays_wellKnown .array).bind fun _ => .pure _
  | .parameter _ | .var .. => .pure _

theorem Ty.stays_hasBase (t : Ty) :
    t.hasBase.Stays := t.stays_base.bind fun _ => .pure _

theorem TypeDefinition.adds_baseState (d : TypeDefinition) :
    d.baseState.Adds := by
  refine (Lasts.established? _).bind_adds fun known => ?_
  rcases known with _ | _ | base
  exacts [.pure _, .pure _, .pure _]

/-! ### Along bases -/

section
variable {α : Type} {ask : Ty → Query (Option α)} (asks : ∀ t, (ask t).Stays)
include asks

theorem stays_alongBasesWithin (limit room : Nat) (t : Option Ty) :
    (alongBasesWithin ask limit room t).Stays := by
  induction room generalizing t with
  | zero =>
    cases t with
    | none => exact .pure none
    | some t => exact .throw _
  | succ room ih =>
    cases t with
    | none => exact .pure none
    | some t =>
      refine (asks t).bind fun answer => ?_
      cases answer with
      | some answer => exact .pure _
      | none => exact t.stays_base.bind ih

/-- What is found along bases stays. -/
theorem stays_alongBases (t : Ty) : (alongBases ask t).Stays :=
  .read_options_bind (fun _ => stays_alongBasesWithin asks _ _ _)
    fun _ _ options => by rw [options]

end

/-! ### Types of modules -/

section
variable (m : Module)

theorem Module.stays_typeOfRow (row : Nat) : (m.typeOfRow row).Stays :=
  (finds_type m _).bind_required (fun t => .pure t) (.throw _) (.throw _)

theorem Module.adds_typesFrom (row count : Nat) :
    (m.typesFrom row count).Adds := by
  induction count generalizing row with
  | zero => exact .pure _
  | succ count ih =>
    exact (m.stays_typeOfRow row).attempt.bind_adds
      fun _ => (ih (row + 1)).bind_adds fun _ => .pure _

theorem Module.adds_visitFrom (row count : Nat) :
    (m.visitFrom row count).Adds := by
  induction count generalizing row with
  | zero => exact .pure _
  | succ count ih =>
    exact (m.stays_typeOfRow row).attempt.bind_adds fun _ => ih (row + 1)

theorem Module.adds_typeAt? (count : Nat) : (m.typeAt? count).Adds := by
  refine (m.adds_visitFrom 1 _).bind_adds fun _ => .ite (fun _ => ?_)
    fun _ => .pure _
  exact (m.stays_typeOfRow _).attempt.bind_adds fun _ => .pure _

theorem Module.stays_loadFrom (row count : Nat) :
    (m.loadFrom row count).Stays := by
  induction count generalizing row with
  | zero => exact .pure _
  | succ count ih => exact (m.stays_typeOfRow row).bind fun _ => ih (row + 1)

theorem Module.stays_loadAll : m.loadAll.Stays :=
  (m.stays_loadFrom 1 _).bind fun _ => .pure _

/-! ### Members of modules -/

theorem Module.stays_declaredOwner (owner : Option Token)
    (ownerless : Malformation) :
    (m.declaredOwner owner ownerless).Stays := by
  cases owner with
  | none => exact .throw _
  | some token =>
    exact (finds_type m token).bind_required (fun t => .pure t)
      (.throw _) (.throw _)

/-- Whoever is told or found to be the owner of a method stays its owner. -/
theorem Module.stays_method (token : Token) (owner : Option Ty) :
    (m.method token owner).Stays := by
  rw [Module.method.eq_def]
  cases m.image.methodDef? token with
  | none => exact .throw _
  | some row =>
    refine Lasts.bind ?_ fun owner => .pure _
    refine .ownerOf ?_ (fun memory more t unmet precedes => ?_)
      (fun _ _ t precedes => ?_)
      fun _ _ => Std.HashMap.getElem?_insert_self
    · cases owner with
      | some owner => exact .pure owner
      | none => exact (m.stays_declaredOwner _ _).adding
    · exact { precedes with
        methodOwners := Memory.getElem?_insert_of_none unmet
          precedes.methodOwners t }
    · exact precedes.methodOwners _ t

/-- Whoever is told or found to be the owner of a field stays its owner. -/
theorem Module.stays_field (token : Token) (owner : Option Ty) :
    (m.field token owner).Stays := by
  rw [Module.field.eq_def]
  cases m.image.field? token with
  | none => exact .throw _
  | some row =>
    refine Lasts.bind ?_ fun owner => .pure _
    refine .ownerOf ?_ (fun memory more t unmet precedes => ?_)
      (fun _ _ t precedes => ?_)
      fun _ _ => Std.HashMap.getElem?_insert_self
    · cases owner with
      | some owner => exact .pure owner
      | none => exact (m.stays_declaredOwner _ _).adding
    · exact { precedes with
        fieldOwners := Memory.getElem?_insert_of_none unmet
          precedes.fieldOwners t }
    · exact precedes.fieldOwners _ t

end

/-! ### Enumerations -/

/-- An enumeration whose rows are looked at, and whose members are made, in the
same way again. -/
structure Members.Stay {μ : Type} (members : Members μ) : Prop where
  isWanted : ∀ token, (members.isWanted token).Stays
  member : ∀ token, (members.member token).Stays

namespace Members

variable {μ : Type} {members : Members μ}

theorem stay_empty :
    (empty : Members μ).Stay := ⟨fun _ => .pure false, fun _ => .throw _⟩

theorem Stay.adds_nextOf (h : members.Stay) (tokens : List Token) :
    (nextOf members.isWanted members.member tokens).Adds := by
  induction tokens with
  | nil => exact .pure _
  | cons token rest ih =>
    refine (h.isWanted token).attempt.bind_adds fun wanted => ?_
    rcases wanted with error | _ | _
    · exact .pure _
    · exact ih
    · exact (h.member token).attempt.bind_adds fun _ => .pure _

/-- A list of all members stays, unless errors stand in it. -/
theorem Stay.lasts_all (h : members.Stay) :
    members.all.Lasts fun items => ∀ item ∈ items, ∃ a, item = .ok a := by
  suffices rows : ∀ tokens, (allOf members.isWanted members.member tokens).Lasts
      fun items => ∀ item ∈ items, ∃ a, item = .ok a from rows _
  intro tokens
  induction tokens with
  | nil => exact .pure _
  | cons token rest ih =>
    -- An item is followed by the other items, and lasts together with them.
    have others (item : Except Error μ) : (do
        return item :: (← allOf members.isWanted members.member rest) :
          Query (List (Except Error μ))).Lasts fun items =>
            ∀ item ∈ items, ∃ a, item = .ok a := by
      refine ih.bind_of (fun _ _ _ _ => .pure _)
        fun items lost registry memory all answer => ?_
      cases answer
      exact fun ok => lost fun item hitem => ok item
        (List.mem_cons_of_mem _ hitem)
    have failed (error : Error) {registry : Registry} {memory : Memory}
        {items : List (Except Error μ)} (answer : ((do
          return .error error :: (← allOf members.isWanted
            members.member rest) :
            Query (List (Except Error μ))) registry memory).1 = .ok items) :
        ¬ ∀ item ∈ items, ∃ a, item = .ok a := by
      obtain ⟨_, _, _, answer⟩ := bind_eq_ok.mp answer
      cases answer
      intro ok
      obtain ⟨_, different⟩ := ok _ List.mem_cons_self
      cases different
    refine (h.isWanted token).attempt.bind_of (fun _ _ wanted _ => ?_) ?_
    · rcases wanted with error | _ | _
      · exact others (.error error)
      · exact ih
      · refine (h.member token).attempt.bind_of
          (fun _ _ item _ => others item) ?_
        rintro (error | a) lost registry memory items answer
        · exact failed error answer
        · exact absurd ⟨a, rfl, trivial⟩ lost
    · rintro (error | wanted) lost registry memory items answer
      · exact failed error answer
      · exact absurd ⟨wanted, rfl, trivial⟩ lost

/-- What a search finds stays, and so does that it finds nothing. -/
theorem Stay.stays_find (h : members.Stay) {test : μ → Query Bool}
    (tests : ∀ a, (test a).Stays) :
    (members.find test).Stays := by
  suffices rows : ∀ tokens,
      (findOf members.isWanted members.member test tokens).Stays from rows _
  intro tokens
  induction tokens with
  | nil => exact .pure _
  | cons token rest ih =>
    refine (h.isWanted token).bind fun wanted => .ite (fun _ => ?_) fun _ => ih
    refine (h.member token).bind fun found => (tests found).bind
      fun passes => ?_
    exact .ite (fun _ => .pure _) fun _ => ih

theorem Stay.adds_next (h : members.Stay) : members.next.Adds :=
  (h.adds_nextOf _).bind_adds fun _ => .pure _

/-- The enumeration that is left is over some rows of the same module. -/
theorem Stay.next (h : members.Stay) {registry : Registry} {memory : Memory}
    {item : Option (Except Error μ) × Members μ}
    (answer : (members.next registry memory).1 = .ok item) : item.2.Stay := by
  rw [Members.next] at answer
  rcases hrun : nextOf members.isWanted members.member members.tokens
    registry memory
    with ⟨error | found, memory'⟩
  · rw [bind_apply_error hrun] at answer
    cases answer
  · rw [bind_apply_ok hrun] at answer
    cases answer
    exact ⟨h.isWanted, h.member⟩

theorem Stay.adds_item? (h : members.Stay) (count : Nat) :
    (item? count members).Adds := by
  induction count generalizing members with
  | zero => exact h.adds_next.bind_adds fun _ => .pure _
  | succ count ih =>
    refine h.adds_next.bind_of (fun _ _ item answer => ?_) fun _ _ _ _ _ _ => id
    have left := h.next answer
    obtain ⟨_ | item, rest⟩ := item
    · exact .pure _
    · exact ih left

end Members

/-! ### Members of types -/

theorem MethodFilter.stays_accepts (filter : MethodFilter) (m : Module)
    (token : Token) :
    (filter.accepts m token).Stays := by
  rw [MethodFilter.accepts.eq_def]
  cases filter with
  | all => exact .pure _
  | virtual =>
    dsimp only
    cases m.image.methodDef? token with
    | some row => exact .pure _
    | none => exact .throw _
  | named name =>
    dsimp only
    cases m.image.methodDef? token with
    | some row => exact (Lasts.lift _).bind fun _ => .pure _
    | none => exact .throw _

theorem stays_acceptsField (name : Option String) (m : Module) (token : Token) :
    (acceptsField name m token).Stays := by
  rw [acceptsField.eq_def]
  cases name with
  | none => exact .pure _
  | some name =>
    dsimp only
    cases m.image.field? token with
    | some row => exact (Lasts.lift _).bind fun _ => .pure _
    | none => exact .throw _

theorem stays_memberMethod (m : Module) (d : TypeDefinition) (t : Ty)
    (token : Token) :
    (memberMethod m d t token).Stays := by
  refine (m.stays_method token _).bind fun method => .ite
    (fun _ => .pure _) fun _ => ?_
  exact stays_requireTypeSystem.bind fun _ => .pure _

theorem stays_memberField (m : Module) (d : TypeDefinition) (t : Ty)
    (token : Token) :
    (memberField m d t token).Stays := by
  refine (m.stays_field token _).bind fun field => .ite
    (fun _ => .pure _) fun _ => ?_
  exact stays_requireTypeSystem.bind fun _ => .pure _

theorem TypeDefinition.stays_row (d : TypeDefinition) (m : Module) :
    (d.row m).Stays := by
  rw [TypeDefinition.row]
  cases m.image.typeDef? d.token with
  | some row => exact .pure row
  | none => exact .throw _

namespace Ty

theorem stays_methods (t : Ty) (filter : MethodFilter) :
    (t.methods filter).Stays := by
  rw [Ty.methods.eq_def]
  cases t.definition? with
  | none => exact .pure _
  | some d =>
    exact (stays_reachModule _).bind fun m => (d.stays_row m).bind
      fun _ => .pure _

theorem stays_fields (t : Ty) (name : Option String) :
    (t.fields name).Stays := by
  rw [Ty.fields.eq_def]
  cases t.definition? with
  | none => exact .pure _
  | some d =>
    exact (stays_reachModule _).bind fun m => (d.stays_row m).bind
      fun _ => .pure _

section
variable {t : Ty} {registry : Registry} {memory : Memory}

/-- The methods of a type are enumerated in the same way again. -/
theorem stay_of_methods {filter : MethodFilter} {members : Members Method}
    (answer : (t.methods filter registry memory).1 = .ok members) :
    members.Stay := by
  rw [Ty.methods.eq_def] at answer
  cases definition : t.definition? with
  | none =>
    rw [definition] at answer
    cases answer
    exact Members.stay_empty
  | some d =>
    rw [definition] at answer
    obtain ⟨m, _, _, answer⟩ := bind_eq_ok.mp answer
    obtain ⟨row, _, _, answer⟩ := bind_eq_ok.mp answer
    cases answer
    exact ⟨filter.stays_accepts m, stays_memberMethod m d t⟩

/-- The fields of a type are enumerated in the same way again. -/
theorem stay_of_fields {name : Option String} {members : Members Field}
    (answer : (t.fields name registry memory).1 = .ok members) :
    members.Stay := by
  rw [Ty.fields.eq_def] at answer
  cases definition : t.definition? with
  | none =>
    rw [definition] at answer
    cases answer
    exact Members.stay_empty
  | some d =>
    rw [definition] at answer
    obtain ⟨m, _, _, answer⟩ := bind_eq_ok.mp answer
    obtain ⟨row, _, _, answer⟩ := bind_eq_ok.mp answer
    cases answer
    exact ⟨stays_acceptsField name m, stays_memberField m d t⟩

end

section
variable {α : Type} {P : α → Prop}

theorem lasts_methods_bind (t : Ty) (filter : MethodFilter)
    {next : Members Method → Query α}
    (h : ∀ members : Members Method, members.Stay → (next members).Lasts P) :
    (t.methods filter >>= next).Lasts P :=
  (t.stays_methods filter).bind_told fun _ _ members answer => h members
    (stay_of_methods answer)

theorem lasts_fields_bind (t : Ty) (name : Option String)
    {next : Members Field → Query α}
    (h : ∀ members : Members Field, members.Stay → (next members).Lasts P) :
    (t.fields name >>= next).Lasts P :=
  (t.stays_fields name).bind_told fun _ _ members answer => h members
    (stay_of_fields answer)

end

theorem stays_fieldNamed (t : Ty) (name : String) : (t.fieldNamed name).Stays :=
  t.lasts_fields_bind _ fun _ members => members.stays_find fun _ => .pure true

end Ty

end CliMetadata
