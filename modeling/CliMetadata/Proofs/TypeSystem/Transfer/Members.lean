import CliMetadata.Proofs.TypeSystem.Transfer.Building

/-!
# Bases and members from one type system to another

Bases transfer, and so does whatever is looked for along bases.  The members of
a type transfer if the type is a node of the later type system: its row then
lists members that it declares, and such members have the same owner however
they are met (`Module.transfers_method`).
-/

namespace CliMetadata

open Filter Query

variable {gap : Gap} {before after : Registry}

/-! ### Tokens of definitions -/

section
variable {m : Module} {token : Token}

/-- The null token leads nowhere. -/
@[simp]
theorem Module.type_of_isNull (hnull : token.isNull = true) :
    m.type token = (read >>= fun _ => pure none : Query (Option Ty)) := by
  rw [Module.type]
  simp only [Module.typeWithin_of_isNull hnull]

/-- What a token leads to is found in at least one step. -/
theorem Module.type_apply (m : Module) (token : Token) (registry : Registry)
    (memory : Memory) :
    ∃ room, m.type token registry memory
      = Module.typeWithin (room + 1) m token registry memory := by
  have positive : 0 < registry.referenceBound :=
    Nat.lt_of_lt_of_le (Nat.succ_pos _) (le_foldl (fun _ _ => by omega) _ _)
  obtain ⟨room, hroom⟩ := Nat.exists_eq_add_one_of_ne_zero positive.ne'
  refine ⟨room, ?_⟩
  rw [← hroom]
  rfl

/-- What a token leads to is remembered, or found now. -/
theorem Module.typeWithin_succ (hnull : ¬ token.isNull = true) (room : Nat) :
    Module.typeWithin (room + 1) m token
      = Query.rememberIf (.resolved m.name token) Option.isSome
      (m.typeWith (Module.typeWithin room) token) :=
  if_neg hnull

section
variable (isIn : token.isIn .typeDef) {room : Nat} {registry : Registry}
include isIn

/-- Where nothing is remembered, a token of a definition leads to the definition
of its row. -/
theorem Module.typeWithin_of_isIn (hnull : ¬ token.isNull = true) :
    (Module.typeWithin (room + 1) m token registry {}).1
      = (m.definition token).map fun d => some (.definition d) := by
  have leads := Module.typeWith_of_isIn (m := m) isIn
    (Module.typeWithin room) registry {}
  rw [Module.typeWithin_succ hnull]
  cases named : m.definition token with
  | error error =>
    rw [named] at leads
    rw [rememberIf_apply_error (by simp) (Prod.ext leads rfl)]
    rfl
  | ok d =>
    rw [named] at leads
    rw [rememberIf_apply_ok (by simp) (Prod.ext leads rfl)]
    rfl

/-- Where nothing is remembered, a token of a definition leads to the type that
it declares. -/
theorem Module.declares_of_typeWithin {t : Ty}
    (answer : (Module.typeWithin (room + 1) m token registry {}).1
      = .ok (some t)) :
    m.Declares token t := by
  by_cases hnull : token.isNull = true
  · rw [Module.typeWithin_of_isNull hnull] at answer
    cases answer
  · rw [Module.typeWithin_of_isIn isIn hnull, Module.definition] at answer
    cases hrow : m.image.typeDef? token with
    | none =>
      rw [hrow] at answer
      cases answer
    | some row =>
      rw [hrow] at answer
      cases answer
      exact ⟨row, hrow, rfl⟩

/-- The token of a definition leads to a type. -/
theorem Module.tells_typeWithin_of_isIn (hnull : ¬ token.isNull = true) :
    (Module.typeWithin (room + 1) m token).Tells gap before after
      fun found => found.isSome := by
  intro _ _ memory settled found answer
  rw [Module.typeWithin_succ hnull] at answer
  cases known : memory.facts.get? (.resolved m.name token) with
  | some value =>
    -- What is known was settled, and so it is allowed.
    rw [rememberIf_apply_some known] at answer
    obtain rfl := Except.ok.inj answer
    exact settled.allowed _ value known
  | none =>
    -- What is not known is the definition at the row.
    have leads := Module.typeWith_of_isIn (m := m) isIn
      (Module.typeWithin room) before memory
    cases named : m.definition token with
    | error error =>
      rw [named] at leads
      rw [rememberIf_apply_error known (Prod.ext leads rfl)] at answer
      cases answer
    | ok d =>
      rw [named] at leads
      rw [rememberIf_apply_ok known (Prod.ext leads rfl)] at answer
      obtain rfl := Except.ok.inj answer
      rfl

/-- The token of a definition leads to the type that it declares. -/
theorem Module.tells_typeWithin_declares (hm : m ∈ after.modules) :
    (Module.typeWithin (room + 1) m token).Tells gap before after
      fun found => ∀ t ∈ found, m.Declares token t := by
  by_cases hnull : token.isNull = true
  · rw [Module.typeWithin_of_isNull hnull]
    exact .pure nofun
  have lasts : (Module.typeWithin (room + 1) m token).Transfers gap before
      after always
      fun l => Module.typeWithin (l + 1) m token :=
    (transfers_typeWithin (room + 1) (tendsto_add_atTop_nat 1) m hm
      token).always_of_tells (Module.tells_typeWithin_of_isIn isIn hnull)
  refine (lasts.tells_of_apply fun l found answer => ?_).imp
    fun _ declares => declares trivial
  rintro t rfl
  exact Module.declares_of_typeWithin isIn answer

/-- Where nothing is remembered, a token of a definition leads to the definition
of its row. -/
theorem Module.type_of_isIn (hnull : ¬ token.isNull = true) :
    (m.type token registry {}).1 = (m.definition token).map fun d =>
      some (.definition d) := by
  obtain ⟨room, run⟩ := m.type_apply token registry {}
  rw [run, Module.typeWithin_of_isIn isIn hnull]

/-- Where nothing is remembered, a token of a definition leads to the type that
it declares. -/
theorem Module.declares_of_type {t : Ty}
    (answer : (m.type token registry {}).1 = .ok (some t)) :
    m.Declares token t := by
  obtain ⟨room, run⟩ := m.type_apply token registry {}
  rw [run] at answer
  exact Module.declares_of_typeWithin isIn answer

/-- The token of a definition leads to a type. -/
theorem Module.tells_type_of_isIn (hnull : ¬ token.isNull = true) :
    (m.type token).Tells gap before after fun found => found.isSome := by
  intro leads sound memory settled found answer
  obtain ⟨room, run⟩ := m.type_apply token before memory
  rw [run] at answer
  exact Module.tells_typeWithin_of_isIn isIn hnull leads sound memory settled
    found answer

/-- The token of a definition leads to the type that it declares. -/
theorem Module.tells_type_declares (hm : m ∈ after.modules) :
    (m.type token).Tells gap before after fun found =>
      ∀ t ∈ found, m.Declares token t := by
  intro leads sound memory settled found answer
  obtain ⟨room, run⟩ := m.type_apply token before memory
  rw [run] at answer
  exact Module.tells_typeWithin_declares isIn hm leads sound memory settled
    found answer

end

/-- Where the token of a definition leads lasts. -/
theorem Module.transfers_type_of_isIn (hm : m ∈ after.modules)
    (isIn : token.isIn .typeDef) :
    (m.type token).Transfers gap before after always fun _ => m.type token := by
  by_cases hnull : token.isNull = true
  · rw [Module.type_of_isNull hnull]
    exact .read_bind (fun _ => rfl) fun _ => .pure none
  · exact (transfers_type m hm token).always_of_tells
      (Module.tells_type_of_isIn isIn hnull)

end

/-! ### Base types -/

theorem TypeDefinition.transfers_subject (d : TypeDefinition)
    (moduleName : String) :
    (d.subject moduleName).Transfers gap before after never
      fun _ => d.subject moduleName := by
  refine d.transfers_namespaceText.attempt.bind_never fun _ => ?_
  exact d.transfers_simpleName.attempt.bind_never fun _ => .pure _

theorem Ty.transfers_subject (t : Ty) :
    t.subject.Transfers gap before after never fun _ => t.subject := by
  refine t.transfers_module?.attempt.bind_never fun _ => ?_
  refine t.transfers_namespaceText.attempt.bind_never fun _ => ?_
  exact t.transfers_simpleName.attempt.bind_never fun _ => .pure _

theorem TypeDefinition.transfers_openBase (d : TypeDefinition) :
    d.openBase.Transfers gap before after always fun _ => d.openBase := by
  refine .ite (fun _ => .pure _) fun _ => transfers_reachModule_bind
    fun m hm _ => ?_
  refine (transfers_type m hm d.base).attempt.bind_of .trivial
    (fun result _ => ?_) ?_
  · rcases result with cause | _ | base
    · refine .ite (fun _ => .throw_bind _) fun _ => ?_
      exact (d.transfers_subject _).bind_throw
    · exact (d.transfers_subject _).bind_throw
    · refine .ite (fun _ => .pure _) fun _ => ?_
      refine base.transfers_display.bind_fails (fun _ => ?_) fun _ => .bind
        fun _ => .throw _
      exact (d.transfers_subject _).bind_throw
  · -- A base that is not found is a failure to load it.
    intro result _ lost
    suffices fails : Query.Fails (α := Option Ty) _ from
      fun _ _ _ answer => absurd answer (fails _ _ _)
    rcases result with cause | _ | base
    · exact .ite (.throw_bind _ _) (.bind fun _ => .throw _)
    · exact .bind fun _ => .throw _
    · exact absurd ⟨_, rfl, fun _ => rfl⟩ lost

theorem TypeDefinition.transfers_baseType (d : TypeDefinition) :
    d.baseType.Transfers gap before after always fun _ => d.baseType := by
  refine Transfers.remember (fun _ => rfl) trivial (fun _ => trivial) ?_
  refine d.transfers_openBase.bind fun found => ?_
  cases found with
  | none => exact .pure _
  | some base =>
    refine .ite (fun _ => d.transfers_parameters.bind fun own => ?_)
      fun _ => .pure _
    exact (base.transfers_substituted own []).bind fun _ => .pure _

theorem Ty.transfers_base :
    (t : Ty) → t.base.Transfers gap before after always fun _ => t.base
  | .definition d => d.transfers_baseType
  | .applied d arguments => by
    refine Transfers.remember (fun _ => rfl) trivial (fun _ => trivial) ?_
    refine d.transfers_openBase.bind fun found => ?_
    cases found with
    | none => exact .pure _
    | some base =>
      exact (base.transfers_substituted arguments []).bind fun _ => .pure _
  | .shaped shape _ => by
    refine .ite (fun _ => .pure _) fun _ => transfers_requireTypeSystem.bind
      fun _ => ?_
    exact (transfers_wellKnown .array).bind fun _ => .pure _
  | .parameter _ | .var .. => .pure _

theorem Ty.transfers_hasBase (t : Ty) :
    t.hasBase.Transfers gap before after always fun _ => t.hasBase :=
  t.transfers_base.bind fun _ => .pure _

/-- The base of a node is a node. -/
theorem Ty.tells_base {t : Ty} (ht : t.IsNode after.modules fun _ => True) :
    t.base.Tells gap before after fun base => AreNodes after.modules
      (fun _ => True) base.toList :=
  (t.transfers_base.tells_nodes fun _ => Ty.gives_base ht).imp
    fun _ nodes => nodes trivial

/-! ### Along bases -/

section
variable {α : Type} {ask : Ty → Query (Option α)}
  (asks : ∀ t, t.IsNode after.modules (fun _ => True) →
    (ask t).Transfers gap before after always fun _ => ask t)
include asks

theorem transfers_alongBasesWithin (limit room : Nat) (t : Option Ty)
    (ht : AreNodes after.modules (fun _ => True) t.toList) :
    (alongBasesWithin ask limit room t).Transfers gap before after always
      fun _ => alongBasesWithin ask limit room t := by
  induction room generalizing t with
  | zero =>
    cases t with
    | none => exact .pure none
    | some t => exact .throw _
  | succ room ih =>
    cases t with
    | none => exact .pure none
    | some t =>
      refine (asks t ht.head).bind fun answer => ?_
      cases answer with
      | some answer => exact .pure _
      | none => exact t.transfers_base.bind_told (Ty.tells_base ht.head) ih

/-- What is found along the bases of a node lasts. -/
theorem transfers_alongBases {t : Ty}
    (ht : t.IsNode after.modules fun _ => True) :
    (alongBases ask t).Transfers gap before after always
      fun _ => alongBases ask t := by
  refine .of_leads fun leads _ => .read_bind (fun _ => rfl) fun _ => ?_
  rw [leads.options]
  exact transfers_alongBasesWithin asks _ _ _ (.singleton ht)

end

/-! ### Types of modules -/

section
variable {m : Module} (hm : m ∈ after.modules)
include hm

theorem Module.transfers_typeOfRow (row : Nat) :
    (m.typeOfRow row).Transfers gap before after always
      fun _ => m.typeOfRow row :=
  (transfers_type m hm _).bind_required (fun t => .pure t) (.throw _) (.throw _)

theorem Module.transfers_typesFrom (row count : Nat) :
    (m.typesFrom row count).Transfers gap before after never
      fun _ => m.typesFrom row count := by
  induction count generalizing row with
  | zero => exact .pure _
  | succ count ih =>
    refine (Module.transfers_typeOfRow hm row).attempt.bind_never fun _ => ?_
    exact (ih (row + 1)).bind_never fun _ => .pure _

theorem Module.transfers_visitFrom (row count : Nat) :
    (m.visitFrom row count).Transfers gap before after never
      fun _ => m.visitFrom row count := by
  induction count generalizing row with
  | zero => exact .pure _
  | succ count ih =>
    exact (Module.transfers_typeOfRow hm row).attempt.bind_never
      fun _ => ih (row + 1)

theorem Module.transfers_typeAt? (count : Nat) :
    (m.typeAt? count).Transfers gap before after never
      fun _ => m.typeAt? count := by
  refine (Module.transfers_visitFrom hm 1 _).bind_never fun _ => ?_
  refine .ite (fun _ => ?_) fun _ => .pure _
  exact (Module.transfers_typeOfRow hm _).attempt.bind_never fun _ => .pure _

theorem Module.transfers_loadFrom (row count : Nat) :
    (m.loadFrom row count).Transfers gap before after always
      fun _ => m.loadFrom row count := by
  induction count generalizing row with
  | zero => exact .pure _
  | succ count ih =>
    exact (Module.transfers_typeOfRow hm row).bind fun _ => ih (row + 1)

theorem Module.transfers_loadAll :
    m.loadAll.Transfers gap before after always fun _ => m.loadAll :=
  (Module.transfers_loadFrom hm 1 _).bind fun _ => .pure _

/-! ### Owners of members -/

theorem Module.transfers_declaredOwner (owner : Option Token)
    (ownerless : Malformation) :
    (m.declaredOwner owner ownerless).Transfers gap before after always
      fun _ => m.declaredOwner owner ownerless := by
  cases owner with
  | none => exact .throw _
  | some token =>
    exact (transfers_type m hm token).bind_required (fun t => .pure t)
      (.throw _) (.throw _)

end

section
variable {m : Module} {ownerOf : Image → Token → Option Token} {token : Token}

/-- The owner that a module finds for a member declares it. -/
theorem Module.declares_of_declaredOwner {registry : Registry}
    (hm : m ∈ registry.modules)
    (areTypes : ∀ owner, ownerOf m.image token = some owner →
      owner.isIn .typeDef)
    {ownerless : Malformation} {t : Ty}
    (found : (m.declaredOwner (ownerOf m.image token) ownerless registry {}).1
      = .ok t) :
    registry.Declares ownerOf ⟨m.name, token⟩ t := by
  cases howner : ownerOf m.image token with
  | none =>
    rw [howner] at found
    cases found
  | some owner =>
    rw [howner] at found
    -- What is found by the token of a definition is what it declares.
    obtain ⟨_ | u, memory, leads, answer⟩ := bind_eq_ok.mp found
    · cases answer
    · obtain rfl : u = t := Except.ok.inj answer
      have answered : (m.type owner registry {}).1 = .ok (some u) := by
        rw [leads]
      have declared := Module.declares_of_type (areTypes owner howner) answered
      exact ⟨m, hm, rfl, owner, howner, declared⟩

/-- A module finds the type that declares a member. -/
theorem Module.declaredOwner_of_declares {registry : Registry}
    (proper : registry.IsProper) (hm : m ∈ registry.modules)
    {ownerless : Malformation} {t : Ty}
    (h : registry.Declares ownerOf ⟨m.name, token⟩ t) :
    (m.declaredOwner (ownerOf m.image token) ownerless registry {}).1
      = .ok t := by
  obtain ⟨n, hn, named, owner, howner, row, hrow, rfl⟩ := h
  obtain rfl := proper.eq_of_name_eq hn hm named
  obtain ⟨isIn, hnull⟩ := (proper.rows n hn).isTypeDef hrow
  have leads : (n.type owner registry {}).1 = _ :=
    Module.type_of_isIn isIn hnull
  rw [Module.definition, hrow] at leads
  rw [howner]
  exact bind_eq_ok.mpr ⟨_, _, Prod.ext leads rfl, rfl⟩

/-- A member that is met with its declaring type, or without a type, has the
same owner in the end. -/
theorem Module.transfers_ownerOf (hm : m ∈ after.modules)
    (areTypes : ∀ owner, ownerOf m.image token = some owner →
      owner.isIn .typeDef)
    {known : Memory → Option Ty} {remember : Ty → Memory → Memory}
    (told : ∀ memory : Memory, memory.IsTrue after → ∀ t,
      known memory = some t →
      after.Declares ownerOf ⟨m.name, token⟩ t)
    (settles : ∀ (memory : Memory) t, memory.IsSettled after →
      after.Declares ownerOf ⟨m.name, token⟩ t →
      (remember t memory).IsSettled after)
    (keeps : ∀ (memory : Memory) t, memory.IsTrue after →
      after.Declares ownerOf ⟨m.name, token⟩ t →
      (remember t memory).IsTrue after)
    (owner : Option Ty) (declares : ∀ t ∈ owner,
      after.Declares ownerOf ⟨m.name, token⟩ t)
    (ownerless : Malformation) {query : Query Ty}
    (asks : query = match owner with
      | some owner => pure owner
      | none => m.declaredOwner (ownerOf m.image token) ownerless) :
    (CliMetadata.ownerOf known remember query).Transfers gap before after always
      fun _ => CliMetadata.ownerOf known remember query := by
  refine .of_leads fun leads sound => ?_
  have unique {t u : Ty} (ht : after.Declares ownerOf ⟨m.name, token⟩ t)
      (hu : after.Declares ownerOf ⟨m.name, token⟩ u) : t = u :=
    sound.proper.eq_of_declares ht hu
  cases owner with
  | some u =>
    subst asks
    have hu := declares u rfl
    refine .ownerOf (fun _ _ => unique) told settles keeps (.pure u) (.pure hu)
      fun t ht => ?_
    rw [unique ht hu]
    exact .of_forall fun _ _ true => ⟨rfl, true⟩
  | none =>
    subst asks
    have found {gap : Gap} {before : Registry} :
        (m.declaredOwner (ownerOf m.image token) ownerless).Transfers gap before
          after always
          fun _ => m.declaredOwner (ownerOf m.image token) ownerless :=
      Module.transfers_declaredOwner hm _ _
    -- The type that lists the member is found again, and it declares it.
    refine .ownerOf (fun _ _ => unique) told settles keeps found ?_
      fun t ht => ?_
    · refine (found.tells_of_apply fun l t answer => ?_).imp
        fun _ declares => declares trivial
      have hm : m ∈ (after.withPatience l).modules := hm
      exact Module.declares_of_declaredOwner hm areTypes answer
    · have hm : m ∈ (after.withPatience 0).modules := hm
      have proper : (after.withPatience 0).IsProper :=
        ⟨sound.proper.rows, sound.proper.names⟩
      have leads := Registry.leadsTo_of_withPatience sound.live 0
      refine found.reaches_of_apply leads sound ?_ (.inl rfl)
      exact Module.declaredOwner_of_declares proper hm ht

end

section
variable {m : Module} (hm : m ∈ after.modules) (token : Token)
  (owner : Option Ty)
include hm

theorem Module.transfers_method
    (declares : ∀ t ∈ owner, after.DeclaresMethod ⟨m.name, token⟩ t) :
    (m.method token owner).Transfers gap before after always
      fun _ => m.method token owner := by
  rw [Module.method.eq_def]
  cases m.image.methodDef? token with
  | none => exact .throw _
  | some row =>
    refine .of_leads fun _ sound => .bind ?_ fun owner => .pure _
    refine Module.transfers_ownerOf hm
      (fun _ => (sound.proper.rows m hm).methodOwner)
      (fun memory true => ?_) (fun memory t settled ht => ?_)
      (fun memory t true ht => ?_)
      owner declares (.ownerlessMethod token) (by cases owner <;> rfl)
    · -- An owner that is known is declared.
      exact true.methodOwners _
    · -- Noting a declared owner keeps a memory settled.
      exact { settled with
        methodOwners := Memory.owners_insert settled.methodOwners ht }
    · -- And it keeps a memory true.
      exact { true with
        methodOwners := Memory.owners_insert true.methodOwners ht }

theorem Module.transfers_field
    (declares : ∀ t ∈ owner, after.DeclaresField ⟨m.name, token⟩ t) :
    (m.field token owner).Transfers gap before after always
      fun _ => m.field token owner := by
  rw [Module.field.eq_def]
  cases m.image.field? token with
  | none => exact .throw _
  | some row =>
    refine .of_leads fun _ sound => .bind ?_ fun owner => .pure _
    refine Module.transfers_ownerOf hm
      (fun _ => (sound.proper.rows m hm).fieldOwner)
      (fun memory true => ?_) (fun memory t settled ht => ?_)
      (fun memory t true ht => ?_)
      owner declares (.ownerlessField token) (by cases owner <;> rfl)
    · -- An owner that is known is declared.
      exact true.fieldOwners _
    · -- Noting a declared owner keeps a memory settled.
      exact { settled with
        fieldOwners := Memory.owners_insert settled.fieldOwners ht }
    · -- And it keeps a memory true.
      exact { true with
        fieldOwners := Memory.owners_insert true.fieldOwners ht }

end

section
variable {m : Module} (hm : m ∈ after.modules) (token : Token)
include hm

/-- A method that is asked for without an owner is given the one that declares
it. -/
theorem Module.transfers_declaredMethod :
    (m.method token none).Transfers gap before after always
    fun _ => m.method token none :=
  Module.transfers_method hm token none fun t ht => absurd ht
    (Option.not_mem_none t)

theorem Module.transfers_declaredField :
    (m.field token none).Transfers gap before after always
    fun _ => m.field token none :=
  Module.transfers_field hm token none fun t ht => absurd ht
    (Option.not_mem_none t)

end

/-! ### Enumerations -/

/-- An enumeration whose rows are looked at, and whose members are made, in the
same way again. -/
structure Members.Transfers {μ : Type} (gap : Gap) (before after : Registry)
    (members : Members μ) : Prop where
  isWanted : ∀ token, (members.isWanted token).Transfers gap before after always
    fun _ => members.isWanted token
  member : ∀ token ∈ members.tokens,
    (members.member token).Transfers gap before after always
    fun _ => members.member token

namespace Members

variable {μ : Type} {members : Members μ}

theorem transfers_empty : (empty : Members μ).Transfers gap before after :=
  ⟨fun _ => .pure false, fun _ => nofun⟩

/-- Some of the rows can be left out. -/
theorem Transfers.sublist (h : members.Transfers gap before after)
    {tokens : List Token} (fewer : tokens ⊆ members.tokens) :
    ({ members with tokens } : Members μ).Transfers gap before after :=
  ⟨h.isWanted, fun token htoken => h.member token (fewer htoken)⟩

theorem transfers_nextOf (h : members.Transfers gap before after)
    (tokens : List Token) (among : tokens ⊆ members.tokens) :
    (nextOf members.isWanted members.member tokens).Transfers gap
      before after never
      fun _ => nextOf members.isWanted members.member tokens := by
  induction tokens with
  | nil => exact .pure _
  | cons token rest ih =>
    obtain ⟨htoken, hrest⟩ := List.cons_subset.mp among
    refine (h.isWanted token).attempt.bind_never fun wanted => ?_
    rcases wanted with error | _ | _
    · exact .pure _
    · exact ih hrest
    · exact (h.member token htoken).attempt.bind_never fun _ => .pure _

/-- The rows that are left are some of the rows. -/
theorem tells_nextOf (h : members.Transfers gap before after)
    (tokens : List Token) (among : tokens ⊆ members.tokens) :
    (nextOf members.isWanted members.member tokens).Tells gap before after
      fun item => item.2 ⊆ tokens := by
  induction tokens with
  | nil => exact .pure (List.Subset.refl _)
  | cons token rest ih =>
    obtain ⟨htoken, hrest⟩ := List.cons_subset.mp among
    have fewer : rest ⊆ token :: rest := List.subset_cons_self _ _
    refine (h.isWanted token).attempt.tells_bind .trivial fun wanted _ => ?_
    rcases wanted with error | _ | _
    · exact .pure fewer
    · exact Tells.imp (ih hrest) fun _ left => List.Subset.trans left fewer
    · exact (h.member token htoken).attempt.tells_bind .trivial
        fun _ _ => .pure fewer

theorem transfers_next (h : members.Transfers gap before after) :
    members.next.Transfers gap before after never fun _ => members.next :=
  (transfers_nextOf h _ (List.Subset.refl _)).bind_never fun _ => .pure _

theorem tells_next (h : members.Transfers gap before after) :
    members.next.Tells gap before after fun item =>
      item.2.Transfers gap before after :=
  (transfers_nextOf h _ (List.Subset.refl _)).tells_bind
    (tells_nextOf h _ (List.Subset.refl _))
    fun _ fewer => .pure (h.sublist fewer)

theorem transfers_all (h : members.Transfers gap before after) :
    members.all.Transfers gap before after never fun _ => members.all := by
  suffices rows : ∀ tokens, tokens ⊆ members.tokens →
      (allOf members.isWanted members.member tokens).Transfers gap
        before after never
        fun _ => allOf members.isWanted members.member tokens from
    rows members.tokens (List.Subset.refl _)
  intro tokens among
  -- The induction is on the rows that are left.
  induction tokens with
  | nil => exact .pure _
  | cons token rest ih =>
    obtain ⟨htoken, hrest⟩ := List.cons_subset.mp among
    refine (h.isWanted token).attempt.bind_never fun wanted => ?_
    rcases wanted with error | _ | _
    · -- The filter fails, which is an item of its own.
      exact (ih hrest).bind_never fun _ => .pure _
    · -- The row is not wanted.
      exact ih hrest
    · -- The row is wanted, and a member is made of it.
      refine (h.member token htoken).attempt.bind_never fun _ => ?_
      exact (ih hrest).bind_never fun _ => .pure _

theorem transfers_find (h : members.Transfers gap before after)
    {test : μ → Query Bool}
    (tests : ∀ a, (test a).Transfers gap before after always fun _ => test a) :
    (members.find test).Transfers gap before after always
      fun _ => members.find test := by
  suffices rows : ∀ tokens, tokens ⊆ members.tokens →
      (findOf members.isWanted members.member test tokens).Transfers gap before
        after always
        fun _ => findOf members.isWanted members.member test tokens from
    rows members.tokens (List.Subset.refl _)
  intro tokens among
  induction tokens with
  | nil => exact .pure _
  | cons token rest ih =>
    obtain ⟨htoken, hrest⟩ := List.cons_subset.mp among
    -- Whether the row is wanted.
    refine (h.isWanted token).bind fun wanted => .ite (fun _ => ?_)
      fun _ => ih hrest
    -- Whether its member passes the test.
    refine (h.member token htoken).bind fun found => (tests found).bind
      fun passes => ?_
    exact .ite (fun _ => .pure _) fun _ => ih hrest

theorem transfers_item? (count : Nat) (h : members.Transfers gap before after) :
    (item? count members).Transfers gap before after never
      fun _ => item? count members := by
  induction count generalizing members with
  | zero => exact (transfers_next h).bind_never fun _ => .pure _
  | succ count ih =>
    refine (transfers_next h).bind_of (tells_next h) (fun item left => ?_)
      fun _ _ _ _ _ _ _ => id
    obtain ⟨_ | item, rest⟩ := item
    · exact .pure _
    · exact ih left

end Members

/-! ### Members of types -/

theorem MethodFilter.transfers_accepts (filter : MethodFilter) (m : Module)
    (token : Token) :
    (filter.accepts m token).Transfers gap before after always
      fun _ => filter.accepts m token := by
  rw [MethodFilter.accepts.eq_def]
  cases filter with
  | all => exact .pure _
  | virtual =>
    dsimp only
    cases m.image.methodDef? token with
    | some row => exact .pure _
    | none => exact .throw _
  | named name =>
    dsimp only
    cases m.image.methodDef? token with
    | some row => exact (Transfers.lift _).bind fun _ => .pure _
    | none => exact .throw _

theorem transfers_acceptsField (name : Option String) (m : Module)
    (token : Token) :
    (acceptsField name m token).Transfers gap before after always
      fun _ => acceptsField name m token := by
  rw [acceptsField.eq_def]
  cases name with
  | none => exact .pure _
  | some name =>
    dsimp only
    cases m.image.field? token with
    | some row => exact (Transfers.lift _).bind fun _ => .pure _
    | none => exact .throw _

section
variable {m : Module} {d : TypeDefinition} {t : Ty} {token : Token}

theorem transfers_memberMethod (hm : m ∈ after.modules)
    (declares : after.DeclaresMethod ⟨m.name, token⟩ (.definition d)) :
    (memberMethod m d t token).Transfers gap before after always
      fun _ => memberMethod m d t token := by
  have owned : ∀ u ∈ some (Ty.definition d),
      after.DeclaresMethod ⟨m.name, token⟩ u := by
    rintro _ ⟨⟩
    exact declares
  refine (Module.transfers_method hm token _ owned).bind fun method => ?_
  exact .ite (fun _ => .pure _) fun _ => transfers_requireTypeSystem.bind
    fun _ => .pure _

theorem transfers_memberField (hm : m ∈ after.modules)
    (declares : after.DeclaresField ⟨m.name, token⟩ (.definition d)) :
    (memberField m d t token).Transfers gap before after always
      fun _ => memberField m d t token := by
  have owned : ∀ u ∈ some (Ty.definition d),
      after.DeclaresField ⟨m.name, token⟩ u := by
    rintro _ ⟨⟩
    exact declares
  refine (Module.transfers_field hm token _ owned).bind fun field => ?_
  exact .ite (fun _ => .pure _) fun _ => transfers_requireTypeSystem.bind
    fun _ => .pure _

/-- The definition behind a node is what its row says. -/
theorem Ty.IsNode.declares (ht : t.IsNode after.modules fun _ => True)
    (proper : after.IsProper) (hd : t.definition? = some d)
    (hm : m ∈ after.modules) (named : m.name = d.module) {row : TypeDefRow}
    (hrow : m.image.typeDef? d.token = some row) :
    m.Declares d.token (.definition d) := by
  cases ht.of_definition? hd with
  | definition declared _ =>
    obtain ⟨n, hn, row', hrow', rfl⟩ := declared
    obtain rfl := proper.eq_of_name_eq hm hn named
    exact ⟨row', hrow', rfl⟩

theorem TypeDefinition.transfers_row (d : TypeDefinition) (m : Module) :
    (d.row m).Transfers gap before after always fun _ => d.row m := by
  rw [TypeDefinition.row.eq_def]
  cases m.image.typeDef? d.token with
  | some row => exact .pure row
  | none => exact .throw _

theorem TypeDefinition.tells_row (d : TypeDefinition) (m : Module) :
    (d.row m).Tells gap before after fun row =>
      m.image.typeDef? d.token = some row := by
  intro _ _ memory _ row answer
  rw [TypeDefinition.row.eq_def] at answer
  cases hrow : m.image.typeDef? d.token with
  | some row' =>
    rw [hrow] at answer
    obtain rfl := Except.ok.inj answer
    rfl
  | none =>
    rw [hrow] at answer
    cases answer

theorem Ty.transfers_methods (t : Ty) (filter : MethodFilter) :
    (t.methods filter).Transfers gap before after always
      fun _ => t.methods filter := by
  rw [Ty.methods.eq_def]
  cases t.definition? with
  | none => exact .pure _
  | some d =>
    exact transfers_reachModule_bind fun m _ _ => (d.transfers_row m).bind
      fun _ => .pure _

theorem Ty.transfers_fields (t : Ty) (name : Option String) :
    (t.fields name).Transfers gap before after always
      fun _ => t.fields name := by
  rw [Ty.fields.eq_def]
  cases t.definition? with
  | none => exact .pure _
  | some d =>
    exact transfers_reachModule_bind fun m _ _ => (d.transfers_row m).bind
      fun _ => .pure _

section
variable (owns : after.OwnsMembers)
include owns

/-- The rows of the methods that a node lists are those of methods that its
definition declares. -/
theorem Ty.tells_methods_of (ht : t.IsNode after.modules fun _ => True)
    (filter : MethodFilter) {P : Members Method → Prop} (empty : P .empty)
    (listed : ∀ m ∈ after.modules, ∀ d tokens,
      (∀ token ∈ tokens, after.DeclaresMethod ⟨m.name, token⟩ (.definition d)) →
      P
        { tokens, isWanted := filter.accepts m, member := memberMethod m d t }) :
    (t.methods filter).Tells gap before after P := by
  rw [Ty.methods.eq_def]
  cases hd : t.definition? with
  | none => exact .pure empty
  | some d =>
    refine (transfers_reachModule _).tells_bind (tells_reachModule _)
      fun m hm => ?_
    refine (d.transfers_row m).tells_bind (d.tells_row m)
      fun row hrow leads sound => ?_
    -- The rows that are listed belong to the definition.
    have declared := ht.declares sound.proper hd hm.1 hm.2 hrow
    have owned := (owns m hm.1).methods hrow
    refine Tells.pure (listed m hm.1 d row.methods fun token htoken => ?_) leads
      sound
    exact ⟨m, hm.1, rfl, d.token, owned token htoken, declared⟩

/-- The rows of the fields that a node lists are those of fields that its
definition declares. -/
theorem Ty.tells_fields_of (ht : t.IsNode after.modules fun _ => True)
    (name : Option String) {P : Members Field → Prop} (empty : P .empty)
    (listed : ∀ m ∈ after.modules, ∀ d tokens,
      (∀ token ∈ tokens, after.DeclaresField ⟨m.name, token⟩ (.definition d)) →
      P
        { tokens, isWanted := acceptsField name m, member := memberField m d t }) :
    (t.fields name).Tells gap before after P := by
  rw [Ty.fields.eq_def]
  cases hd : t.definition? with
  | none => exact .pure empty
  | some d =>
    refine (transfers_reachModule _).tells_bind (tells_reachModule _)
      fun m hm => ?_
    refine (d.transfers_row m).tells_bind (d.tells_row m)
      fun row hrow leads sound => ?_
    -- The rows that are listed belong to the definition.
    have declared := ht.declares sound.proper hd hm.1 hm.2 hrow
    have owned := (owns m hm.1).fields hrow
    refine Tells.pure (listed m hm.1 d row.fields fun token htoken => ?_) leads
      sound
    exact ⟨m, hm.1, rfl, d.token, owned token htoken, declared⟩

/-- The methods that a node lists are its own. -/
theorem Ty.tells_methods (ht : t.IsNode after.modules fun _ => True)
    (filter : MethodFilter) :
    (t.methods filter).Tells gap before after
      fun members => members.Transfers gap before after := by
  refine Ty.tells_methods_of owns ht filter Members.transfers_empty
    fun m hm d tokens declared => ?_
  exact ⟨fun token => filter.transfers_accepts m token,
    fun token htoken => transfers_memberMethod hm (declared token htoken)⟩

/-- The fields that a node lists are its own. -/
theorem Ty.tells_fields (ht : t.IsNode after.modules fun _ => True)
    (name : Option String) :
    (t.fields name).Tells gap before after fun members =>
      members.Transfers gap before after := by
  refine Ty.tells_fields_of owns ht name Members.transfers_empty
    fun m hm d tokens declared => ?_
  exact ⟨fun token => transfers_acceptsField name m token,
    fun token htoken => transfers_memberField hm (declared token htoken)⟩

theorem Ty.transfers_fieldNamed (ht : t.IsNode after.modules fun _ => True)
    (name : String) :
    (t.fieldNamed name).Transfers gap before after always
      fun _ => t.fieldNamed name :=
  (t.transfers_fields _).bind_told (Ty.tells_fields owns ht _) fun _ members =>
    Members.transfers_find members fun _ => .pure true

end

end

end CliMetadata
