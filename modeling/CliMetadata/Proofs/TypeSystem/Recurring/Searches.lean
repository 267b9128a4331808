import CliMetadata.Proofs.TypeSystem.Calls
import CliMetadata.Proofs.TypeSystem.Recurring.Questions

/-!
# Searches along bases, whatever was asked before

A member belongs to whom it was first met with, right or wrong, and a search
along the bases of a type meets members itself.  So what is found belongs to
whom it was met with before the search, or else to the first type of the chain
that lists it (`MemberSearch.Owns`).

On the way no member has another owner, and those that were passed have been
met, as far as they have the name that is looked for (`MemberSearch.HasPassed`).
This holds at first, and after each type in which nothing was found, so that the
nearest answer is found (`MemberSearch.runsTo_alongBases`).
-/

namespace CliMetadata

open Filter Query

/-! ### Members and their owners -/

/-- Methods or fields, as what rows of types list. -/
inductive MemberKind where
  | method
  | field

namespace MemberKind

/-- The owners that are remembered. -/
def owners : MemberKind → Memory → Std.HashMap RowKey Ty
  | method, memory => memory.methodOwners
  | field, memory => memory.fieldOwners

/-- The memory after a member was met with an owner. -/
def meet : MemberKind → Memory → RowKey → Ty → Memory
  | method, memory, key, owner => memory.meet key owner
  | field, memory, key, owner =>
    { memory with fieldOwners := memory.fieldOwners.insert key owner }

/-- The members that the row of a type lists. -/
def listed : MemberKind → TypeDefRow → List Token
  | method, row => row.methods
  | field, row => row.fields

/-- What the row of a member calls it. -/
def name? : MemberKind → Module → Token → Option (Except Error String)
  | method, m, token =>
    (m.image.methodDef? token).map fun row => m.image.string row.name
  | field, m, token =>
    (m.image.field? token).map fun row => m.image.string row.name

variable (kind : MemberKind) {memory after : Memory} {key other : RowKey}
  {owner t : Ty}

@[simp]
theorem owners_meet : kind.owners (kind.meet memory key owner)
    = (kind.owners memory).insert key owner := by
  cases kind <;> rfl

theorem owners_of_precedes (h : memory.Precedes after)
    (met : (kind.owners memory)[key]? = some t) :
    (kind.owners after)[key]? = some t := by
  cases kind
  exacts [h.methodOwners key t met, h.fieldOwners key t met]

theorem owners_of_sameMembers (h : memory.SameMembers after) :
    kind.owners after = kind.owners memory := by
  cases kind
  exacts [h.methodOwners, h.fieldOwners]

/-- To remember an owner that was not known keeps what is true since a base. -/
theorem isTrueSince_meet {registry : Registry} {base : Memory}
    (h : memory.IsTrueSince registry base)
    (unmet : (kind.owners memory)[key]? = none) :
    (kind.meet memory key owner).IsTrueSince registry base := by
  cases kind with
  | method => exact ⟨h.precedes.meet unmet owner, h.facts⟩
  | field =>
    have gains := Memory.getElem?_insert_of_none unmet (fun _ _ => id) owner
    refine ⟨{ h.precedes with fieldOwners := fun other t met => ?_ }, h.facts⟩
    exact gains other t (h.precedes.fieldOwners other t met)

end MemberKind

/-- The definition of a type, if it lists a member. -/
def Ty.lister? (registry : Registry) (kind : MemberKind) (key : RowKey)
    (t : Ty) : Option Ty := do
  let d ← t.definition?
  let m ← registry.module? d.module
  let row ← m.image.typeDef? d.token
  if m.name = key.module ∧ key.token ∈ kind.listed row then
    some (.definition d)
  else none

/-- What lists the members of a type is its definition. -/
theorem Ty.lister?_eq {registry : Registry} (proper : registry.IsProper)
    {kind : MemberKind} {t : Ty} {d : TypeDefinition}
    (hd : t.definition? = some d) {m : Module} (hm : m ∈ registry.modules)
    (named : m.name = d.module) {row : TypeDefRow}
    (hrow : m.image.typeDef? d.token = some row) (key : RowKey) :
    t.lister? registry kind key
      = if m.name = key.module ∧ key.token ∈ kind.listed row then
          some (.definition d)
        else none := by
  have found : registry.module? d.module = some m := by
    rw [← named]
    exact proper.module?_eq_some hm
  rw [Ty.lister?, hd, Option.bind_eq_bind, Option.bind_some, found,
    Option.bind_eq_bind, Option.bind_some, hrow]
  rfl

/-- A search for members of a name along a chain of types, with what is
remembered before. -/
structure MemberSearch where
  registry : Registry
  base : Memory
  limit : Nat
  chain : Nat → Option Ty
  kind : MemberKind
  name : String

namespace MemberSearch

variable {search : MemberSearch}

/-- Whom a member belongs to: whom it was met with before, or else the first
type of the chain that lists it. -/
inductive Owns (search : MemberSearch) (key : RowKey) : Ty → Prop where
  | met {owner : Ty} : (search.kind.owners search.base)[key]? = some owner →
      Owns search key owner
  | listed {owner : Ty} : (search.kind.owners search.base)[key]? = none →
      IsNearest search.limit search.chain
        (Ty.lister? search.registry search.kind key)
        (.ok (some owner)) → Owns search key owner

/-- A member belongs to one type. -/
theorem Owns.eq {key : RowKey} {t u : Ty} (h : search.Owns key t)
    (h' : search.Owns key u) :
    t = u := by
  cases h with
  | met known =>
    cases h' with
    | met known' => exact Option.some.inj (known.symm.trans known')
    | listed unmet =>
      -- Somebody owns the row already, so that nobody meets it again.
      rw [known] at unmet
      cases unmet
  | listed unmet nearest =>
    cases h' with
    | met known =>
      rw [known] at unmet
      cases unmet
    | listed _ nearest' =>
      exact Option.some.inj (Except.ok.inj (nearest.eq nearest'))

/-! ### What is remembered on the way -/

/-- The members of the name. -/
def Wants (search : MemberSearch) (key : RowKey) : Prop :=
  ∃ m ∈ search.registry.modules, m.name = key.module ∧
    search.kind.name? m key.token = some (.ok search.name)

/-- The members that are listed by the types of the chain before the given
one. -/
def ListedBefore (search : MemberSearch) (i : Nat) (key : RowKey) : Prop :=
  ∃ j < i,
    ((search.chain j).bind (Ty.lister? search.registry search.kind key)).isSome

theorem listedBefore_succ {i : Nat} {key : RowKey}
    (listed : search.ListedBefore (i + 1) key) :
    search.ListedBefore i key ∨
      ((search.chain i).bind
        (Ty.lister? search.registry search.kind key)).isSome := by
  obtain ⟨j, hj, listed⟩ := listed
  obtain hj | rfl := Nat.lt_succ_iff_lt_or_eq.mp hj
  exacts [.inl ⟨j, hj, listed⟩, .inr listed]

/-- A type without a definition lists nothing. -/
theorem listedBefore_of_none {i : Nat} {t : Ty} (here : search.chain i = some t)
    (hd : t.definition? = none) {key : RowKey}
    (listed : search.ListedBefore (i + 1) key) :
    search.ListedBefore i key := by
  refine (listedBefore_succ listed).resolve_right fun lists => ?_
  rw [here, Option.bind_some, Ty.lister?, hd] at lists
  cases lists

/-- What is remembered on the way.  Members belong to whom they should, and of
those that were passed, the wanted ones have been met. -/
structure HasPassed (search : MemberSearch) (passed : RowKey → Prop)
    (memory : Memory) : Prop where
  true : memory.IsTrueSince search.registry search.base
  owned : ∀ (key : RowKey) (owner : Ty),
    (search.kind.owners memory)[key]? = some owner →
    search.Owns key owner
  met : ∀ key, passed key → search.Wants key →
    ((search.kind.owners memory)[key]?).isSome

/-- What is remembered where some rows of a type of the chain have been passed
as well. -/
def HasPassedRows (search : MemberSearch) (i : Nat) (m : Module)
    (seen : List Token) :
    Memory → Prop :=
  search.HasPassed fun key => search.ListedBefore i key ∨ key.module = m.name ∧
    key.token ∈ seen

/-- Where nothing was found in a type of the chain, the type has been passed. -/
def HasSearched {ε : Type} (search : MemberSearch) (i : Nat) (found : Option ε)
    (memory : Memory) :
    Prop :=
  found = none → search.HasPassed (search.ListedBefore (i + 1)) memory

section
variable {memory after : Memory} {passed : RowKey → Prop}

/-- Before the search, none is passed. -/
theorem hasPassed_base (search : MemberSearch) :
    search.HasPassed (search.ListedBefore 0) search.base where
  true := Memory.isTrueSince_base search.registry search.base
  owned _ _ := .met
  met _ before := by
    obtain ⟨j, hj, -⟩ := before
    cases hj

theorem HasPassed.of_sameMembers (h : search.HasPassed passed memory)
    (true : after.IsTrueSince search.registry search.base)
    (same : memory.SameMembers after) :
    search.HasPassed passed after := by
  refine ⟨true, ?_, ?_⟩
  · rw [search.kind.owners_of_sameMembers same]
    exact h.owned
  · rw [search.kind.owners_of_sameMembers same]
    exact h.met

/-- Members may be taken for passed if they are not wanted. -/
theorem HasPassed.imp {passed' : RowKey → Prop}
    (h : search.HasPassed passed memory)
    (fewer : ∀ key, passed' key → search.Wants key → passed key) :
    search.HasPassed passed' memory :=
  { h with
    met := fun key before wanted => h.met key (fewer key before wanted) wanted }

/-- A member is met with its owner. -/
theorem HasPassed.meet {key : RowKey} {owner : Ty}
    (h : search.HasPassed passed memory)
    (unmet : (search.kind.owners memory)[key]? = none)
    (owns : search.Owns key owner) :
    search.HasPassed (fun other => passed other ∨ other = key)
      (search.kind.meet memory key owner) := by
  have owners (other : RowKey) :
      (search.kind.owners (search.kind.meet memory key owner))[other]?
        = if key == other then some owner
        else (search.kind.owners memory)[other]? := by
    rw [MemberKind.owners_meet, Std.HashMap.getElem?_insert]
  refine ⟨search.kind.isTrueSince_meet h.true unmet, fun other t known => ?_,
    fun other before wanted => ?_⟩
  · -- A row has the owner that was met now, or the one from before.
    rw [owners] at known
    split at known
    · next same =>
      obtain rfl := eq_of_beq same
      obtain rfl := Option.some.inj known
      exact owns
    · exact h.owned other t known
  · -- Every row that was passed before has an owner, and now this one has.
    rw [owners]
    split
    · rfl
    · next different =>
      rcases before with before | rfl
      · exact h.met other before wanted
      · exact absurd (beq_self_eq_true other) different

end

/-- A query that keeps members keeps what was passed. -/
theorem runsTo_of_reachesSince {α : Type} {query : Query α}
    {outcome : Except Error α}
    (h : ReachesSince search.registry search.base (fun _ => query) outcome)
    (passed : RowKey → Prop) :
    query.RunsTo search.registry (search.HasPassed passed)
      (search.HasPassed passed) outcome := by
  filter_upwards [h] with l hl memory before
  obtain ⟨answer, true, same⟩ := hl memory before.true
  exact ⟨answer, before.of_sameMembers true same⟩

/-- A wanted member that a type of the chain lists belongs to whom it should, if
the types before have been passed. -/
theorem runsTo_ownerOf {passed : RowKey → Prop} {key : RowKey}
    (wanted : search.Wants key) {i : Nat} (within : i ≤ search.limit) {own : Ty}
    (lists : (search.chain i).bind (Ty.lister? search.registry search.kind key)
      = some own)
    (before : search.ListedBefore i key → passed key) {owner : Ty}
    (owns : search.Owns key owner) :
    (ownerOf (fun memory => (search.kind.owners memory)[key]?)
      (fun owner memory => search.kind.meet memory key owner)
        (pure own)).RunsTo search.registry
        (search.HasPassed passed) (search.HasPassed fun other => passed other ∨
          other = key)
        (.ok owner) := by
  refine .of_forall fun l memory h => ?_
  cases known : (search.kind.owners memory)[key]? with
  | some t =>
    obtain rfl := (h.owned key t known).eq owns
    rw [ownerOf_apply_some known]
    refine ⟨rfl, { h with met := ?_ }⟩
    rintro other (before | rfl) wanted
    · exact h.met other before wanted
    · rw [known]
      rfl
  | none =>
    -- None of the types before lists the member, since it was not met.
    have first (j : Nat) (hj : j < i) :
        (search.chain j).bind (Ty.lister? search.registry search.kind key)
          = none := by
      rw [← Option.not_isSome_iff_eq_none]
      intro earlier
      have met := h.met key (before ⟨j, hj, earlier⟩) wanted
      rw [known] at met
      cases met
    have unmet : (search.kind.owners search.base)[key]? = none := by
      refine Option.eq_none_iff_forall_ne_some.mpr fun t met => ?_
      rw [search.kind.owners_of_precedes h.true.precedes met] at known
      cases known
    obtain rfl := Owns.eq (.listed unmet (.found within lists first)) owns
    rw [ownerOf_apply_ok known rfl]
    exact ⟨rfl, h.meet known owns⟩

/-! ### Types with their members -/

/-- What a search in a type of the chain does at the row of a token. -/
structure Visits {μ : Type} (search : MemberSearch) (i : Nat) (m : Module)
    (isWanted : Token → Query Bool) (member : Token → Query μ)
    (test : μ → Query Bool) (token : Token) (name : String) (a : μ)
    (passes : Bool) : Prop where
  name? : search.kind.name? m token = some (.ok name)
  wanted : ∀ passed, (isWanted token).RunsTo search.registry
    (search.HasPassed passed)
    (search.HasPassed passed) (.ok (name = search.name))
  made : name = search.name → ∀ passed : RowKey → Prop,
    (search.ListedBefore i ⟨m.name, token⟩ → passed ⟨m.name, token⟩) →
      (member token).RunsTo search.registry (search.HasPassed passed)
        (search.HasPassed fun other => passed other ∨ other = ⟨m.name, token⟩)
        (.ok a)
  tested : name = search.name → ∀ passed, (test a).RunsTo search.registry
    (search.HasPassed passed) (search.HasPassed passed) (.ok passes)

section
variable (proper : search.registry.IsProper) {i : Nat} {t : Ty}
  (here : search.chain i = some t) {d : TypeDefinition}
  (hd : t.definition? = some d) {m : Module} (hm : m ∈ search.registry.modules)
  (named : m.name = d.module) {row : TypeDefRow}
  (hrow : m.image.typeDef? d.token = some row)
include proper here hd hm named hrow

/-- What is listed before the next type is what this type lists or is listed
before. -/
theorem listed_of_listedBefore {key : RowKey}
    (listed : search.ListedBefore (i + 1) key) :
    search.ListedBefore i key ∨ key.module = m.name ∧
    key.token ∈ search.kind.listed row := by
  refine (listedBefore_succ listed).imp_right fun lists => ?_
  rw [here, Option.bind_some, Ty.lister?_eq proper hd hm named hrow] at lists
  split at lists
  · next among => exact ⟨among.1.symm, among.2⟩
  · cases lists

/-- A member that a type of the chain lists. -/
theorem lister?_eq_some {token : Token}
    (listed : token ∈ search.kind.listed row) :
    (search.chain i).bind (Ty.lister? search.registry search.kind
      ⟨m.name, token⟩)
      = some (.definition d) := by
  rw [here, Option.bind_some, Ty.lister?_eq proper hd hm named hrow,
    if_pos ⟨rfl, listed⟩]

omit here hd named hrow in
/-- A row is passed by if its member is not wanted. -/
theorem HasPassedRows.skip {memory : Memory} {seen : List Token}
    (h : search.HasPassedRows i m seen memory) {token : Token} {name : String}
    (called : search.kind.name? m token = some (.ok name))
    (unwanted : name ≠ search.name) :
    search.HasPassedRows i m (seen ++ [token]) memory := by
  refine h.imp fun key listed wanted => listed.imp_right
    fun ⟨same, among⟩ => ⟨same, ?_⟩
  refine (List.mem_append.mp among).resolve_right fun last => ?_
  obtain ⟨n, hn, same', called'⟩ := wanted
  obtain rfl := proper.eq_of_name_eq hn hm (same'.trans same)
  rw [List.mem_singleton.mp last, called] at called'
  exact unwanted (Except.ok.inj (Option.some.inj called'))

omit proper here hd hm named hrow in
/-- A row is passed if its member was met. -/
theorem hasPassedRows_append {memory : Memory} {seen : List Token}
    {token : Token}
    (h : search.HasPassed (fun key => (search.ListedBefore i key ∨
      key.module = m.name ∧ key.token ∈ seen) ∨ key = ⟨m.name, token⟩) memory) :
    search.HasPassedRows i m (seen ++ [token]) memory := by
  refine h.imp fun key listed _ => ?_
  rcases listed with listed | ⟨same, among⟩
  · exact .inl (.inl listed)
  · rcases List.mem_append.mp among with among | last
    · exact .inl (.inr ⟨same, among⟩)
    · exact .inr (by rw [← same, ← List.mem_singleton.mp last])

/-- In a type of the chain, the first member of the name that passes the test is
found.  If there is none, the type is passed. -/
theorem runsTo_findOf {μ ε : Type} {isWanted : Token → Query Bool}
    {member : Token → Query μ} {test : μ → Query Bool} {nameOf : ε → String}
    {item : ε → μ} {passes : ε → Bool} {entries : List ε}
    (told : List.Forall₂ (fun token entry => search.Visits i m isWanted member
      test token (nameOf entry) (item entry) (passes entry))
        (search.kind.listed row) entries) :
    (Members.findOf isWanted member test (search.kind.listed row)).RunsTo
      search.registry
      (search.HasPassed (search.ListedBefore i))
      (search.HasSearched i
        ((entries.find? fun entry =>
          nameOf entry = search.name && passes entry).map item))
      (.ok ((entries.find? fun entry =>
        nameOf entry = search.name && passes entry).map item)) := by
  -- Rows of other names are passed over, the others are met.
  have visits :
      List.Forall₂
        (fun token entry => Members.Visits search.registry isWanted member test
      (search.HasPassedRows i m) token (item entry) (nameOf entry = search.name)
        (passes entry))
      (search.kind.listed row) entries := by
    refine told.imp fun token entry visits => ⟨fun seen => visits.wanted _,
      fun unwanted seen memory h => ?_, fun wanted seen => ?_,
      fun wanted seen => visits.tested (of_decide_eq_true wanted) _⟩
    · exact HasPassedRows.skip proper hm h visits.name?
        (of_decide_eq_false unwanted)
    · exact (visits.made (of_decide_eq_true wanted) _ .inl).imp (fun _ => id)
        fun _ => hasPassedRows_append
  -- Behind the rows nothing is left to be found.
  have runs : RunsTo search.registry (search.HasPassedRows i m [])
      (search.HasSearched i
      ((entries.find? fun entry =>
        nameOf entry = search.name && passes entry).map item))
      (Members.findOf isWanted member test (search.kind.listed row ++ []))
        (.ok (Option.or _ none)) :=
    Members.runsTo_findOf visits []
      (fun _ => .pure none fun memory h _ => h.imp fun key listed _ =>
        listed_of_listedBefore proper here hd hm named hrow listed)
      fun isSome _ _ _ missing =>
        absurd (Option.map_eq_none_iff.mp missing)
          (Option.ne_none_iff_isSome.mpr isSome)
  rw [List.append_nil, Option.or_none] at runs
  exact runs.imp (fun memory h => h.imp fun key listed _ =>
    by simpa using listed) fun _ => id

end

end MemberSearch

/-- A method that a definition declares, as a member of a type. -/
def Method.asMemberOf (own : Method) (d : TypeDefinition) (t : Ty) : Method :=
  if t = .definition d then own else .view own t

/-- A field that a definition declares, as a member of a type. -/
def Field.asMemberOf (own : Field) (d : TypeDefinition) (t : Ty) : Field :=
  if t = .definition d then own else .view own t

/-- How a field is called. -/
structure FieldEntry where
  field : Field
  name : String

/-- A member is its own or a view, as a type is its definition or not. -/
theorem Query.RunsTo.asMember {μ : Type} {registry : Registry}
    {before after : Memory → Prop} {query : Query μ} {own : μ}
    (h : query.RunsTo registry before after (.ok own))
    (live : registry.held = none) (isOwn : Prop) [Decidable isOwn]
    (view : μ → μ) :
    RunsTo registry before after (do
      let own ← query
      if isOwn then return own
      CliMetadata.requireTypeSystem
      return view own) (.ok (if isOwn then own else view own)) := by
  refine h.bind ?_
  by_cases same : isOwn
  · rw [if_pos same, if_pos same]
    exact .pure _ fun _ => id
  · rw [if_neg same, if_neg same]
    exact (RunsTo.requireTypeSystem live).bind (.pure _ fun _ => id)

namespace MemberSearch

/-- How the row of a token calls a method that a definition declares, as a
member of a type. -/
def CallsMethod (search : MemberSearch) (m : Module) (d : TypeDefinition)
    (t : Ty) (token : Token) (entry : MethodEntry) : Prop :=
  ∃ row owner, m.image.methodDef? token = some row ∧
    search.Owns ⟨m.name, token⟩ owner ∧
    entry.method = (m.methodOfRow row owner).asMemberOf d t ∧
      m.image.string row.name = .ok entry.name

/-- How the row of a token calls a field that a definition declares, as a member
of a type. -/
def CallsField (search : MemberSearch) (m : Module) (d : TypeDefinition)
    (t : Ty) (token : Token) (entry : FieldEntry) : Prop :=
  ∃ row owner, m.image.field? token = some row ∧
    search.Owns ⟨m.name, token⟩ owner ∧
    entry.field = (m.fieldOfRow row owner).asMemberOf d t ∧
      m.image.string row.name = .ok entry.name

/-- How the members of a type are called, in the order of the rows.  A type
without a definition has none. -/
inductive Lists {ε : Type} (search : MemberSearch)
    (calls : Module → TypeDefinition → Ty → Token → ε → Prop) (t : Ty) :
    List ε → Prop where
  | without : t.definition? = none → Lists search calls t []
  | definition {d : TypeDefinition} {m : Module} {row : TypeDefRow}
      {entries : List ε} :
      t.definition? = some d → m ∈ search.registry.modules → m.name = d.module →
        m.image.typeDef? d.token = some row →
          List.Forall₂ (calls m d t) (search.kind.listed row) entries →
          Lists search calls t entries

variable {search : MemberSearch}

section
variable (live : search.registry.held = none) {m : Module}
  (hm : m ∈ search.registry.modules) {d : TypeDefinition} {t : Ty}
  {token : Token} {i : Nat} (within : i ≤ search.limit)
  (lists : (search.chain i).bind (Ty.lister? search.registry search.kind
    ⟨m.name, token⟩) = some (.definition d))
include live hm within lists

/-- A wanted member is made for whom it belongs to, and seen through the
type. -/
theorem runsTo_member {μ : Type} {name : String}
    (called : search.kind.name? m token = some (.ok name))
    (same : name = search.name) {owner : Ty}
    (owns : search.Owns ⟨m.name, token⟩ owner) (make : Ty → μ) (view : μ → μ)
    {passed : RowKey → Prop}
    (before : search.ListedBefore i ⟨m.name, token⟩ → passed ⟨m.name, token⟩) :
    RunsTo search.registry (search.HasPassed passed)
      (search.HasPassed fun other => passed other ∨ other = ⟨m.name, token⟩) (do
        let own ← (do return make (← ownerOf
          (fun memory =>
            (search.kind.owners memory)[(⟨m.name, token⟩ : RowKey)]?)
          (fun owner memory => search.kind.meet memory ⟨m.name, token⟩ owner)
          (pure (.definition d))))
        if t = .definition d then return own
        CliMetadata.requireTypeSystem
        return view own) (.ok (if t = .definition d then make owner
            else view (make owner))) := by
  -- The row is one that the search wants, so that its owner is met here.
  have wanted : search.Wants ⟨m.name, token⟩ :=
    ⟨m, hm, rfl, by rw [← same]; exact called⟩
  have owned := runsTo_ownerOf wanted within lists before owns
  exact (RunsTo.bind owned (.pure (make owner) fun _ => id)).asMember live
    (t = .definition d) view

theorem visits_method (isMethod : search.kind = .method) {entry : MethodEntry}
    (calls : search.CallsMethod m d t token entry) {test : Method → Query Bool}
    {passes : Bool}
    (tested : entry.name = search.name → ∀ passed,
      (test entry.method).RunsTo search.registry (search.HasPassed passed)
        (search.HasPassed passed) (.ok passes)) :
    search.Visits i m ((MethodFilter.named search.name).accepts m)
      (memberMethod m d t) test token
      entry.name entry.method passes := by
  obtain ⟨row, owner, hrow, owns, method, hname⟩ := calls
  have called : search.kind.name? m token = some (.ok entry.name) := by
    simp [isMethod, MemberKind.name?, hrow, hname]
  refine ⟨called, fun passed => ?_, fun same passed before => ?_, tested⟩
  · -- Whether a row is wanted is told by its name.
    rw [MethodFilter.accepts.eq_def]
    dsimp only
    rw [hrow]
    exact (RunsTo.lift hname).bind (.pure _ fun _ => id)
  · -- The method is made for the owner of its row.
    have made := runsTo_member (t := t) live hm within lists called same owns
      (m.methodOfRow row) (Method.view · t) before
    rw [isMethod] at made
    rw [method, memberMethod.eq_def, Module.method.eq_def, hrow]
    exact made

theorem visits_field (isField : search.kind = .field) {entry : FieldEntry}
    (calls : search.CallsField m d t token entry) :
    search.Visits i m (acceptsField (some search.name) m) (memberField m d t)
      (fun _ => pure true)
      token entry.name entry.field true := by
  obtain ⟨row, owner, hrow, owns, field, hname⟩ := calls
  have called : search.kind.name? m token = some (.ok entry.name) := by
    simp [isField, MemberKind.name?, hrow, hname]
  refine ⟨called, fun passed => ?_, fun same passed before => ?_,
    fun _ _ => .pure true fun _ => id⟩
  · -- Whether a row is wanted is told by its name.
    rw [acceptsField.eq_def]
    dsimp only
    rw [hrow]
    exact (RunsTo.lift hname).bind (.pure _ fun _ => id)
  · -- The field is made for the owner of its row.
    have made := runsTo_member (t := t) live hm within lists called same owns
      (m.fieldOfRow row) (Field.view · t) before
    rw [isField] at made
    rw [field, memberField.eq_def, Module.field.eq_def, hrow]
    exact made

end

/-! ### Searches -/

section
variable (proper : search.registry.IsProper)
  (live : search.registry.held = none)

section
variable {i : Nat} (within : i ≤ search.limit) {t : Ty}
  (here : search.chain i = some t)
include proper live within here

/-- In a type of the chain, the first method of the name that passes the test is
found. -/
theorem runsTo_find (isMethod : search.kind = .method)
    {entries : List MethodEntry}
    (lists : search.Lists search.CallsMethod t entries)
    {test : Method → Query Bool} {passes : MethodEntry → Bool}
    (tested : ∀ entry ∈ entries, entry.name = search.name → ∀ passed,
      (test entry.method).RunsTo search.registry (search.HasPassed passed)
        (search.HasPassed passed) (.ok (passes entry))) :
    RunsTo search.registry (search.HasPassed (search.ListedBefore i))
      (search.HasSearched i ((entries.find? fun entry =>
        entry.name = search.name && passes entry).map MethodEntry.method))
      (do (← t.methods (.named search.name)).find test)
      (.ok ((entries.find? fun entry =>
        entry.name = search.name && passes entry).map MethodEntry.method)) := by
  cases lists with
  | without hd =>
    -- A type without a definition lists nothing.
    rw [Ty.methods.eq_def, hd]
    exact .pure none fun memory h _ => h.imp fun key listed _ =>
      listedBefore_of_none here hd listed
  | @definition d m row _ hd hm named hrow calls =>
    have visits : List.Forall₂ (fun token entry => search.Visits i m
        ((MethodFilter.named search.name).accepts m)
          (memberMethod m d t) test token
        entry.name entry.method (passes entry))
          (search.kind.listed row) entries := by
      refine List.forall₂_iff_zip.mpr
        ⟨calls.length_eq, fun {token entry} both => ?_⟩
      -- Each row belongs to this type of the chain and to none before it.
      obtain ⟨listed, among⟩ := List.of_mem_zip both
      have lists := lister?_eq_some proper here hd hm named hrow listed
      exact visits_method live hm within lists isMethod
        ((List.forall₂_iff_zip.mp calls).2 both) (tested entry among)
    have found := runsTo_findOf proper here hd hm named hrow visits
    rw [isMethod] at found
    exact (Ty.runsTo_methods hd named hrow hm proper live _).bind found

/-- In a type of the chain, the first method of the name and of a signature is
found. -/
theorem runsTo_method (isMethod : search.kind = .method)
    {entries : List MethodEntry}
    (lists : search.Lists search.CallsMethod t entries)
    (wanted : MethodSignature)
    (told : ∀ entry ∈ entries, entry.name = search.name → ∀ passed,
      entry.method.signature.RunsTo search.registry (search.HasPassed passed)
        (search.HasPassed passed) (.ok entry.signature)) :
    (t.method search.name (some wanted) []).RunsTo search.registry
      (search.HasPassed (search.ListedBefore i))
      (search.HasSearched i ((entries.find? fun entry =>
        entry.name = search.name && wanted
          = entry.signature).map MethodEntry.method))
      (.ok ((entries.find? fun entry =>
        entry.name = search.name && wanted = entry.signature).map
        MethodEntry.method)) :=
  runsTo_find proper live within here isMethod lists
    fun entry hentry same passed =>
    MethodEntry.runsTo_comparison (told entry hentry same passed) wanted

/-- In a type of the chain, the first field of the name is found. -/
theorem runsTo_fieldNamed (isField : search.kind = .field)
    {entries : List FieldEntry}
    (lists : search.Lists search.CallsField t entries) :
    (t.fieldNamed search.name).RunsTo search.registry
      (search.HasPassed (search.ListedBefore i))
      (search.HasSearched i
        ((entries.find? fun entry => entry.name = search.name).map
        FieldEntry.field))
      (.ok ((entries.find? fun entry => entry.name = search.name).map
        FieldEntry.field)) := by
  cases lists with
  | without hd =>
    rw [Ty.fieldNamed.eq_def, Ty.fields.eq_def, hd]
    exact .pure none fun memory h _ => h.imp fun key listed _ =>
      listedBefore_of_none here hd listed
  | @definition d m row _ hd hm named hrow calls =>
    have visits : List.Forall₂ (fun token entry => search.Visits i m
        (acceptsField (some search.name) m) (memberField m d t)
          (fun _ => pure true) token
        entry.name entry.field true) (search.kind.listed row) entries := by
      refine List.forall₂_iff_zip.mpr
        ⟨calls.length_eq, fun {token entry} both => ?_⟩
      have lists := lister?_eq_some proper here hd hm named hrow
        (List.of_mem_zip both).1
      exact visits_field live hm within lists isField
        ((List.forall₂_iff_zip.mp calls).2 both)
    have found := runsTo_findOf proper here hd hm named hrow visits
    simp only [Bool.and_true] at found
    rw [isField] at found
    exact (Ty.runsTo_fields hd named hrow hm proper live _).bind found

end

/-- What is looked for along the chain is the nearest answer, whoever members
were met with before. -/
theorem runsTo_alongBases {α : Type} {ask : Ty → Query (Option α)}
    {answers : Ty → Option α} {t : Ty} (starts : search.chain 0 = some t)
    (limited : search.registry.options.maxInheritanceDepth = search.limit)
    (bases : ∀ i ≤ search.limit, ∀ u, search.chain i = some u →
      ∀ passed : RowKey → Prop,
        u.base.RunsTo search.registry (search.HasPassed passed)
          (search.HasPassed passed) (.ok (search.chain (i + 1))))
    (ends : ∀ i, search.chain i = none → search.chain (i + 1) = none)
    (asks : ∀ i ≤ search.limit, ∀ u, search.chain i = some u →
      (ask u).RunsTo search.registry (search.HasPassed (search.ListedBefore i))
        (search.HasSearched i (answers u)) (.ok (answers u))) :
    ∃ outcome, IsNearest search.limit search.chain answers outcome ∧
      (alongBases ask t).RunsTo search.registry
        (search.HasPassed (search.ListedBefore 0))
        (fun _ => True) outcome := by
  have asks' (i : Nat) (within : i ≤ search.limit) (u : Ty)
      (hu : search.chain i = some u) :=
    (asks i within u hu).imp (fun _ => id) fun memory left =>
      And.intro True.intro left
  exact CliMetadata.runsTo_alongBases starts ends
    (fun _ _ _ => True.intro) asks'
    (fun i within u hu => bases i within u hu _) limited

end

end MemberSearch

end CliMetadata
