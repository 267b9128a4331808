import CliMetadata.Proofs.TypeSystem.Equivalence
import CliMetadata.Proofs.TypeSystem.Lasting.Questions

/-!
# Enumerations of members

Whether a member is wanted is decided by its row, before the member is made, and
a search for a name compares names of rows.  If all rows of a definition can be
read, this comes to the same as looking at the members: the virtual methods are
those of all methods that are virtual, and what is found by a name is the first
member of that name.  An applied definition has views of the members of the
definition, one for each of them, and enumerating again yields the same
(`Session.IsReachable.enumeratesMembers`).

All this holds whoever the members were first met with.  `Query.Shows` is about
memories of which some condition holds, here that all owners are as they were
before (`Memory.OwnsAs`).
-/

namespace CliMetadata

open Query

/-! ### Queries in memories of a kind -/

namespace Query

variable {α β : Type} {registry : Registry} {holds : Memory → Prop}

/-- In memories of which a condition holds, the query has this answer, and the
condition holds afterwards. -/
def Shows (registry : Registry) (holds : Memory → Prop) (query : Query α)
    (a : α) : Prop :=
  ∀ memory, holds memory → ∃ memory', query registry memory = (.ok a, memory') ∧
  holds memory'

namespace Shows

variable {query : Query α} {a : α}

theorem pure (a : α) : (Pure.pure a : Query α).Shows registry holds a :=
  fun memory h => ⟨memory, rfl, h⟩

theorem bind {next : α → Query β} {b : β} (first : query.Shows registry holds a)
    (second : (next a).Shows registry holds b) :
    (query >>= next).Shows registry holds b := by
  intro memory h
  obtain ⟨memory₁, run, h⟩ := first memory h
  rw [bind_apply_ok run]
  exact second memory₁ h

theorem map (h : query.Shows registry holds a) (f : α → β) :
    (do return f (← query) : Query β).Shows registry holds (f a) :=
  h.bind (pure (f a))

/-- A result that needs no type system. -/
theorem lift {result : Except Error α} (h : result = .ok a) :
    (liftM result : Query α).Shows registry holds a := by
  rw [h]
  exact pure a

theorem attempt (h : query.Shows registry holds a) :
    query.attempt.Shows registry holds (.ok a) := by
  intro memory hmemory
  obtain ⟨memory', run, h'⟩ := h memory hmemory
  exact ⟨memory', attempt_apply run nofun, h'⟩

theorem requireTypeSystem (live : registry.held = none) :
    CliMetadata.requireTypeSystem.Shows registry holds () :=
  fun memory h => ⟨memory, requireTypeSystem_apply live, h⟩

theorem reachModule (proper : registry.IsProper) (live : registry.held = none)
    {m : Module} (hm : m ∈ registry.modules) :
    (CliMetadata.reachModule m.name).Shows registry holds m :=
  fun memory h => ⟨memory, reachModule_apply proper live hm memory, h⟩

/-- The owner of a member is the one that it was met with, or else the one that
is told. -/
theorem ownerOf {known : Memory → Option Ty} {remember : Ty → Memory → Memory}
    {owner met : Ty}
    (meets : ∀ memory, holds memory → (known memory).getD owner = met)
    (keeps : ∀ memory, holds memory → known memory = none →
      holds (remember owner memory)) :
    (CliMetadata.ownerOf known remember (Pure.pure owner)).Shows registry
      holds met := by
  intro memory h
  have same := meets memory h
  cases found : known memory with
  | some t =>
    -- The row was met before, and its owner is answered.
    rw [found] at same
    cases same
    exact ⟨memory, ownerOf_apply_some found, h⟩
  | none =>
    -- The row is met now.
    rw [found] at same
    cases same
    exact ⟨_, ownerOf_apply_ok found rfl, keeps memory h found⟩

end Shows

end Query

/-! ### Lists and searches -/

namespace Members

variable {registry : Registry} {holds : Memory → Prop} {μ κ : Type}
  {isWanted : Token → Query Bool} {member : Token → Query μ} {item : κ → μ}
  {wants : κ → Bool} {tokens : List Token} {entries : List κ}
  (told : List.Forall₂ (fun token entry => (isWanted token).Shows registry holds
    (wants entry) ∧ (member token).Shows registry holds
      (item entry)) tokens entries)
include told

/-- The items are the members of the rows that are wanted. -/
theorem shows_allOf : (allOf isWanted member tokens).Shows registry holds
    ((entries.filter wants).map fun entry => .ok (item entry)) := by
  induction told with
  | nil => exact .pure []
  | @cons token entry _ _ first _ ih =>
    obtain ⟨wanted, made⟩ := first
    apply wanted.attempt.bind
    cases hwants : wants entry with
    | false =>
      rw [List.filter_cons_of_neg (by simp [hwants])]
      exact ih
    | true =>
      rw [List.filter_cons_of_pos hwants]
      exact made.attempt.bind (ih.bind (.pure _))

/-- The first member is that of the first row that is wanted. -/
theorem shows_findOf :
    (findOf isWanted member (fun _ => pure true) tokens).Shows registry holds
    ((entries.find? wants).map item) := by
  induction told with
  | nil => exact .pure none
  | @cons token entry _ _ first _ ih =>
    obtain ⟨wanted, made⟩ := first
    apply wanted.bind
    rw [List.find?_cons]
    cases wants entry with
    | false => exact ih
    | true => exact made.bind (.bind (.pure true) (.pure _))

end Members

/-! ### Rows and their owners -/

/-- A row that a token leads to, and its name. -/
structure NamedRow (ρ : Type) where
  token : Token
  row : ρ
  name : String

/-- The rows that tokens lead to, in their order, and the names of these. -/
def Image.NamesRows {ρ : Type} (image : Image) (row? : Token → Option ρ)
    (name : ρ → UInt32) (tokens : List Token) (entries : List (NamedRow ρ)) :
    Prop :=
  List.Forall₂ (fun token entry => entry.token = token ∧
    row? token = some entry.row ∧
    image.string (name entry.row) = .ok entry.name) tokens entries

/-- All rows have names if each of them has one. -/
theorem Image.exists_namesRows {ρ : Type} {image : Image}
    {row? : Token → Option ρ} {name : ρ → UInt32} {tokens : List Token}
    (h : ∀ token ∈ tokens, ∃ row, row? token = some row ∧ ∃ text,
      image.string (name row) = .ok text) :
    ∃ entries, image.NamesRows row? name tokens entries := by
  induction tokens with
  | nil => exact ⟨[], .nil⟩
  | cons token rest ih =>
    obtain ⟨⟨row, hrow, text, hname⟩, others⟩ := List.forall_mem_cons.mp h
    obtain ⟨entries, told⟩ := ih others
    exact ⟨⟨token, row, text⟩ :: entries, .cons ⟨rfl, hrow, hname⟩ told⟩

/-- A row with its name is that of one of the tokens. -/
theorem Image.NamesRows.of_mem {ρ : Type} {image : Image}
    {row? : Token → Option ρ} {name : ρ → UInt32} {tokens : List Token}
    {entries : List (NamedRow ρ)} (h : image.NamesRows row? name tokens entries)
    {entry : NamedRow ρ} (hentry : entry ∈ entries) :
    image.string (name entry.row) = .ok entry.name := by
  induction h with
  | nil => cases hentry
  | cons first _ ih =>
    rcases List.mem_cons.mp hentry with rfl | hentry
    exacts [first.2.2, ih hentry]

/-- The owners of members are as they were before, where those not met yet are
taken to belong to a definition. -/
structure Memory.OwnsAs (d : TypeDefinition) (before memory : Memory) :
    Prop where
  methods : ∀ key : RowKey, memory.methodOwners[key]?.getD (.definition d)
    = before.methodOwners[key]?.getD (.definition d)
  fields : ∀ key : RowKey, memory.fieldOwners[key]?.getD (.definition d)
    = before.fieldOwners[key]?.getD (.definition d)

/-- To remember what is taken for granted changes nothing. -/
theorem getD_getElem?_insert {owners : Std.HashMap RowKey Ty} {key : RowKey}
    {t : Ty} (unmet : owners[key]? = none) (other : RowKey) :
    (owners.insert key t)[other]?.getD t = owners[other]?.getD t := by
  rw [Std.HashMap.getElem?_insert]
  split
  · next same => simp [← eq_of_beq same, unmet]
  · rfl

section
variable {registry : Registry} {before : Memory} {m : Module}
  {d : TypeDefinition} {t : Ty}

/-- A method that a definition declares, as a member of a type. -/
def Module.listedMethod (m : Module) (d : TypeDefinition) (before : Memory)
    (t : Ty) (entry : NamedRow MethodDefRow) : Method :=
  let own := m.methodOfRow entry.row
    (before.methodOwners[(⟨m.name, entry.token⟩ : RowKey)]?.getD
      (.definition d))
  if t = .definition d then own else .view own t

/-- A field that a definition declares, as a member of a type. -/
def Module.listedField (m : Module) (d : TypeDefinition) (before : Memory)
    (t : Ty) (entry : NamedRow FieldRow) : Field :=
  let own := m.fieldOfRow entry.row
    (before.fieldOwners[(⟨m.name, entry.token⟩ : RowKey)]?.getD (.definition d))
  if t = .definition d then own else .view own t

theorem Module.declaration_listedMethod (entry : NamedRow MethodDefRow) :
    (m.listedMethod d before t entry).flags = entry.row.flags ∧
      (m.listedMethod d before t entry).name = (m.methodOfRow entry.row
        (before.methodOwners[(⟨m.name, entry.token⟩ : RowKey)]?.getD
          (.definition d))).name := by
  rw [Module.listedMethod]
  split
  exacts [⟨rfl, rfl⟩, ⟨rfl, rfl⟩]

@[simp]
theorem Module.name_listedField (entry : NamedRow FieldRow) :
    (m.listedField d before t entry).name = (m.fieldOfRow entry.row
      (before.fieldOwners[(⟨m.name, entry.token⟩ : RowKey)]?.getD
        (.definition d))).name := by
  rw [Module.listedField]
  split
  exacts [rfl, rfl]

section
variable (live : registry.held = none)
include live

theorem shows_memberMethod {token : Token} {entry : NamedRow MethodDefRow}
    (same : entry.token = token)
    (hrow : m.image.methodDef? token = some entry.row) :
    (memberMethod m d t token).Shows registry (Memory.OwnsAs d before)
      (m.listedMethod d before t entry) := by
  subst same
  -- The row is read, and it belongs to the definition unless it was met before.
  have declared : (m.method entry.token (some (.definition d))).Shows registry
      (Memory.OwnsAs d before) (m.listedMethod d before (.definition d) entry) := by
    rw [Module.method.eq_def, hrow, Module.listedMethod, if_pos rfl]
    refine Shows.bind
      (Shows.ownerOf (fun memory h => h.methods _) fun memory h unmet => ?_)
      (.pure _)
    exact { h with methods := fun key =>
      (getD_getElem?_insert unmet key).trans (h.methods key) }
  apply declared.bind
  rw [Module.listedMethod, Module.listedMethod, if_pos rfl]
  by_cases own : t = .definition d
  · -- On the definition itself the member stands as it is.
    rw [if_pos own, if_pos own]
    exact .pure _
  · -- On any other type it is seen through that type.
    rw [if_neg own, if_neg own]
    exact (Shows.requireTypeSystem live).bind (.pure _)

theorem shows_memberField {token : Token} {entry : NamedRow FieldRow}
    (same : entry.token = token)
    (hrow : m.image.field? token = some entry.row) :
    (memberField m d t token).Shows registry (Memory.OwnsAs d before)
      (m.listedField d before t entry) := by
  subst same
  have declared : (m.field entry.token (some (.definition d))).Shows registry
      (Memory.OwnsAs d before) (m.listedField d before (.definition d) entry) := by
    rw [Module.field.eq_def, hrow, Module.listedField, if_pos rfl]
    refine Shows.bind
      (Shows.ownerOf (fun memory h => h.fields _) fun memory h unmet => ?_)
      (.pure _)
    exact { h with fields := fun key =>
      (getD_getElem?_insert unmet key).trans (h.fields key) }
  apply declared.bind
  rw [Module.listedField, Module.listedField, if_pos rfl]
  by_cases own : t = .definition d
  · rw [if_pos own, if_pos own]
    exact .pure _
  · rw [if_neg own, if_neg own]
    exact (Shows.requireTypeSystem live).bind (.pure _)

end

/-! ### Filters -/

/-- Whether a method passes a filter, by what the method says of itself. -/
def MethodFilter.passes : MethodFilter → Method × String → Bool
  | all, _ => true
  | virtual, (method, _) => method.flags.isVirtual
  | named wanted, (_, name) => name = wanted

/-- Rows are filtered as their methods would be. -/
theorem shows_accepts (filter : MethodFilter) {token : Token}
    {row : MethodDefRow} {name : String} {method : Method}
    (hrow : m.image.methodDef? token = some row)
    (hname : m.image.string row.name = .ok name)
    (told : method.flags = row.flags) :
    (filter.accepts m token).Shows registry (Memory.OwnsAs d before)
      (filter.passes (method, name)) := by
  rw [MethodFilter.accepts.eq_def]
  cases filter with
  | all => exact .pure true
  | virtual =>
    -- The flags decide.
    dsimp only
    rw [hrow, MethodFilter.passes, told]
    exact .pure _
  | named wanted =>
    -- The name decides.
    dsimp only
    rw [hrow]
    exact (Shows.lift hname).bind (.pure _)

theorem shows_acceptsField (wanted : Option String) {token : Token}
    {row : FieldRow} {name : String} (hrow : m.image.field? token = some row)
    (hname : m.image.string row.name = .ok name) :
    (acceptsField wanted m token).Shows registry (Memory.OwnsAs d before)
      (wanted.all fun wanted => name = wanted) := by
  rw [acceptsField.eq_def]
  cases wanted with
  | none => exact .pure true
  | some wanted =>
    dsimp only
    rw [hrow]
    exact (Shows.lift hname).bind (.pure _)

end

/-! ### Types whose members have names -/

/-- The methods and fields that the row of a definition lists have names that
can be read. -/
def TypeDefinition.NamesMembers (d : TypeDefinition) (modules : List Module) :
    Prop :=
  ∀ m ∈ modules, m.name = d.module →
    ∀ row, m.image.typeDef? d.token = some row →
      (∀ token ∈ row.methods,
        ∃ method, m.image.methodDef? token = some method ∧
          ∃ name, m.image.string method.name = .ok name) ∧
      ∀ token ∈ row.fields, ∃ field, m.image.field? token = some field ∧
        ∃ name, m.image.string field.name = .ok name

section
variable {registry : Registry} (proper : registry.IsProper)
  (live : registry.held = none) {before : Memory} {m : Module}
  (hm : m ∈ registry.modules) {d : TypeDefinition} (named : m.name = d.module)
  {row : TypeDefRow} (hrow : m.image.typeDef? d.token = some row) {t : Ty}
  (hd : t.definition? = some d)

section
include proper live hm named hrow hd

/-- The methods of a type are looked for in the row of its definition. -/
theorem Ty.shows_methods {holds : Memory → Prop} (filter : MethodFilter) :
    (t.methods filter).Shows registry holds
      { tokens := row.methods, isWanted := filter.accepts m,
        member := memberMethod m d t } := by
  rw [Ty.methods.eq_def, hd]
  dsimp only
  rw [← named]
  apply (Shows.reachModule proper live hm).bind
  rw [TypeDefinition.row, hrow]
  exact .bind (.pure row) (.pure _)

/-- The fields of a type are looked for in the row of its definition. -/
theorem Ty.shows_fields {holds : Memory → Prop} (wanted : Option String) :
    (t.fields wanted).Shows registry holds
      { tokens := row.fields, isWanted := acceptsField wanted m,
        member := memberField m d t } := by
  rw [Ty.fields.eq_def, hd]
  dsimp only
  rw [← named]
  apply (Shows.reachModule proper live hm).bind
  rw [TypeDefinition.row, hrow]
  exact .bind (.pure row) (.pure _)

end

/-- The methods that rows tell, as members of a type, and their names. -/
def Module.listedMethods (m : Module) (d : TypeDefinition) (before : Memory)
    (t : Ty) (entries : List (NamedRow MethodDefRow)) :
    List (Method × String) :=
  entries.map fun entry => (m.listedMethod d before t entry, entry.name)

/-- The fields that rows tell, as members of a type, and their names. -/
def Module.listedFields (m : Module) (d : TypeDefinition) (before : Memory)
    (t : Ty) (entries : List (NamedRow FieldRow)) : List (Field × String) :=
  entries.map fun entry => (m.listedField d before t entry, entry.name)

/-- The methods of an applied definition are views of those of the
definition. -/
@[simp]
theorem Module.listedMethods_applied (arguments : List Ty)
    (entries : List (NamedRow MethodDefRow)) :
    m.listedMethods d before (.applied d arguments) entries
      = (m.listedMethods d before (.definition d) entries).map
        fun entry => (.view entry.1 (.applied d arguments), entry.2) := by
  simp [Module.listedMethods, Module.listedMethod]

/-- The fields of an applied definition are views of those of the definition. -/
@[simp]
theorem Module.listedFields_applied (arguments : List Ty)
    (entries : List (NamedRow FieldRow)) :
    m.listedFields d before (.applied d arguments) entries
      = (m.listedFields d before (.definition d) entries).map
        fun entry => (.view entry.1 (.applied d arguments), entry.2) := by
  simp [Module.listedFields, Module.listedField]

section
variable {entries : List (NamedRow MethodDefRow)}
  (told : m.image.NamesRows m.image.methodDef? MethodDefRow.name
    row.methods entries)
include live told

theorem shows_listedMethods (filter : MethodFilter) :
    List.Forall₂ (fun token entry =>
      (filter.accepts m token).Shows registry (Memory.OwnsAs d before)
      (filter.passes entry) ∧
        (memberMethod m d t token).Shows registry
          (Memory.OwnsAs d before) entry.1)
      row.methods (m.listedMethods d before t entries) := by
  rw [Module.listedMethods, List.forall₂_map_right_iff]
  refine told.imp fun token entry ⟨same, found, hname⟩ =>
    ⟨?_, shows_memberMethod live same found⟩
  exact shows_accepts filter found hname
    (Module.declaration_listedMethod entry).1

include proper hm named hrow hd

/-- The methods that pass a filter are enumerated. -/
theorem Ty.shows_methods_all {α : Type} (f : List (Except Error Method) → α)
    (filter : MethodFilter) :
    (do return f (← (← t.methods filter).all) : Query α).Shows registry
      (Memory.OwnsAs d before)
      (f (((m.listedMethods d before t entries).filter filter.passes).map
        fun entry : Method × String => .ok entry.1)) :=
  (Ty.shows_methods proper live hm named hrow hd filter).bind
    ((Members.shows_allOf (shows_listedMethods live told filter)).bind
      (.pure _))

/-- The first method of a name is found. -/
theorem Ty.shows_method (name : String) (substitution : List Ty) :
    (t.method name none substitution).Shows registry (Memory.OwnsAs d before)
      (((m.listedMethods d before t entries).find?
        fun entry : Method × String => entry.2 = name).map Prod.fst) :=
  (Ty.shows_methods proper live hm named hrow hd (.named name)).bind
    (Members.shows_findOf (shows_listedMethods live told (.named name)))

end

section
variable {entries : List (NamedRow FieldRow)}
  (told : m.image.NamesRows m.image.field? FieldRow.name row.fields entries)
include live told

theorem shows_listedFields (wanted : Option String) :
    List.Forall₂ (fun token entry =>
      (acceptsField wanted m token).Shows registry (Memory.OwnsAs d before)
          (wanted.all fun wanted => entry.2 = wanted) ∧
        (memberField m d t token).Shows registry
          (Memory.OwnsAs d before) entry.1)
      row.fields (m.listedFields d before t entries) := by
  rw [Module.listedFields, List.forall₂_map_right_iff]
  refine told.imp fun token entry ⟨same, found, hname⟩ =>
    ⟨?_, shows_memberField live same found⟩
  exact shows_acceptsField wanted found hname

include proper hm named hrow hd

/-- The fields are enumerated. -/
theorem Ty.shows_fields_all {α : Type} (f : List (Except Error Field) → α) :
    (do return f (← (← t.fields none).all) : Query α).Shows registry
      (Memory.OwnsAs d before)
      (f ((m.listedFields d before t entries).map fun entry : Field × String =>
        .ok entry.1)) := by
  have all : (m.listedFields d before t entries).filter (fun _ => true)
      = m.listedFields d before t entries :=
      List.filter_eq_self.mpr fun _ _ => rfl
  rw [← all]
  exact (Ty.shows_fields proper live hm named hrow hd none).bind
    ((Members.shows_allOf (shows_listedFields live told none)).bind (.pure _))

/-- The first field of a name is found. -/
theorem Ty.shows_fieldNamed (name : String) :
    (t.fieldNamed name).Shows registry (Memory.OwnsAs d before)
      (((m.listedFields d before t entries).find?
        fun entry : Field × String => entry.2 = name).map Prod.fst) :=
  (Ty.shows_fields proper live hm named hrow hd (some name)).bind
    (Members.shows_findOf (shows_listedFields live told (some name)))

end

end

/-! ### Names -/

section
variable {registry : Registry} {tracked : Bool} {shared : Ty → Prop}
  {m : Module} {name : String}

/-- A module tells one text at a position. -/
theorem TellText.eq (proper : registry.IsProper) (hm : m ∈ registry.modules)
    {position : UInt32} (hname : m.image.string position = .ok name)
    {text : String} (h : TellText registry.modules m.name position text) :
    text = name := by
  obtain ⟨n, hn, same, told⟩ := h
  rw [proper.eq_of_name_eq hn hm same, hname] at told
  exact (Except.ok.inj told).symm

variable (live : registry.held = none) (hm : m ∈ registry.modules)
include live hm

theorem answers_string {position : UInt32}
    (hname : m.image.string position = .ok name) :
    (do (← reachModule m.name).image.string position : Query String).Answers
      registry tracked shared
      (· = name) := by
  refine (answers_reachModule live hm).bind (ensures_reachModule m.name)
    fun _ _ n same _ => ?_
  rw [same, hname]
  exact .pure rfl

/-- The name of a method is the one in its row, also where it was asked for
before. -/
theorem MethodDefinition.answers_text {d : MethodDefinition}
    (named : d.module = m.name) (hname : m.image.string d.name = .ok name) :
    d.text.Answers registry tracked shared (· = name) := by
  refine Answers.of_proper fun proper => Answers.remember
    (fun memory faithful text known => ?_) ?_
  · have told : TellText registry.modules d.module d.name text :=
      faithful.facts _ _ known d rfl
    rw [named] at told
    exact told.eq proper hm hname
  · rw [named]
    exact answers_string live hm hname

/-- The name of a field is the one in its row, also where it was asked for
before. -/
theorem FieldDefinition.answers_text {d : FieldDefinition}
    (named : d.module = m.name) (hname : m.image.string d.name = .ok name) :
    d.text.Answers registry tracked shared (· = name) := by
  refine Answers.of_proper fun proper => Answers.remember
    (fun memory faithful text known => ?_) ?_
  · have told : TellText registry.modules d.module d.name text :=
      faithful.facts _ _ known d rfl
    rw [named] at told
    exact told.eq proper hm hname
  · rw [named]
    exact answers_string live hm hname

end

/-! ### Sessions -/

namespace Session

variable {s : Session} {options : Options}

/-- What a caller is told of the members of a type, where these are all methods
and fields with their names. -/
structure ListsMembers (s : Session) (t : Ty) (methods : List (Method × String))
    (fields : List (Field × String)) : Prop where
  /-- The methods that pass a filter are those of all that pass it by what they
  say. -/
  enumeratesMethods :
    ∀ filter, (s.system.ask (Question.ofType t (.methods filter)).answer).1
    = .ok ((methods.filter filter.passes).map fun entry => .method entry.1)
  tellsMethodNames : ∀ entry ∈ methods,
    (s.system.ask (Question.ofMethod entry.1 .name).answer).1
      = .ok [.text entry.2]
  /-- By a name alone, the first method of that name is found. -/
  findsMethod : ∀ name substitution,
    (s.system.ask (Question.ofType t (.method name none substitution)).answer).1
      = .ok ((methods.find? fun entry => entry.2 = name).toList.map
        fun entry => .method entry.1)
  enumeratesFields : (s.system.ask (Question.ofType t .fields).answer).1
    = .ok (fields.map fun entry => .field entry.1)
  tellsFieldNames : ∀ entry ∈ fields,
    (s.system.ask (Question.ofField entry.1 .name).answer).1
      = .ok [.text entry.2]
  findsField : ∀ name, (s.system.ask (Question.ofType t (.field name)).answer).1
    = .ok ((fields.find? fun entry => entry.2 = name).toList.map
      fun entry => .field entry.1)

/-- The methods and fields that a definition declares: one for each row that the
row of the definition lists, in the order of these rows, with the name that its
row tells. -/
inductive DeclaresMembers (s : Session) (d : TypeDefinition) :
    List (Method × String) → List (Field × String) → Prop where
  | rows {m : Module} {row : TypeDefRow}
      {methods : List (NamedRow MethodDefRow)}
      {fields : List (NamedRow FieldRow)} :
      m ∈ s.system.registry.modules → m.name = d.module →
      m.image.typeDef? d.token = some row →
      m.image.NamesRows m.image.methodDef? MethodDefRow.name
        row.methods methods →
      m.image.NamesRows m.image.field? FieldRow.name row.fields fields →
      DeclaresMembers s d
        (m.listedMethods d s.system.memory (.definition d) methods)
        (m.listedFields d s.system.memory (.definition d) fields)

/-- A question that enumerates the methods of a type that pass a filter, or its
fields. -/
def Enumerates (t : Ty) (question : Question) : Prop :=
  (∃ filter, question = .ofType t (.methods filter)) ∨
    question = .ofType t .fields

/-- What a caller is told of the members of a type with a definition. -/
structure EnumeratesMembers (s : Session) (t : Ty) (d : TypeDefinition) :
    Prop where
  /-- The members of the definition are those of the rows that it lists, and the
  members of an applied definition are views of them. -/
  lists : ∃ methods fields, s.DeclaresMembers d methods fields ∧
    s.ListsMembers (.definition d) methods fields ∧
      ∀ arguments, t = .applied d arguments → s.ListsMembers t
        (methods.map fun entry => (.view entry.1 t, entry.2))
        (fields.map fun entry => (.view entry.1 t, entry.2))
  /-- Once enumerated, the members are always enumerated in the same way. -/
  repeats : ∀ question, Enumerates t question → ∃ items system,
    s.system.ask question.answer = (.ok items, system) ∧
      ∀ s', LeadsTo { system, items := s.items ++ items } s' →
        (s'.system.ask question.answer).1 = .ok items

/-- Whoever the members were met with before, a session has the answer. -/
theorem ask_eq_ok_of_shows {α : Type} {query : Query α} {a : α}
    {d : TypeDefinition}
    (h : query.Shows s.system.registry (Memory.OwnsAs d s.system.memory) a) :
    (s.system.ask query).1 = .ok a := by
  obtain ⟨memory', run, -⟩ := h s.system.memory ⟨fun _ => rfl, fun _ => rfl⟩
  exact congrArg Prod.fst run

/-- What is made from the answer to a query. -/
theorem ask_return {α β : Type} {query : Query α} {a : α} (f : α → β)
    (h : (s.system.ask query).1 = .ok a) :
    (s.system.ask (do return f (← query) : Query β)).1 = .ok (f a) := by
  have run : (do return f (← query) : Query β) s.system.registry s.system.memory
      = (pure (f a) : Query β) s.system.registry
        (query s.system.registry s.system.memory).2 :=
    bind_apply_ok (Prod.ext h rfl)
  exact congrArg Prod.fst run

/-- The members of a type are those that the row of its definition lists. -/
theorem IsReachable.listsMembers (h : s.IsReachable options) {m : Module}
    (hm : m ∈ s.system.registry.modules) {d : TypeDefinition}
    (named : m.name = d.module) {row : TypeDefRow}
    (hrow : m.image.typeDef? d.token = some row) {t : Ty}
    (hd : t.definition? = some d) {methods : List (NamedRow MethodDefRow)}
    (methodsTold : m.image.NamesRows m.image.methodDef? MethodDefRow.name
      row.methods methods)
    {fields : List (NamedRow FieldRow)}
    (fieldsTold : m.image.NamesRows m.image.field? FieldRow.name
      row.fields fields) :
    s.ListsMembers t (m.listedMethods d s.system.memory t methods)
      (m.listedFields d s.system.memory t fields) := by
  have live := h.live
  have proper := h.isFaithful.system.proper
  have answers {query : Query (List Item)} {items : List Item}
      (shows : query.Shows s.system.registry
        (Memory.OwnsAs d s.system.memory) items) :
      (s.system.ask query).1 = .ok items := ask_eq_ok_of_shows shows
  constructor
  · -- Methods under a filter.
    intro filter
    have listed :=
      answers (Ty.shows_methods_all proper live hm named hrow hd methodsTold
      (List.map (Item.ofResult Item.method)) filter)
    rw [List.map_map] at listed
    exact listed
  · -- The name of each method.
    intro entry hentry
    obtain ⟨told, htold, rfl⟩ := List.mem_map.mp hentry
    apply ask_return fun text => [Item.text text]
    rw [(Module.declaration_listedMethod told).2]
    exact h.ask_eq_ok (MethodDefinition.answers_text live hm rfl
      (methodsTold.of_mem htold))
  · -- The first method of a name.
    intro name substitution
    have found :=
      answers ((Ty.shows_method proper live hm named hrow hd methodsTold name
      substitution).map fun found => found.toList.map Item.method)
    rw [Option.toList_map, List.map_map] at found
    exact found
  · -- Fields.
    have listed :=
      answers (Ty.shows_fields_all proper live hm named hrow hd fieldsTold
      (List.map (Item.ofResult Item.field)))
    rw [List.map_map] at listed
    exact listed
  · -- The name of each field.
    intro entry hentry
    obtain ⟨told, htold, rfl⟩ := List.mem_map.mp hentry
    apply ask_return fun text => [Item.text text]
    rw [Module.name_listedField]
    exact h.ask_eq_ok (FieldDefinition.answers_text live hm rfl
      (fieldsTold.of_mem htold))
  · -- The first field of a name.
    intro name
    have found := answers
      ((Ty.shows_fieldNamed proper live hm named hrow hd fieldsTold name).map
      fun found => found.toList.map Item.field)
    rw [Option.toList_map, List.map_map] at found
    exact found

/-- A list of members is given again, unless it tells of failures. -/
theorem lasts_ofResult {α : Type} {query : Query (List (Except Error α))}
    (h : query.Lasts fun found => ∀ item ∈ found, ∃ a, item = .ok a)
    (item : α → Item) :
    (do return (← query).map (.ofResult item) : Query (List Item)).Lasts
      fun items => ∀ error, .failure error ∉ items := by
  refine h.bind_of (fun _ _ _ _ => .pure _)
    fun found lost registry memory items answer => ?_
  cases answer
  intro succeeds
  refine lost fun result hresult => ?_
  cases result with
  | ok a => exact ⟨a, rfl⟩
  | error error => exact absurd (List.mem_map_of_mem hresult) (succeeds error)

/-- In any session, the members of a type whose members have names are
enumerated by what they say of themselves, those of an applied definition are
views of those of the definition, and enumerating them again makes no
difference. -/
theorem IsReachable.enumeratesMembers (h : s.IsReachable options) {t : Ty}
    (held : t ∈ s.types) {d : TypeDefinition} (hd : t.definition? = some d)
    (named : d.NamesMembers s.system.registry.modules) :
    s.EnumeratesMembers t d := by
  cases (h.isFaithful.held t held).of_definition? hd with
  | definition declared _ =>
    obtain ⟨m, hm, row, hrow, rfl⟩ := declared
    obtain ⟨methodsNamed, fieldsNamed⟩ := named m hm rfl row hrow
    obtain ⟨methods, methodsTold⟩ := Image.exists_namesRows methodsNamed
    obtain ⟨fields, fieldsTold⟩ := Image.exists_namesRows fieldsNamed
    have lists {t : Ty} (hd : t.definition? = some (m.definitionOfRow row)) :=
      h.listsMembers hm rfl hrow hd methodsTold fieldsTold
    constructor
    · -- The lists are those of the rows, and views are made of them one by one.
      refine ⟨_, _, .rows hm rfl hrow methodsTold fieldsTold, lists rfl, ?_⟩
      rintro arguments rfl
      have views := lists hd
      rw [Module.listedMethods_applied, Module.listedFields_applied] at views
      exact views
    · -- Whatever is enumerated now is enumerated again.
      intro question enumerates
      have lasts : question.answer.Lasts fun items => ∀ error,
          .failure error ∉ items := by
        rcases enumerates with ⟨filter, rfl⟩ | rfl
        · exact t.lasts_methods_bind filter fun _ stay =>
            lasts_ofResult stay.lasts_all .method
        · exact t.lasts_fields_bind none fun _ stay =>
            lasts_ofResult stay.lasts_all .field
      have asked : ∃ items, (s.system.ask question.answer).1 = .ok items ∧
          ∀ error, .failure error ∉ items := by
        rcases enumerates with ⟨filter, rfl⟩ | rfl
        · exact ⟨_, (lists hd).enumeratesMethods filter, by simp⟩
        · exact ⟨_, (lists hd).enumeratesFields, by simp⟩
      obtain ⟨items, asked, succeeds⟩ := asked
      have run : s.system.ask question.answer
          = (.ok items, (s.system.ask question.answer).2) :=
        Prod.ext asked rfl
      exact ⟨items, _, run, fun s' later => h.asked_again lasts run
        succeeds later⟩

/-! A type with one parameter, two methods of one name, one of them virtual, and
a field. -/

def chestCalls : List ModuleBuilder.Call :=
  [.typeDef "N" "Chest`1" .public .null,
    .genericParam ⟨0x02000002⟩ "T" ⟨0⟩,
    .methodDef ⟨0x02000002⟩ "Open" ⟨0x6⟩ (.instance_ (.typeVar 0) []),
    .methodDef ⟨0x02000002⟩ "Open" ⟨0x1C6⟩ (.instance_ (.typeVar 0) []),
    .field ⟨0x02000002⟩ "content" ⟨6⟩ ⟨[], .typeVar 0⟩]

def chestModule :
    Module := .ofImage ((ModuleBuilder.new "App").applyAll chestCalls).image

def chest : TypeDefinition where
  module := "App"
  token := ⟨0x02000002⟩
  flags := .public
  name := 10
  namespaceName := 18
  base := .null

theorem declares_chest :
    chestModule.Declares ⟨0x02000002⟩ (.definition chest) := ⟨_, rfl, rfl⟩

theorem string_chestModule : chestModule.image.string 22 = .ok "Open" ∧
    chestModule.image.string 27 = .ok "content" :=
  ⟨string_of_storedAt rfl (by decide) ⟨StringHeap.written "content", by decide⟩,
    string_of_storedAt rfl (by decide) ⟨[], by decide⟩⟩

theorem namesMembers_chest : chest.NamesMembers [chestModule] := by
  obtain ⟨opens, content⟩ := string_chestModule
  intro m hm named row hrow
  obtain rfl := List.mem_singleton.mp hm
  cases hrow
  exact ⟨List.forall_mem_cons.mpr ⟨⟨_, rfl, _, opens⟩,
    List.forall_mem_singleton.mpr ⟨_, rfl, _, opens⟩⟩,
    List.forall_mem_singleton.mpr ⟨_, rfl, _, content⟩⟩

/-- The rows of the type tell two methods of one name, the second of them
virtual, and a field. -/
theorem DeclaresMembers.of_chest {s : Session}
    (same : s.system.registry.modules = [chestModule])
    {methods : List (Method × String)} {fields : List (Field × String)}
    (declared : s.DeclaresMembers chest methods fields) :
    ∃ first second content, methods = [(first, "Open"), (second, "Open")] ∧
      fields = [(content, "content")] ∧ first.flags.isVirtual = false ∧
        second.flags.isVirtual = true := by
  obtain ⟨opens, contains⟩ := string_chestModule
  cases declared with
  | @rows m row methods fields hm named hrow methodsTold fieldsTold =>
    rw [same] at hm
    obtain rfl := List.mem_singleton.mp hm
    cases hrow
    obtain _ | @⟨_, first, _, _, ⟨-, hfirst, firstName⟩, _ | @⟨_, second, _, _,
      ⟨-, hsecond, secondName⟩, _ | _⟩⟩ := methodsTold
    obtain _ | @⟨_, content, _, _, ⟨-, hcontent, contentName⟩, _ | _⟩ :=
      fieldsTold
    cases first with | mk _ _ firstText => ?_
    cases second with | mk _ _ secondText => ?_
    cases content with | mk _ _ contentText => ?_
    cases hfirst
    cases hsecond
    cases hcontent
    -- The rows are computed, but their names stand in a heap.
    obtain rfl : firstText = "Open" :=
      Except.ok.inj (firstName.symm.trans opens)
    obtain rfl : secondText = "Open" :=
      Except.ok.inj (secondName.symm.trans opens)
    obtain rfl : contentText = "content" :=
      Except.ok.inj (contentName.symm.trans contains)
    refine ⟨_, _, _, rfl, rfl, ?_, ?_⟩
    · rw [(Module.declaration_listedMethod _).1]
      exact (rfl : MethodFlags.isVirtual ⟨0x6⟩ = false)
    · rw [(Module.declaration_listedMethod _).1]
      exact (rfl : MethodFlags.isVirtual ⟨0x1C6⟩ = true)

/-- The members of the type are enumerated where it is applied to a variable.
Of its methods, one is virtual, and the other one is the first of the name. -/
theorem chest_enumeratesMembers : ∃ s : Session, s.IsReachable {} ∧
    .applied chest [.var 0 false] ∈ s.types ∧
    chest.NamesMembers s.system.registry.modules ∧
    s.EnumeratesMembers (.applied chest [.var 0 false]) chest ∧
    ∃ first second content,
      (s.system.ask (Question.ofType (.applied chest [.var 0 false])
        (.methods .virtual)).answer).1
        = .ok [.method (.view second (.applied chest [.var 0 false]))] ∧
      (s.system.ask (Question.ofType (.applied chest [.var 0 false])
        (.method "Open" none [])).answer).1
        = .ok [.method (.view first (.applied chest [.var 0 false]))] ∧
      (s.system.ask
        (Question.ofType (.applied chest [.var 0 false]) .fields).answer).1
        = .ok [.field (.view content (.applied chest [.var 0 false]))] ∧
      first.flags.isVirtual = false ∧ second.flags.isVirtual = true := by
  obtain ⟨s₁, careful₁, same₁, held₁⟩ :=
    exists_holds chestCalls (by constructor <;> decide)
    declares_chest
  obtain ⟨s₂, careful₂, same₂, items₂⟩ := careful₁.hold_var
  -- The definition and the variable are held, so that one may be applied to the
  -- other.
  have held₂ : ∀ t ∈ [Ty.definition chest, .var 0 false], t ∈ s₂.types := by
    refine List.forall_mem_cons.mpr ⟨?_, List.forall_mem_singleton.mpr ?_⟩
    · rw [types, items₂, List.flatMap_append]
      exact List.mem_append_left _ held₁
    · simp [types, items₂, Item.types, Ty.parts]
  have parameters : chest.HasParameters s₂.system.registry.modules
      [Ty.var 0 false].length := by
    rw [same₂, same₁]
    refine ⟨chestModule, List.mem_singleton_self _, rfl, rfl, ?_⟩
    decide
  obtain ⟨s, careful, same, items⟩ :=
    careful₂.hold_applied held₂ (Nat.le_refl 1) parameters
  have held : .applied chest [.var 0 false] ∈ s.types := by
    simp [types, items, Item.types]
  have modules : s.system.registry.modules = [chestModule] := by
    rw [same, same₂, same₁]
    rfl
  have named : chest.NamesMembers s.system.registry.modules :=
    modules ▸ namesMembers_chest
  have enumerates := IsReachable.enumeratesMembers careful.isReachable
    held rfl named
  -- The lists are those of the rows of the chest.
  obtain ⟨methods, fields, declared, -, views⟩ := enumerates.lists
  obtain ⟨first, second, content, rfl, rfl, plain, opens⟩ :=
    declared.of_chest modules
  have lists := views _ rfl
  refine ⟨s, careful.isReachable, held, named, enumerates, first, second,
    content, ?_,
    lists.findsMethod "Open" [], lists.enumeratesFields, plain, opens⟩
  rw [lists.enumeratesMethods .virtual]
  simp [MethodFilter.passes, plain, opens]

end Session

end CliMetadata
