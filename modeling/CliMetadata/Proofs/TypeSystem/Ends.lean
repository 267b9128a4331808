import CliMetadata.Proofs.Signature.Failures
import CliMetadata.Proofs.Table.Trail
import CliMetadata.Proofs.TypeSystem.Starting

/-!
# Queries that come to an end

A query that takes more steps than its registry allows runs in a circle.
`Query.Ends` says that this does not happen, whatever is remembered, as long as
it is settled.  Reading never runs in a circle (`Image.notCircular_string` and
its like), names and parameters are read, and types are built from types without
following tokens; so all of this ends.

A full name follows the tokens of the types around a type.  Where these are
tokens of definitions, it ends as well: the types around a type that is named
are followed only if they end, and then there are fewer of them than rows
(`TypeDefinition.ends_fullNameWithin_of_trail`).
-/

namespace CliMetadata

open Query

/-! ### Results that are not circles -/

/-- Whether an error says that something runs in a circle. -/
def Error.isCircular : Error → Bool
  | .circular .. => true
  | _ => false

/-- Whether an error says that something goes on for too long: in a circle, or
too deep. -/
def Error.isEndless : Error → Bool
  | .circular .. | .tooDeep _ => true
  | _ => false

/-- The result is not that something runs in a circle. -/
def NotCircular {α : Type} (result : Except Error α) : Prop :=
  ∀ name token, result ≠ .error (.circular name token)

namespace NotCircular

variable {α β : Type}

theorem ok (a : α) : NotCircular (.ok a : Except Error α) := by
  intro name token same
  cases same

theorem error {e : Error} (h : e.isCircular = false) :
    NotCircular (.error e : Except Error α) := by
  intro name token same
  cases same
  cases h

/-- An error is a circle or not, whatever the query was to answer. -/
theorem error_of {e : Error} (h : NotCircular (.error e : Except Error α)) :
    NotCircular (.error e : Except Error β) :=
  fun name token same => h name token
    (congrArg Except.error (Except.error.inj same))

theorem bind {result : Except Error α} {next : α → Except Error β}
    (first : NotCircular result) (second : ∀ a, NotCircular (next a)) :
    NotCircular (result >>= next) := by
  cases result with
  | error e => exact error_of first
  | ok a => exact second a

theorem map {result : Except Error α} (h : NotCircular result) (f : α → β) :
    NotCircular (result.map f) := by
  cases result with
  | error e => exact error_of h
  | ok a => exact ok (f a)

theorem of_isEndless {result : Except Error α}
    (h : ∀ e, result = .error e → e.isEndless = false) :
    NotCircular result := by
  intro name token circular
  cases h _ circular

/-- What cannot be read is no circle. -/
theorem of_isFailure {limit : Nat} {result : Except Error α}
    (h : ∀ e, result = .error e → Signature.IsFailure limit e) :
    NotCircular result := by
  cases result with
  | error e =>
    cases h e rfl with
    | malformed => exact error rfl
    | outOfBounds => exact error rfl
    | tooDeep => exact error rfl
  | ok a => exact ok a

end NotCircular

namespace Image

variable (image : Image)

/-- A text that cannot be read is no walk that goes on for too long. -/
theorem isEndless_stringHeap {e : Error} (h : image.stringHeap = .error e) :
    e.isEndless = false := by
  rw [stringHeap, StringHeap.ofBytes] at h
  split at h
  · cases h
  · cases h
    rfl

theorem isEndless_string {index : UInt32} {e : Error}
    (h : image.string index = .error e) :
    e.isEndless = false := by
  cases heap : image.stringHeap with
  | error _ =>
    rw [string, heap] at h
    cases h
    exact image.isEndless_stringHeap heap
  | ok strings =>
    have read : strings.get index = .error e := by
      rw [← h, string, heap]
      rfl
    -- With the heap there, only an index beyond it or a bad text is an error.
    rw [StringHeap.get] at read
    split at read
    · split at read
      · cases read
      · cases read
        rfl
    · cases read
      rfl

theorem notCircular_stringHeap : NotCircular image.stringHeap :=
  .of_isEndless fun _ => image.isEndless_stringHeap

theorem notCircular_string (index : UInt32) :
    NotCircular (image.string index) :=
  .of_isEndless fun _ => image.isEndless_string

theorem notCircular_blob (index : UInt32) : NotCircular (image.blob index) := by
  have heap : NotCircular image.blobHeap := by
    rw [blobHeap, BlobHeap.ofBytes]
    split
    · exact .ok _
    · exact .error rfl
  refine heap.bind fun heap => ?_
  rw [BlobHeap.get]
  split
  · have fails : BlobHeap.entry.FailsToRead 0 := BlobHeap.fails_entry
    exact .map (.of_isFailure (fails _)) _
  · exact .error rfl

theorem notCircular_nameEntry? (row : UInt32) :
    NotCircular (image.nameEntry? row) := by
  rw [Image.nameEntry?.eq_def]
  dsimp only
  split
  · split
    · exact .ok _
    · refine (image.notCircular_string _).bind
        fun _ => (image.notCircular_string _).bind fun _ => ?_
      exact .ok _
  · exact .error rfl

theorem notCircular_nameEntries (row count : Nat) :
    NotCircular (image.nameEntries row count) := by
  induction count generalizing row with
  | zero => exact .ok _
  | succ count ih =>
    exact (image.notCircular_nameEntry? _).bind fun _ => (ih (row + 1)).bind
      fun _ => .ok _

end Image

theorem Module.notCircular_index (m : Module) : NotCircular m.index := by
  rw [m.index_eq]
  exact m.image.notCircular_stringHeap.bind fun _ =>
    m.image.notCircular_nameEntries _ _

theorem Module.notCircular_definition (m : Module) (token : Token) :
    NotCircular (m.definition token) := by
  rw [Module.definition]
  split
  · exact .ok _
  · exact .error rfl

/-! ### Queries -/

namespace Query

variable {α β : Type} {registry : Registry}

/-- The query does not run in a circle, whatever is remembered. -/
def Ends (registry : Registry) (query : Query α) : Prop :=
  registry.IsSound → ∀ memory : Memory, memory.IsSettled registry →
    NotCircular (query registry memory).1

namespace Ends

variable {query : Query α} {lasting : Gap → α → Prop} {again : Nat → Query α}

theorem pure (a : α) :
    (Pure.pure a : Query α).Ends registry := fun _ _ _ => .ok a

theorem throw {error : Error} (h : error.isCircular = false) :
    (MonadExcept.throw error : Query α).Ends registry :=
  fun _ _ _ => .error h

/-- What would follow an error does not matter. -/
theorem throw_bind {error : Error} {next : α → Query β}
    (h : error.isCircular = false) :
    ((MonadExcept.throw error : Query α) >>= next).Ends registry :=
  fun _ _ _ => .error h

theorem of_sound (h : registry.IsSound → query.Ends registry) :
    query.Ends registry :=
  fun sound => h sound sound

theorem bind_told {next : α → Query β} {P : α → Prop}
    (first : query.Ends registry)
    (transfers : query.Transfers .none registry registry lasting again)
    (told : query.Tells .none registry registry P)
    (second : ∀ a, P a → (next a).Ends registry) :
    (query >>= next).Ends registry := by
  intro sound memory settled
  have leads : registry.LeadsTo .none registry := .rfl sound.live
  have ends := first sound memory settled
  have kept := (transfers leads sound memory settled).1
  -- The first query may fail, though not in a circle, and else leaves behind
  -- what is settled.
  rcases hrun : query registry memory with ⟨e | a, memory'⟩
  · rw [hrun] at ends
    rw [bind_apply_error hrun]
    exact .error_of ends
  · rw [hrun] at kept
    rw [bind_apply_ok hrun]
    exact second a (told leads sound memory settled a (by rw [hrun])) sound
      memory' kept

theorem bind {next : α → Query β} (first : query.Ends registry)
    (transfers : query.Transfers .none registry registry lasting again)
    (second : ∀ a, (next a).Ends registry) : (query >>= next).Ends registry :=
  first.bind_told transfers .trivial fun a _ => second a

theorem read_bind {next : Registry → Query α}
    (h : (next registry).Ends registry) :
    (MonadReader.read >>= next : Query α).Ends registry :=
  h

theorem lift {result : Except Error α} (h : NotCircular result) :
    (liftM result : Query α).Ends registry := by
  cases result with
  | error e => exact fun _ _ _ => h
  | ok a => exact pure a

theorem lift_bind {result : Except Error α} {next : α → Query β}
    (h : NotCircular result)
    (second : ∀ a, result = .ok a → (next a).Ends registry) :
    (liftM result >>= next : Query β).Ends registry := by
  cases result with
  | error e => exact fun _ _ _ => .error_of h
  | ok a => exact second a rfl

theorem ite {c : Prop} [Decidable c] {other : Query α}
    (first : c → query.Ends registry) (second : ¬ c → other.Ends registry) :
    (if c then query else other).Ends registry := by
  split
  · next hc => exact first hc
  · next hc => exact second hc

theorem attempt (h : query.Ends registry) : query.attempt.Ends registry := by
  intro sound memory settled
  have ends := h sound memory settled
  rcases hrun : query registry memory with ⟨outcome, memory'⟩
  rw [hrun] at ends
  rw [attempt_apply hrun ends]
  exact .ok outcome

theorem share (t : Ty) : (Query.share t).Ends registry := by
  intro _ memory _
  rw [share_eq]
  exact .ok t

theorem rememberIf {fact : Fact} {isKept : fact.Value → Bool}
    {find : Query fact.Value} (h : find.Ends registry) :
    (Query.rememberIf fact isKept find).Ends registry := by
  intro sound memory settled
  -- What is remembered is answered at once.
  cases known : memory.facts.get? fact with
  | some value =>
    rw [rememberIf_apply_some known]
    exact .ok value
  | none =>
    have ends := h sound memory settled
    rcases hrun : find registry memory with ⟨e | value, memory'⟩
    · rw [rememberIf_apply_error known hrun]
      rwa [hrun] at ends
    · rw [rememberIf_apply_ok known hrun]
      exact .ok value

theorem remember {fact : Fact} {find : Query fact.Value}
    (h : find.Ends registry) :
    (Query.remember fact find).Ends registry :=
  rememberIf h

end Ends

end Query

variable {registry : Registry}

/-! ### The type system -/

theorem ends_requireTypeSystem : requireTypeSystem.Ends registry :=
  .read_bind (.ite (fun _ => .pure _) fun _ => .throw rfl)

theorem ends_requireTypeSystem_bind {α : Type} {next : Unit → Query α}
    (h : ∀ u, (next u).Ends registry) :
    (requireTypeSystem >>= next).Ends registry :=
  ends_requireTypeSystem.bind transfers_requireTypeSystem h

theorem ends_reachModule (name : String) :
    (reachModule name).Ends registry := by
  refine .read_bind ?_
  split
  · exact .ite (fun _ => .pure _) fun _ => .throw rfl
  · exact .throw rfl

/-- A query at a module that can be reached. -/
theorem ends_reachModule_bind {α : Type} {name : String}
    {next : Module → Query α}
    (h : ∀ m ∈ registry.modules, m.name = name → (next m).Ends registry) :
    (reachModule name >>= next).Ends registry :=
  (ends_reachModule name).bind_told (transfers_reachModule name)
    (tells_reachModule name)
    fun m hm => h m hm.1 hm.2

theorem ends_wellKnown (kind : WellKnown) : (wellKnown kind).Ends registry := by
  refine .read_bind ?_
  split
  · exact .pure _
  · exact .throw rfl

/-! ### Names and parameters -/

theorem TypeDefinition.ends_simpleName (d : TypeDefinition) :
    d.simpleName.Ends registry :=
  .remember (ends_reachModule_bind fun m _ _ => .lift
    (m.image.notCircular_string _))

theorem TypeDefinition.ends_namespaceText (d : TypeDefinition) :
    d.namespaceText.Ends registry :=
  .remember (ends_reachModule_bind fun m _ _ => .lift
    (m.image.notCircular_string _))

theorem GenericParameter.ends_simpleName (p : GenericParameter) :
    p.simpleName.Ends registry :=
  .remember (ends_reachModule_bind fun m _ _ => .lift
    (m.image.notCircular_string _))

theorem Module.ends_parameters (m : Module) (tokens : List Token) :
    (m.parameters tokens).Ends registry := by
  have parameter (token : Token) : (m.parameter token).Ends registry := by
    refine .lift_bind ?_ fun t _ => .share t
    rw [Module.genericParameter]
    split
    · exact .ok _
    · exact .error rfl
  induction tokens with
  | nil => exact .pure _
  | cons token rest ih =>
    refine (parameter token).bind (m.transfers_parameter token) fun _ => ?_
    exact ih.bind (m.transfers_parameters rest) fun _ => .pure _

theorem TypeDefinition.ends_parameters (d : TypeDefinition) :
    d.parameters.Ends registry :=
  .remember (ends_reachModule_bind fun m _ _ => m.ends_parameters _)

theorem ends_shapeOf (shape : Shape) (element : Ty) :
    (shapeOf shape element).Ends registry := by
  cases shape with
  | array rank => exact .ite (fun _ => .throw_bind rfl) fun _ => .share _
  | vector => exact .share _
  | byRef => exact .share _
  | pointer => exact .share _

/-! ### Names of built types -/

mutual

theorem Ty.ends_fullNameFrom {nameOf : TypeDefinition → Query String}
    {nameAgain : Nat → TypeDefinition → Query String}
    (names : ∀ d, (nameOf d).Ends registry)
    (transfers : ∀ d, (nameOf d).Transfers .none registry registry whereComplete
      fun l => nameAgain l d) :
    (t : Ty) → (t.fullNameFrom nameOf).Ends registry
  | .definition d => names d
  | .applied d arguments => by
    have each := Ty.ends_fullNamesFrom names transfers arguments
    refine each.bind (Ty.transfers_fullNamesFrom transfers arguments)
      fun _ => ?_
    exact (names d).bind (transfers d) fun _ => .pure _
  | .parameter p => p.ends_simpleName
  | .var .. => .pure _
  | .shaped _ element => by
    have inner := Ty.ends_fullNameFrom names transfers element
    exact inner.bind (Ty.transfers_fullNameFrom transfers element)
      fun _ => .pure _

theorem Ty.ends_fullNamesFrom {nameOf : TypeDefinition → Query String}
    {nameAgain : Nat → TypeDefinition → Query String}
    (names : ∀ d, (nameOf d).Ends registry)
    (transfers : ∀ d, (nameOf d).Transfers .none registry registry whereComplete
      fun l => nameAgain l d) :
    (types : List Ty) → (Ty.fullNamesFrom nameOf types).Ends registry
  | [] => .pure _
  | t :: rest => by
    have first := Ty.ends_fullNameFrom names transfers t
    refine first.bind (Ty.transfers_fullNameFrom transfers t) fun _ => ?_
    have others := Ty.ends_fullNamesFrom names transfers rest
    exact others.bind (Ty.transfers_fullNamesFrom transfers rest)
      fun _ => .pure _

end

/-! ### The types around a type -/

/-- Where the types around a type end, the type is not one of them. -/
theorem Image.not_reflTransGen_of_nestingEnds {image : Image}
    {type current : Token} {room : Nat}
    (h : image.nestingEnds type room current = true) :
    ¬ Relation.ReflTransGen (fun a b => image.enclosing? a = some b)
      current type := by
  induction room generalizing current with
  | zero => cases h
  | succ room ih =>
    rw [nestingEnds, Bool.and_eq_true, decide_eq_true_eq] at h
    obtain ⟨different, ends⟩ := h
    intro leads
    -- The check goes the same way, and stops where it meets the type.
    rcases Relation.ReflTransGen.cases_head leads
      with same | ⟨next, step, leads⟩
    · exact different same
    · rw [step] at ends
      exact ih ends leads

/-- The types around all types are told by tokens of definitions. -/
def Registry.NestsInDefinitions (registry : Registry) : Prop :=
  ∀ m ∈ registry.modules, ∀ token, m.NestsInDefinitions token

/-- A way from tokens to types that follows the tokens of definitions to what
they declare. -/
structure Resolver.FollowsDefinitions (registry : Registry)
    (resolve : Resolver) : Prop where
  transfers : ∃ again, resolve.Transfers .none registry registry again
  ends : ∀ m ∈ registry.modules, ∀ token, token.isIn .typeDef →
    (resolve m token).Ends registry
  declares : ∀ m ∈ registry.modules, ∀ token, token.isIn .typeDef →
    (resolve m token).Tells .none registry registry fun found =>
      ∀ t ∈ found, m.Declares token t

/-- The tokens by which types can be found. -/
def Image.typeDefTokens (image : Image) : List Token :=
  rowTokens .typeDef image.tables.typeDefs image.amendments.typeDefs

/-- Where something is counted for each item, the end is above what is counted
for one. -/
theorem exists_le_foldl {α : Type} {count : Nat → α → Nat}
    (grows : ∀ n a, n ≤ count n a) {items : List α} {a : α} (ha : a ∈ items)
    (n : Nat) :
    ∃ k, n ≤ k ∧ count k a ≤ items.foldl count n := by
  induction items generalizing n with
  | nil => cases ha
  | cons b rest ih =>
    rw [List.foldl_cons]
    rcases List.mem_cons.mp ha with rfl | ha
    · exact ⟨n, le_rfl, le_foldl grows rest _⟩
    · obtain ⟨k, hk, below⟩ := ih ha (count n b)
      exact ⟨k, (grows n b).trans hk, below⟩

/-- A registry gives room for more types around a type than a module has. -/
theorem Registry.length_typeDefTokens_lt (registry : Registry) {m : Module}
    (hm : m ∈ registry.modules) :
    m.image.typeDefTokens.length < registry.nestingBound := by
  let count (rows : Nat) (m : Module) : Nat :=
    rows + m.image.tables.typeDefs.size + m.image.amendments.typeDefs.length
  have grows (n : Nat) (m : Module) : n ≤ count n m := by
    show n ≤ n + _ + _
    omega
  obtain ⟨k, hk, below⟩ := exists_le_foldl grows hm (registry.patience + 1)
  refine Nat.lt_of_lt_of_le ?_ below
  show _ < k + _ + _
  rw [Image.typeDefTokens, length_rowTokens]
  omega

/-- The token of the type around a type leads to it. -/
abbrev Image.Encloses (image : Image) (inner outer : Token) : Prop :=
  image.enclosing? inner = some outer

section
variable {resolve : Resolver} (nests : registry.NestsInDefinitions)
  (follows : resolve.FollowsDefinitions registry)
include nests follows

/-- The type around a type is looked for. -/
theorem TypeDefinition.ends_containingWith (d : TypeDefinition) :
    (d.containingWith resolve).Ends registry := by
  refine .ite (fun _ => .pure _) fun _ => ends_reachModule_bind
    fun m hm named => ?_
  cases around : m.image.enclosing? d.token with
  | none => exact .throw rfl
  | some outer =>
    have isIn := nests m hm d.token d.token .refl outer around
    refine ends_requireTypeSystem_bind fun _ => .read_bind ?_
    exact .ite (fun _ => follows.ends m hm outer isIn) fun _ => .throw_bind rfl

/-- The type around a type is declared by the token that tells it, and the types
around it do not lead back. -/
theorem TypeDefinition.tells_containingWith (d : TypeDefinition) :
    (d.containingWith resolve).Tells .none registry registry
      fun found => ∀ t ∈ found,
        ∃ m ∈ registry.modules, m.name = d.module ∧
          ∃ outer, m.image.Encloses d.token outer ∧ m.Declares outer t ∧
            ¬ Relation.ReflTransGen m.image.Encloses outer d.token := by
  refine .ite (fun _ => .pure fun t ht => absurd ht (Option.not_mem_none t))
    fun _ => ?_
  refine (transfers_reachModule _).tells_bind (tells_reachModule _)
    fun m hm => ?_
  cases around : m.image.enclosing? d.token with
  | none => exact (Fails.throw _).tells
  | some outer =>
    have isIn := nests m hm.1 d.token d.token .refl outer around
    refine transfers_requireTypeSystem.tells_bind .trivial
      fun _ _ => .read_bind ?_
    -- A chain that is too long is an error, and no type is told.
    refine .ite (fun ends => ?_) fun _ => (Fails.throw_bind _ _).tells
    refine (follows.declares m hm.1 outer isIn).imp
      fun found declares t ht => ?_
    exact ⟨m, hm.1, hm.2, outer, around, declares t ht,
      Image.not_reflTransGen_of_nestingEnds ends⟩

/-- A definition can be named if those can that it is nested in. -/
theorem TypeDefinition.ends_fullNameWithin_succ {d : TypeDefinition}
    {room : Nat}
    (outer : ∀ m ∈ registry.modules, m.name = d.module → ∀ token row,
      m.image.Encloses d.token token → m.image.typeDef? token = some row →
      ¬ Relation.ReflTransGen m.image.Encloses token d.token →
      ((m.definitionOfRow row).fullNameWithin resolve room).Ends registry) :
    (d.fullNameWithin resolve (room + 1)).Ends registry := by
  obtain ⟨again, transfers⟩ := follows.transfers
  refine d.ends_simpleName.bind d.transfers_simpleName fun name => ?_
  refine (d.ends_containingWith nests follows).bind_told
    (d.transfers_containingWith transfers)
    (d.tells_containingWith nests follows) fun found told => ?_
  cases found with
  | none =>
    -- The name is that of an outermost type.
    exact d.ends_namespaceText.bind d.transfers_namespaceText fun _ => .pure _
  | some t =>
    -- The type outside is told by a row that does not lead back.
    obtain ⟨m, hm, named, token, around, ⟨row, hrow, rfl⟩, away⟩ := told t rfl
    have ends := outer m hm named token row around hrow away
    have transfers' := TypeDefinition.transfers_fullNameWithin transfers room
      Filter.tendsto_id (m.definitionOfRow row)
    exact ends.bind transfers' fun _ => .pure _

/-- The types that a definition is nested in are all different, and rows of its
module. -/
theorem TypeDefinition.ends_fullNameWithin_of_trail {m : Module}
    (hm : m ∈ registry.modules) {d : TypeDefinition} (named : m.name = d.module)
    {visited : List Token}
    (trail : Trail m.image.Encloses m.image.typeDefTokens visited d.token)
    {room : Nat}
    (enough : m.image.typeDefTokens.length ≤ room + visited.length) :
    (d.fullNameWithin resolve room).Ends registry := by
  refine .of_sound fun sound => ?_
  induction room generalizing d visited with
  | zero =>
    have := trail.length_lt
    omega
  | succ room ih =>
    refine ends_fullNameWithin_succ nests follows
      fun n hn named' token row around hrow away => ?_
    obtain rfl := sound.proper.eq_of_name_eq hm hn (named.trans named'.symm)
    have same : (m.definitionOfRow row).token = token :=
      (sound.proper.rows m hm).typeDef hrow
    -- One more type is behind, and it is not met again.
    have trail' := trail.step around (mem_rowTokens hrow) away
    rw [← same] at trail'
    refine ih rfl trail' ?_
    rw [List.length_cons]
    omega

/-- A registry gives room for the full names of all types. -/
theorem Ty.ends_fullNameWith (t : Ty) :
    (t.fullNameWith resolve).Ends registry := by
  obtain ⟨again, transfers⟩ := follows.transfers
  have names (d : TypeDefinition) :
      (d.fullNameWithin resolve registry.nestingBound).Ends registry := by
    have positive : 0 < registry.nestingBound :=
      Nat.lt_of_lt_of_le (Nat.succ_pos _) (le_foldl (fun _ _ => by omega) _ _)
    obtain ⟨room, hroom⟩ := Nat.exists_eq_add_one_of_ne_zero positive.ne'
    rw [hroom]
    -- The definition may be none of a module, but what it is nested in is a
    -- row.
    refine TypeDefinition.ends_fullNameWithin_succ nests follows
      fun m hm _ token row _ hrow _ => ?_
    refine .of_sound fun sound => ?_
    have same : (m.definitionOfRow row).token = token :=
      (sound.proper.rows m hm).typeDef hrow
    have trail : Trail m.image.Encloses m.image.typeDefTokens [] token :=
      .start (mem_rowTokens hrow)
    rw [← same] at trail
    refine TypeDefinition.ends_fullNameWithin_of_trail nests follows hm
      rfl trail ?_
    have below := registry.length_typeDefTokens_lt hm
    rw [List.length_nil]
    omega
  have transfers' (d : TypeDefinition) :=
    d.transfers_fullNameWithin transfers registry.nestingBound Filter.tendsto_id
  exact .read_bind (t.ends_fullNameFrom names transfers')

theorem Ty.ends_displayWith (t : Ty) :
    (t.displayWith resolve).Ends registry := by
  obtain ⟨again, transfers⟩ := follows.transfers
  have transfers' := (t.transfers_fullNameWith transfers).attempt
  exact (t.ends_fullNameWith nests follows).attempt.bind transfers'
    fun _ => .pure _

theorem ends_instantiateWith (definition : Ty) (arguments : List Ty) :
    (instantiateWith resolve definition arguments).Ends registry := by
  obtain ⟨again, transfers⟩ := follows.transfers
  have display {error : String → Error}
      (other : ∀ text, (error text).isCircular = false) :
      (do throw (error (← definition.displayWith resolve)) : Query Ty).Ends
        registry :=
    (definition.ends_displayWith nests follows).bind
      (definition.transfers_displayWith transfers)
      fun text => .throw (other text)
  cases definition with
  | definition d =>
    refine d.ends_parameters.bind d.transfers_parameters fun own => ?_
    exact .ite (fun _ => display fun _ => rfl) fun _ => .share _
  | _ => exact display fun _ => rfl

end

end CliMetadata
