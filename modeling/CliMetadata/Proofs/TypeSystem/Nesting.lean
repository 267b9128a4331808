import CliMetadata.Proofs.TypeSystem.Ends
import CliMetadata.Proofs.TypeSystem.Lasting.Questions

/-!
# Types within types

The type around a type is told by a row, and rows may tell anything: a chain of
any length, or a circle.  The type around a nested type is given only if the
chain of rows outward from it has no more members than the limit
(`Image.nestingEnds_iff`).  This refuses circles as well: a chain that comes
back to a type it has left never ends (`Image.isSome_outward_of_reflTransGen`).

Full names and hashes go through all types around a type and do not count them.
They need not.  Once the type around a type is given, the chain outward from
there is shorter, so that no later step meets the limit
(`Module.Surrounds.not_isTooDeep`), and the types that are left behind are all
different (`Module.StepsOutward.failsBy_of_trail`).  So names and hashes come to
an end however types are nested, and the limit decides about the first step
alone (`Session.IsReachable.boundsNesting`).

Nothing has to be settled for this.  It is enough that the rows name
definitions, for the token of a definition is never remembered to lead to
anything else (`Module.ensures_type_declares`).
-/

namespace CliMetadata

open Query

/-! ### Chains of enclosing types -/

namespace Image

variable (image : Image)

/-- The type that is some steps outward from a type. -/
def outward : Nat → Token → Option Token
  | 0, type => some type
  | n + 1, type => (image.enclosing? type).bind (outward n)

variable {image} {type current outer : Token} {n room : Nat}

theorem outward_succ (encloses : image.Encloses type outer) :
    image.outward (n + 1) type = image.outward n outer := by
  simp [outward, encloses]

/-- A chain that has ended does not go on. -/
theorem outward_succ_eq_none (h : image.outward n type = none) :
    image.outward (n + 1) type = none := by
  induction n generalizing type with
  | zero => cases h
  | succ n ih =>
    cases around : image.enclosing? type with
    | none => simp [outward, around]
    | some outer =>
      rw [outward_succ around] at h ⊢
      exact ih h

/-- A chain that meets a type which it has left goes on for ever. -/
theorem isSome_outward_of_reflTransGen
    (circle : Relation.TransGen image.Encloses type type)
    (leads : Relation.ReflTransGen image.Encloses current type) (n : Nat) :
    (image.outward n current).isSome := by
  induction n generalizing current with
  | zero => rfl
  | succ n ih =>
    have further : Relation.TransGen image.Encloses current type :=
      circle.trans_right leads
    obtain ⟨next, step, leads'⟩ := Relation.TransGen.head'_iff.mp further
    rw [outward_succ step]
    exact ih leads'

theorem outward_eq_none_of_nestingEnds
    (h : image.nestingEnds type room current = true) :
    image.outward room current = none := by
  induction room generalizing current with
  | zero => cases h
  | succ room ih =>
    rw [nestingEnds, Bool.and_eq_true] at h
    obtain ⟨-, ends⟩ := h
    cases around : image.enclosing? current with
    | none => simp [outward, around]
    | some next =>
      rw [around] at ends
      rw [outward_succ around]
      exact ih ends

theorem nestingEnds_of_outward_eq_none (h : image.outward room current = none)
    (away : ¬ Relation.ReflTransGen image.Encloses current type) :
    image.nestingEnds type room current = true := by
  induction room generalizing current with
  | zero => cases h
  | succ room ih =>
    have different : current ≠ type := fun same => away (same ▸ .refl)
    rw [nestingEnds, decide_eq_true different, Bool.true_and]
    cases around : image.enclosing? current with
    | none => rfl
    | some next =>
      rw [outward_succ around] at h
      exact ih h fun leads => away (.head around leads)

/-- The types around a type end within the limit if there are no more of them,
one in a circle being in no chain that ends. -/
theorem nestingEnds_iff (encloses : image.Encloses type outer) :
    image.nestingEnds type room outer = true ↔
    image.outward (room + 1) type = none := by
  rw [outward_succ encloses]
  refine ⟨outward_eq_none_of_nestingEnds,
    fun h => nestingEnds_of_outward_eq_none h fun leads => ?_⟩
  have circle : Relation.TransGen image.Encloses type type :=
    .head' encloses leads
  have goes := isSome_outward_of_reflTransGen circle leads room
  rw [h] at goes
  cases goes

end Image

/-! ### What queries fail with -/

namespace Query

variable {α β : Type} {registry : Registry}

/-- Whatever faithful memory the query is asked in, a condition holds of the
error if it fails. -/
def FailsBy (registry : Registry) (query : Query α) (P : Error → Prop) : Prop :=
  ∀ memory : Memory, memory.IsFaithful registry true →
    ∀ e, (query registry memory).1 = .error e → P e

namespace FailsBy

variable {query : Query α} {P P' : Error → Prop}

theorem pure (a : α) : (Pure.pure a : Query α).FailsBy registry P := nofun

theorem imp (h : query.FailsBy registry P) (weaken : ∀ e, P e → P' e) :
    query.FailsBy registry P' :=
  fun memory faithful e failed => weaken e (h memory faithful e failed)

/-- The next query fails as it may where the first has left the memory
faithful. -/
theorem bind {next : α → Query β} {R : (Ty → Prop) → α → Prop}
    (first : query.FailsBy registry P)
    (kept : query.Ensures registry true (fun _ => False) R)
    (second : ∀ shared a, R shared a → (next a).FailsBy registry P) :
    (query >>= next).FailsBy registry P := by
  intro memory faithful e failed
  obtain ⟨-, faithful', answer⟩ := kept memory faithful fun _ => False.elim
  rcases hrun : query registry memory with ⟨error | a, memory'⟩
  · rw [bind_apply_error hrun] at failed
    cases failed
    exact first memory faithful e (by rw [hrun])
  · rw [bind_apply_ok hrun] at failed
    rw [hrun] at faithful' answer
    exact second _ a (answer a rfl) memory' faithful' e failed

/-- A query that looks at the registry first. -/
theorem read_bind {next : Registry → Query β}
    (h : (next registry).FailsBy registry P) :
    (MonadReader.read >>= next).FailsBy registry P := h

theorem lift {result : Except Error α} (h : ∀ e, result = .error e → P e) :
    (liftM result : Query α).FailsBy registry P := by
  intro memory _ e failed
  cases result with
  | error error =>
    cases failed
    exact h e rfl
  | ok a => cases failed

/-- What is remembered is no error. -/
theorem rememberIf {fact : Fact} {isKept : fact.Value → Bool}
    {find : Query fact.Value} (h : find.FailsBy registry P) :
    (Query.rememberIf fact isKept find).FailsBy registry P := by
  intro memory faithful e failed
  cases known : memory.facts.get? fact with
  | some value =>
    rw [rememberIf_apply_some known] at failed
    cases failed
  | none =>
    rw [rememberIf_apply_unknown known] at failed
    exact h memory faithful e failed

end FailsBy

end Query

section
variable {registry : Registry} {tracked : Bool} {shared : Ty → Prop}

theorem failsBy_reachModule (name : String) :
    (reachModule name).FailsBy registry (·.isEndless = false) := by
  intro memory _ e failed
  have reads : (MonadReader.read : Query Registry) registry memory
      = (.ok registry, memory) := rfl
  rw [reachModule, bind_apply_ok reads] at failed
  cases found : registry.module? name with
  | none =>
    rw [found] at failed
    cases failed
    rfl
  | some m =>
    rw [found] at failed
    dsimp only at failed
    -- A module that is there may have been released.
    split at failed
    · cases failed
    · cases failed
      rfl

theorem TypeDefinition.failsBy_simpleName (d : TypeDefinition) :
    d.simpleName.FailsBy registry (·.isEndless = false) :=
  .rememberIf ((failsBy_reachModule _).bind (ensures_reachModule _) fun _ m _ =>
    .lift fun _ => m.image.isEndless_string)

theorem TypeDefinition.failsBy_namespaceText (d : TypeDefinition) :
    d.namespaceText.FailsBy registry (·.isEndless = false) :=
  .rememberIf ((failsBy_reachModule _).bind (ensures_reachModule _) fun _ m _ =>
    .lift fun _ => m.image.isEndless_string)

/-- To follow the token of a definition takes one step. -/
theorem Module.failsBy_type {m : Module} {token : Token}
    (isIn : token.isIn .typeDef) :
    (m.type token).FailsBy registry (·.isEndless = false) := by
  have row (room : Nat) :
      (m.typeWith (Module.typeWithin room) token).FailsBy registry
        (·.isEndless = false) := by
    intro memory _ e failed
    rw [Module.typeWith_of_isIn isIn, Module.definition] at failed
    cases hrow : m.image.typeDef? token with
    | none =>
      rw [hrow] at failed
      cases failed
      rfl
    | some _ =>
      rw [hrow] at failed
      cases failed
  intro memory faithful e failed
  obtain ⟨room, run⟩ := m.type_apply token registry memory
  rw [run] at failed
  -- A null token is answered, and any other one is looked up.
  by_cases hnull : token.isNull = true
  · rw [Module.typeWithin, if_pos hnull] at failed
    cases failed
  · rw [Module.typeWithin_succ hnull] at failed
    exact FailsBy.rememberIf (row room) memory faithful e failed

/-- The token of a definition leads to what it declares, whatever is
remembered. -/
theorem Module.ensures_type_declares {m : Module} (hm : m ∈ registry.modules)
    {token : Token} (isIn : token.isIn .typeDef) :
    (m.type token).Ensures registry tracked shared fun _ found =>
      ∀ t ∈ found, ∃ d, t = .definition d ∧ d.module = m.name ∧
        d.token = token ∧
        m.Declares token t := by
  refine .of_proper fun proper => .read_bind ?_
  refine (Module.ensures_typeWithin _ hm token).imp fun _ found told t ht => ?_
  obtain ⟨nodes, declared⟩ := told
  obtain ⟨d, rfl, named, rfl⟩ := declared isIn t ht
  cases nodes _ (Option.mem_toList.mpr ht) with
  | definition declares =>
    obtain ⟨n, hn, row, hrow, rfl⟩ := declares
    obtain rfl := proper.eq_of_name_eq hn hm named
    exact ⟨_, rfl, rfl, rfl, row, hrow, rfl⟩

end

/-! ### The type around a type -/

/-- More types are around a nested definition than the limit allows. -/
def TypeDefinition.IsTooDeep (d : TypeDefinition) (m : Module) (limit : Nat) :
    Prop :=
  d.flags.isNested = true ∧ (m.image.outward (limit + 1) d.token).isSome

/-- What a question that follows the types around a definition may fail with. -/
def Module.FailsAs (m : Module) (limit : Nat) (d : TypeDefinition) (e : Error) :
    Prop :=
  e.isEndless = false ∨ e = .tooDeep limit ∧ d.IsTooDeep m limit

theorem Module.Declares.name_eq {m : Module} {token : Token}
    {d : TypeDefinition} (h : m.Declares token (.definition d)) :
    m.name = d.module := by
  obtain ⟨row, -, same⟩ := h
  cases same
  rfl

/-- The definition is nested in another one, and the types around it are no more
than the limit allows. -/
structure Module.Surrounds (m : Module) (limit : Nat)
    (outer inner : TypeDefinition) : Prop where
  declares : m.Declares outer.token (.definition outer)
  isNested : inner.flags.isNested = true
  encloses : m.image.Encloses inner.token outer.token
  within : m.image.outward (limit + 1) inner.token = none

section
variable {registry : Registry} {tracked : Bool} {shared : Ty → Prop}
  {m : Module} {limit : Nat} {outer d : TypeDefinition} {token : Token}

/-- The definition around one that is not nested too deeply is not nested too
deeply. -/
theorem Module.Surrounds.not_isTooDeep (h : m.Surrounds limit outer d) :
    ¬ outer.IsTooDeep m limit := by
  intro deep
  have ends := Image.outward_succ_eq_none h.within
  rw [Image.outward_succ h.encloses] at ends
  have goes := deep.2
  rw [ends] at goes
  cases goes

theorem Module.Surrounds.failsAs (h : m.Surrounds limit outer d) {e : Error}
    (fails : m.FailsAs limit outer e) : m.FailsAs limit d e :=
  fails.imp_right fun deep => absurd deep.2 h.not_isTooDeep

theorem Module.Surrounds.nests (h : m.Surrounds limit outer d)
    (nests : m.NestsInDefinitions d.token) : m.NestsInDefinitions outer.token :=
  fun inner leads => nests inner (.head h.encloses leads)

theorem Module.Surrounds.away (h : m.Surrounds limit outer d) :
    ¬ Relation.ReflTransGen m.image.Encloses outer.token d.token := by
  intro leads
  have goes := Image.isSome_outward_of_reflTransGen
    (.head' h.encloses leads) .refl (limit + 1)
  rw [h.within] at goes
  cases goes

section
variable (proper : registry.IsProper) (live : registry.held = none)
  (hm : m ∈ registry.modules) (named : m.name = d.module) (memory : Memory)
include proper live hm named

/-- A nested definition is in a type if the chain outward from it is within the
limit. -/
theorem TypeDefinition.containing_apply (nested : d.flags.isNested = true)
    (encloses : m.image.Encloses d.token token) :
    d.containing registry memory =
      if (m.image.outward (registry.options.maxInheritanceDepth + 1)
        d.token).isSome
      then (.error (.tooDeep registry.options.maxInheritanceDepth), memory)
      else m.type token registry memory := by
  have reach := reachModule_apply proper live hm memory
  rw [named] at reach
  have reads : (MonadReader.read : Query Registry) registry memory
      = (.ok registry, memory) := rfl
  rw [containing, containingWith, if_neg (not_not.mpr nested),
    bind_apply_ok reach, encloses]
  dsimp only
  rw [bind_apply_ok (requireTypeSystem_apply live), bind_apply_ok reads]
  -- Whether the walk ends in time is what `outward` tells.
  by_cases ends : m.image.nestingEnds d.token
    registry.options.maxInheritanceDepth token = true
  · rw [if_pos ends, (Image.nestingEnds_iff encloses).mp ends]
    rfl
  · have goes := mt (Image.nestingEnds_iff encloses).mpr ends
    rw [if_neg ends, if_pos (Option.isSome_iff_ne_none.mpr goes)]
    rfl

theorem TypeDefinition.IsTooDeep.containing_apply
    (deep : d.IsTooDeep m registry.options.maxInheritanceDepth) :
    d.containing registry memory
      = (.error (.tooDeep registry.options.maxInheritanceDepth), memory) := by
  obtain ⟨nested, goes⟩ := deep
  cases around : m.image.enclosing? d.token with
  | none =>
    rw [Image.outward, around] at goes
    cases goes
  | some outer =>
    simp [TypeDefinition.containing_apply proper live hm named memory nested
      around, goes]

/-- The type around a definition is not there, or not told, or too many are, or
its token is followed. -/
theorem TypeDefinition.containing_cases :
    d.containing registry memory = (.ok none, memory) ∨
    (∃ e, e.isEndless = false ∧
      d.containing registry memory = (.error e, memory)) ∨
    (d.IsTooDeep m registry.options.maxInheritanceDepth ∧
      d.containing registry memory
        = (.error (.tooDeep registry.options.maxInheritanceDepth), memory)) ∨
    ∃ token, d.flags.isNested = true ∧ m.image.Encloses d.token token ∧
      m.image.outward (registry.options.maxInheritanceDepth + 1) d.token
        = none ∧
        d.containing registry memory = m.type token registry memory := by
  cases nested : d.flags.isNested with
  | false =>
    -- A type that is not nested has no type outside it.
    refine .inl ?_
    rw [containing, containingWith, nested]
    rfl
  | true =>
    cases around : m.image.enclosing? d.token with
    | none =>
      -- Nothing encloses it, although it is nested.
      have reach := reachModule_apply proper live hm memory
      rw [named] at reach
      refine .inr (.inl ⟨.malformed (.notEnclosed d.token), rfl, ?_⟩)
      rw [containing, containingWith, if_neg (not_not.mpr nested),
        bind_apply_ok reach, around]
      rfl
    | some token =>
      have run := containing_apply proper live hm named memory nested around
      -- Something does, and what counts is how long the chain is.
      by_cases deep :
        (m.image.outward (registry.options.maxInheritanceDepth + 1)
          d.token).isSome
      · rw [if_pos deep] at run
        exact .inr (.inr (.inl ⟨⟨nested, deep⟩, run⟩))
      · rw [if_neg deep] at run
        exact .inr (.inr (.inr
          ⟨token, rfl, around, Option.not_isSome_iff_eq_none.mp deep, run⟩))

end

section
variable (live : registry.held = none) (hm : m ∈ registry.modules)
  (named : m.name = d.module) (nests : m.NestsInDefinitions d.token)
include live hm named nests

theorem TypeDefinition.failsBy_containing : d.containing.FailsBy registry
    (m.FailsAs registry.options.maxInheritanceDepth d) := by
  intro memory faithful e failed
  obtain run | ⟨error, plain, run⟩ | ⟨deep, run⟩ | ⟨token, -, around, -, run⟩ :=
    containing_cases faithful.proper live hm named memory
  · rw [run] at failed
    cases failed
  · rw [run] at failed
    cases failed
    exact .inl plain
  · rw [run] at failed
    cases failed
    exact .inr ⟨rfl, deep⟩
  · rw [run] at failed
    exact .inl (Module.failsBy_type (nests d.token .refl token around) memory
      faithful e failed)

/-- What is found around a definition is the definition that is told by its
row. -/
theorem TypeDefinition.ensures_containing :
    d.containing.Ensures registry tracked shared
    fun _ found => ∀ t ∈ found, ∃ outer,
      t = .definition outer ∧ m.name = outer.module ∧
      m.Surrounds registry.options.maxInheritanceDepth outer d := by
  intro memory faithful hshared
  obtain ⟨grows, kept, -⟩ := d.gives_containing memory faithful hshared
  refine ⟨grows, kept, fun found answer t ht => ?_⟩
  obtain run | ⟨_, -, run⟩ | ⟨-, run⟩ | ⟨token, nested, around, within, run⟩ :=
    containing_cases faithful.proper live hm named memory
  · -- It is not nested.
    rw [run] at answer
    cases answer
    cases ht
  · rw [run] at answer
    cases answer
  · rw [run] at answer
    cases answer
  · -- It is nested, and the type outside is declared by the same module.
    rw [run] at answer
    have isIn := nests d.token .refl token around
    obtain ⟨-, -, told⟩ := Module.ensures_type_declares hm isIn memory
      faithful hshared
    obtain ⟨outer, rfl, named', rfl, declares⟩ := told found answer t ht
    exact ⟨outer, rfl, named'.symm, declares, nested, around, within⟩

end

/-! ### Following the types around a type -/

/-- With one step more, a question fails at a definition as is to be expected
there, if it does with the steps that are left at the definition around it. -/
def Module.StepsOutward {α : Type} (registry : Registry) (m : Module)
    (ask : Nat → TypeDefinition → Query α) : Prop :=
  ∀ room d, m.name = d.module → m.NestsInDefinitions d.token →
    (∀ outer, m.name = outer.module →
      m.Surrounds registry.options.maxInheritanceDepth outer d →
      (ask room outer).FailsBy registry
        (m.FailsAs registry.options.maxInheritanceDepth outer)) →
    (ask (room + 1) d).FailsBy registry
      (m.FailsAs registry.options.maxInheritanceDepth d)

/-- The types that are left behind are all different, so that the steps suffice
where there is one for each type of the module. -/
theorem Module.StepsOutward.failsBy_of_trail {α : Type}
    {ask : Nat → TypeDefinition → Query α} (steps : m.StepsOutward registry ask)
    (named : m.name = d.module) (nests : m.NestsInDefinitions d.token)
    {visited : List Token}
    (trail : Trail m.image.Encloses m.image.typeDefTokens visited d.token)
    {room : Nat}
    (enough : m.image.typeDefTokens.length ≤ room + visited.length) :
    (ask room d).FailsBy registry
      (m.FailsAs registry.options.maxInheritanceDepth d) := by
  induction room generalizing d visited with
  | zero =>
    -- No row is left that was not visited.
    have := trail.length_lt
    omega
  | succ room ih =>
    -- The row outside was not visited, so that the trail grows as room is
    -- spent.
    refine steps room d named nests fun outer named' surrounds => ?_
    obtain ⟨row, hrow, -⟩ := surrounds.declares
    refine ih named' (surrounds.nests nests)
      (trail.step surrounds.encloses (mem_rowTokens hrow) surrounds.away) ?_
    rw [List.length_cons]
    omega

section
variable (live : registry.held = none) (hm : m ∈ registry.modules)
include hm

/-- A registry gives room for the types around any definition. -/
theorem Module.StepsOutward.failsBy {α : Type}
    {ask : Nat → TypeDefinition → Query α} (steps : m.StepsOutward registry ask)
    (declares : m.Declares d.token (.definition d))
    (nests : m.NestsInDefinitions d.token) :
    (ask registry.nestingBound d).FailsBy registry
      (m.FailsAs registry.options.maxInheritanceDepth d) := by
  obtain ⟨row, hrow, -⟩ := id declares
  refine steps.failsBy_of_trail declares.name_eq nests
    (.start (mem_rowTokens hrow)) ?_
  have below := registry.length_typeDefTokens_lt hm
  rw [List.length_nil]
  omega

include live

/-- What is asked of a definition once its name and the type around it are
known. -/
theorem TypeDefinition.failsBy_named {α : Type} (named : m.name = d.module)
    (nests : m.NestsInDefinitions d.token) {next : String → Option Ty → Query α}
    (alone : ∀ name, (next name none).FailsBy registry (·.isEndless = false))
    (around : ∀ name outer, m.name = outer.module →
      m.Surrounds registry.options.maxInheritanceDepth outer d →
        (next name (some (.definition outer))).FailsBy registry
          (m.FailsAs registry.options.maxInheritanceDepth outer)) :
    (do let name ← d.simpleName
        let found ← d.containing
        next name found : Query α).FailsBy registry
      (m.FailsAs registry.options.maxInheritanceDepth d) := by
  refine (d.failsBy_simpleName.imp fun _ => .inl).bind d.keeps_simpleName
    fun _ name _ => ?_
  refine (d.failsBy_containing live hm named nests).bind
    (d.ensures_containing live hm named nests) fun _ found told => ?_
  cases found with
  | none => exact (alone name).imp fun _ => .inl
  | some t =>
    obtain ⟨outer, rfl, named', surrounds⟩ := told t rfl
    exact (around name outer named' surrounds).imp fun _ => surrounds.failsAs

theorem Module.stepsOutward_fullNameWithin :
    m.StepsOutward registry fun room d =>
    d.fullNameWithin Module.type room := by
  intro room d named nests inner
  refine TypeDefinition.failsBy_named live hm named nests (fun name => ?_)
    fun name outer named' surrounds => ?_
  · exact d.failsBy_namespaceText.bind d.keeps_namespaceText
      fun _ _ _ => .pure _
  · exact (inner outer named' surrounds).bind
      (outer.keeps_fullNameWithin givesNodes_type room)
      fun _ _ _ => .pure _

theorem Module.stepsOutward_hashWithin : m.StepsOutward registry fun room d =>
    d.hashWithin room := by
  intro room d named nests inner
  refine FailsBy.rememberIf (TypeDefinition.failsBy_named live hm named nests
    (fun name => ?_)
    fun name outer named' surrounds => ?_)
  · exact d.failsBy_namespaceText.bind d.keeps_namespaceText
      fun _ _ _ => .pure _
  · exact (inner outer named' surrounds).bind (outer.keeps_hashWithin room)
      fun _ _ _ => .pure _

variable (declares : m.Declares d.token (.definition d))
  (nests : m.NestsInDefinitions d.token)
include declares nests

theorem TypeDefinition.failsBy_fullName :
    (Ty.definition d).fullName.FailsBy registry
      (m.FailsAs registry.options.maxInheritanceDepth d) :=
  .read_bind ((Module.stepsOutward_fullNameWithin live hm).failsBy hm
    declares nests)

theorem TypeDefinition.failsBy_hash : (Ty.definition d).hash.FailsBy registry
    (m.FailsAs registry.options.maxInheritanceDepth d) :=
  .read_bind ((Module.stepsOutward_hashWithin live hm).failsBy hm
    declares nests)

end

end

/-! ### Sessions -/

namespace Session

variable {s : Session} {options : Options} {m : Module} {d : TypeDefinition}

/-- A caller can come from one type to another by asking, at any times from now
on, for the type that a type is nested in. -/
def LeadsOutward (s : Session) : Ty → Ty → Prop :=
  Relation.ReflTransGen fun t u =>
    ∃ s', s.LeadsTo s' ∧ (s'.system.ask t.containing).1 = .ok (some u)

/-- However the types of a module are nested, what follows the types around a
definition comes to an end, and the limit decides about the first step alone. -/
structure BoundsNesting (s : Session) (m : Module) (d : TypeDefinition) :
    Prop where
  fullName_ends : NotCircular (s.system.ask (Ty.definition d).fullName).1
  hash_ends : NotCircular (s.system.ask (Ty.definition d).hash).1
  /-- The limit is reported exactly where the chain of rows has more members, or
  has no end. -/
  tooDeep_iff : d.flags.isNested = true → ∀ outer,
    m.image.Encloses d.token outer →
    ((s.system.ask (Ty.definition d).containing).1
        = .error (.tooDeep s.system.registry.options.maxInheritanceDepth) ↔
      (m.image.outward (s.system.registry.options.maxInheritanceDepth + 1)
        d.token).isSome)
  /-- Otherwise the token of the enclosing type is followed. -/
  containing : d.flags.isNested = true → ∀ outer,
    m.image.Encloses d.token outer →
    m.image.outward (s.system.registry.options.maxInheritanceDepth + 1) d.token
      = none →
      s.system.ask (Ty.definition d).containing = s.system.ask (m.type outer)
  /-- Once the first step outward has been taken, no other one meets the
  limit. -/
  outward : ∀ found, (s.system.ask (Ty.definition d).containing).1 = .ok found →
    ∀ u, s.LeadsOutward (.definition d) u → ∀ s', s.LeadsTo s' → ∀ limit,
      (s'.system.ask u.containing).1 ≠ .error (.tooDeep limit)
  /-- Neither does what takes all of them. -/
  named : ∀ found, (s.system.ask (Ty.definition d).containing).1 = .ok found →
    ∀ s', s.LeadsTo s' → ∀ limit,
      (s'.system.ask (Ty.definition d).fullName).1 ≠ .error (.tooDeep limit) ∧
        (s'.system.ask (Ty.definition d).hash).1 ≠ .error (.tooDeep limit)

section
variable (h : s.IsReachable options)
include h

/-- What a question fails with that follows the types around a definition. -/
theorem IsReachable.failsAs {α : Type} {query : Query α}
    (fails : query.FailsBy s.system.registry
      (m.FailsAs s.system.registry.options.maxInheritanceDepth d))
    {e : Error} (failed : (s.system.ask query).1 = .error e) :
    m.FailsAs options.maxInheritanceDepth d e := by
  rw [← h.options_eq]
  exact fails s.system.memory h.isFaithful.system e failed

theorem IsReachable.notCircular {α : Type} {query : Query α}
    (fails : query.FailsBy s.system.registry
      (m.FailsAs s.system.registry.options.maxInheritanceDepth d)) :
    NotCircular (s.system.ask query).1 := by
  intro name token circular
  rcases h.failsAs fails circular with plain | ⟨same, -⟩
  · cases plain
  · cases same

/-- The limit is not met at a definition that is not nested too deeply. -/
theorem IsReachable.ne_tooDeep {α : Type} {query : Query α}
    (fails : query.FailsBy s.system.registry
      (m.FailsAs s.system.registry.options.maxInheritanceDepth d))
    (shallow : ¬ d.IsTooDeep m options.maxInheritanceDepth) (limit : Nat) :
    (s.system.ask query).1 ≠ .error (.tooDeep limit) := by
  intro failed
  rcases h.failsAs fails failed with plain | ⟨-, deep⟩
  · cases plain
  · exact shallow deep

variable (hm : m ∈ s.system.registry.modules)
  (declares : m.Declares d.token (.definition d))
  (nests : m.NestsInDefinitions d.token)
include hm declares nests

omit nests in
/-- A definition is not nested too deeply if the type around it has been asked
for with success. -/
theorem IsReachable.not_isTooDeep_of_containing {found : Option Ty}
    (told : (s.system.ask (Ty.definition d).containing).1 = .ok found) :
    ¬ d.IsTooDeep m options.maxInheritanceDepth := by
  intro deep
  rw [← h.options_eq] at deep
  have run := deep.containing_apply h.isFaithful.system.proper h.live hm
    declares.name_eq s.system.memory
  have answer :
      (d.containing s.system.registry s.system.memory).1 = .ok found := told
  rw [run] at answer
  cases answer

/-- Outward from a definition that is not nested too deeply, there are only such
definitions. -/
theorem IsReachable.shallow_of_leadsOutward
    (shallow : ¬ d.IsTooDeep m options.maxInheritanceDepth) {u : Ty}
    (leads : s.LeadsOutward (.definition d) u) : ∃ e, u = .definition e ∧
      m.Declares e.token (.definition e) ∧ m.NestsInDefinitions e.token ∧
        ¬ e.IsTooDeep m options.maxInheritanceDepth := by
  induction leads with
  | refl => exact ⟨d, rfl, declares, nests, shallow⟩
  | tail _ step ih =>
    obtain ⟨e, rfl, declares', nests', -⟩ := ih
    obtain ⟨s', later, found⟩ := step
    have reachable := later.isReachable h
    -- The type outside is told by the same row as before.
    obtain ⟨-, -, told⟩ := TypeDefinition.ensures_containing reachable.live
      (later.mem_modules h hm) declares'.name_eq nests' s'.system.memory
      reachable.isFaithful.system fun _ => id
    obtain ⟨outer, rfl, -, surrounds⟩ := told _ found _ rfl
    rw [reachable.options_eq] at surrounds
    exact ⟨outer, rfl, surrounds.declares, surrounds.nests nests',
      surrounds.not_isTooDeep⟩

/-- Nesting is bounded whatever the rows say about what is nested in what, as
long as they name definitions, and whatever was asked before. -/
theorem IsReachable.boundsNesting : s.BoundsNesting m d := by
  have proper := h.isFaithful.system.proper
  have fails := TypeDefinition.failsBy_containing h.live hm
    declares.name_eq nests
  constructor
  · -- Neither the name nor the hash is told in a circle.
    exact h.notCircular
      (TypeDefinition.failsBy_fullName h.live hm declares nests)
  · exact h.notCircular (TypeDefinition.failsBy_hash h.live hm declares nests)
  · intro nested outer encloses
    refine ⟨fun failed => ?_, fun goes => ?_⟩
    · -- It fails so only if the chain outward is too long.
      rcases h.failsAs fails failed with plain | ⟨-, deep⟩
      · cases plain
      · rw [h.options_eq]
        exact deep.2
    · -- A chain that is too long makes it fail so.
      have deep : d.IsTooDeep m s.system.registry.options.maxInheritanceDepth :=
        ⟨nested, goes⟩
      exact congrArg Prod.fst
        (deep.containing_apply proper h.live hm declares.name_eq
          s.system.memory)
  · intro nested outer encloses ends
    -- A chain that ends early is told at its first type.
    have run := TypeDefinition.containing_apply proper h.live hm
      declares.name_eq s.system.memory nested encloses
    rw [ends] at run
    exact congrArg (fun run : Except Error (Option Ty) × Memory =>
      (run.1, ({ s.system with memory := run.2 } : TypeSystem))) run
  · intro found told u leads s' later limit
    -- Every type further out has a shorter chain.
    have shallow := h.not_isTooDeep_of_containing hm declares told
    obtain ⟨e, rfl, declares', nests', shallow'⟩ :=
      h.shallow_of_leadsOutward hm declares nests shallow leads
    have reachable := later.isReachable h
    exact reachable.ne_tooDeep (TypeDefinition.failsBy_containing reachable.live
      (later.mem_modules h hm) declares'.name_eq nests') shallow' limit
  · intro found told s' later limit
    -- The name and the hash are told along the same chain.
    have shallow := h.not_isTooDeep_of_containing hm declares told
    have reachable := later.isReachable h
    have kept := later.mem_modules h hm
    have failsToName := TypeDefinition.failsBy_fullName reachable.live kept
      declares nests
    have failsToHash := TypeDefinition.failsBy_hash reachable.live kept
      declares nests
    exact ⟨reachable.ne_tooDeep failsToName shallow limit,
      reachable.ne_tooDeep failsToHash shallow limit⟩

end

/-! Two types that are nested in each other. -/

def ringCalls : List ModuleBuilder.Call :=
  [.nestedTypeDef ⟨0x02000003⟩ "" "Ping" ⟨2⟩ .null,
    .nestedTypeDef ⟨0x02000002⟩ "" "Pong" ⟨2⟩ .null]

def ringModule :
    Module := .ofImage ((ModuleBuilder.new "App").applyAll ringCalls).image

def ping : TypeDefinition where
  module := "App"
  token := ⟨0x02000002⟩
  flags := ⟨2⟩
  name := 10
  namespaceName := 0
  base := .null

theorem encloses_ping :
    ringModule.image.Encloses ⟨0x02000002⟩ ⟨0x02000003⟩ := rfl

theorem encloses_pong :
    ringModule.image.Encloses ⟨0x02000003⟩ ⟨0x02000002⟩ := rfl

theorem nestsInDefinitions_ring (token : Token) :
    ringModule.NestsInDefinitions token := by
  intro inner _ outer encloses
  obtain ⟨row, found, rfl⟩ := Option.map_eq_some_iff.mp encloses
  have all : ∀ row ∈ ringModule.image.tables.nestedClasses.toList,
      row.enclosing.isIn .typeDef = true := by
    decide
  exact all row (Array.mem_toList_iff.mpr (Array.mem_of_find?_eq_some found))

/-- Two types that are nested in each other are in none. -/
theorem ping_boundsNesting :
    ∃ s : Session, s.IsReachable {} ∧ s.BoundsNesting ringModule ping ∧
    (s.system.ask (Ty.definition ping).containing).1
      = .error (.tooDeep 256) := by
  let start : Session :=
    { system := { registry := { modules := [ringModule] } } }
  have built := (ModuleBuilder.IsBuilt.new "App").applyAll ringCalls
  have reachable : start.IsReachable {} :=
    IsReachable.new.step (.addModule built rfl)
  have bounds := IsReachable.boundsNesting reachable
    (List.mem_singleton_self ringModule)
    (d := ping) ⟨_, rfl, rfl⟩ (nestsInDefinitions_ring _)
  refine ⟨start, reachable, bounds,
    (bounds.tooDeep_iff rfl _ encloses_ping).mpr ?_⟩
  -- Each of the two types encloses the other, so the chain never ends.
  have circle : Relation.TransGen ringModule.image.Encloses ⟨0x02000002⟩
      ⟨0x02000002⟩ :=
    .head encloses_ping (.single encloses_pong)
  exact Image.isSome_outward_of_reflTransGen circle .refl _

end Session

end CliMetadata
