import CliMetadata.Proofs.TypeSystem.Building

/-!
# Queries that have answers

`Query.Ensures` says what holds of an answer if there is one.  `Query.Answers`
says that there is one: in every faithful memory the query ends with an answer,
of which a condition holds.  The two are proved apart, since most queries may
fail, and are used together where queries are composed (`Query.Answers.bind`).

In a live type system the parameters of a definition are found once each of them
has a row, and what is then applied to arguments is a type.
-/

namespace CliMetadata

open Query

namespace Query

variable {α β : Type} {registry : Registry} {tracked : Bool}
  {shared : Ty → Prop}

/-- The query has an answer, whatever faithful memory it is asked in. -/
def Answers (registry : Registry) (tracked : Bool) (shared : Ty → Prop)
    (query : Query α) (P : α → Prop) : Prop :=
  ∀ memory : Memory, memory.IsFaithful registry tracked →
    (∀ t, shared t → memory.Shares tracked t) →
      ∃ a, (query registry memory).1 = .ok a ∧ P a

namespace Answers

variable {query : Query α} {P : α → Prop} {Q : β → Prop}

theorem pure {a : α} (h : P a) :
    (Pure.pure a : Query α).Answers registry tracked shared P :=
  fun _ _ _ => ⟨a, rfl, h⟩

/-- An answer stays where more types are shared. -/
theorem le {shared' : Ty → Prop} (h : query.Answers registry tracked shared P)
    (le : ∀ t, shared t → shared' t) :
    query.Answers registry tracked shared' P :=
  fun memory faithful hshared => h memory faithful
    fun t ht => hshared t (le t ht)

theorem imp {P' : α → Prop} (h : query.Answers registry tracked shared P)
    (weaken : ∀ a, P a → P' a) : query.Answers registry tracked shared P' := by
  intro memory faithful hshared
  obtain ⟨a, run, ha⟩ := h memory faithful hshared
  exact ⟨a, run, weaken a ha⟩

/-- The modules are as they should be. -/
theorem of_proper
    (h : registry.IsProper → query.Answers registry tracked shared P) :
    query.Answers registry tracked shared P :=
  fun memory faithful => h faithful.proper memory faithful

/-- The next query has an answer where the first has left the memory
faithful. -/
theorem bind {next : α → Query β} {R : (Ty → Prop) → α → Prop}
    (first : query.Answers registry tracked shared P)
    (kept : query.Ensures registry tracked shared R)
    (second : ∀ shared', (∀ t, shared t → shared' t) → ∀ a, P a → R shared' a →
      (next a).Answers registry tracked shared' Q) :
    (query >>= next).Answers registry tracked shared Q := by
  intro memory faithful hshared
  obtain ⟨a, run, ha⟩ := first memory faithful hshared
  obtain ⟨grows, faithful', answer⟩ := kept memory faithful hshared
  have split : query registry memory = (.ok a, (query registry memory).2) :=
    Prod.ext run rfl
  rw [bind_apply_ok split]
  exact second _ (fun t ht => (hshared t ht).grow grows) a ha
    (answer a run) _ faithful' fun _ => id

theorem read_bind {next : Registry → Query β}
    (h : (next registry).Answers registry tracked shared Q) :
    (MonadReader.read >>= next).Answers registry tracked shared Q := h

theorem ite {c : Prop} [Decidable c] {other : Query α}
    (first : c → query.Answers registry tracked shared P)
    (second : ¬ c → other.Answers registry tracked shared P) :
    (if c then query else other).Answers registry tracked shared P := by
  by_cases h : c
  · rw [if_pos h]
    exact first h
  · rw [if_neg h]
    exact second h

/-- What is not known yet is found. -/
theorem remember {fact : Fact} {find : Query fact.Value} {P : fact.Value → Prop}
    (known : ∀ memory : Memory, memory.IsFaithful registry tracked → ∀ value,
      memory.facts.get? fact = some value → P value)
    (found : find.Answers registry tracked shared P) :
    (Query.remember fact find).Answers registry tracked shared P := by
  intro memory faithful hshared
  have look : Query.established? fact registry memory
      = (.ok (memory.facts.get? fact), memory) := rfl
  rw [Query.remember, Query.rememberIf, bind_apply_ok look]
  cases hknown : memory.facts.get? fact with
  -- What is known is answered.
  | some value => exact ⟨value, rfl, known memory faithful value hknown⟩
  | none =>
    -- What is not known is found, and noted, which cannot fail.
    obtain ⟨value, run, hvalue⟩ := found memory faithful hshared
    have split : find registry memory = (.ok value, (find registry memory).2) :=
      Prod.ext run rfl
    refine ⟨value, ?_, hvalue⟩
    show ((find >>= _ : Query fact.Value) registry memory).1 = _
    rw [bind_apply_ok split]
    rfl

theorem share (t : Ty) :
    (Query.share t).Answers registry tracked shared (· = t) :=
  fun memory _ _ => ⟨t, congrArg Prod.fst (share_eq t registry memory), rfl⟩

end Answers

end Query

/-! ### Parameters -/

section
variable {registry : Registry} {tracked : Bool} {shared : Ty → Prop}
  {resolve : Resolver} {d : TypeDefinition} {count : Nat}

/-- A definition has one number of parameters. -/
theorem TypeDefinition.HasParameters.eq (proper : registry.IsProper)
    {other : Nat} (h : d.HasParameters registry.modules count)
    (h' : d.HasParameters registry.modules other) :
    count = other := by
  obtain ⟨m, hm, named, rfl, -⟩ := h
  obtain ⟨n, hn, named', rfl, -⟩ := h'
  have same : m = n := proper.eq_of_name_eq hm hn (named.trans named'.symm)
  rw [same]

@[simp]
theorem requireTypeSystem_apply {memory : Memory}
    (live : registry.held = none) :
    requireTypeSystem registry memory = (.ok (), memory) := by
  have isLive : registry.isLive = true := by
    rw [Registry.isLive, live, Option.isNone_none]
  show (if registry.isLive then pure ()
      else throw (.released .typeSystem) : Query Unit)
    registry memory = _
  rw [if_pos isLive]
  rfl

theorem answers_requireTypeSystem (live : registry.held = none) :
    requireTypeSystem.Answers registry tracked shared fun _ => True := by
  have isLive : registry.isLive := by simp [Registry.isLive, live]
  refine Answers.read_bind (Answers.ite (fun _ => .pure trivial) fun h => ?_)
  exact absurd isLive h

/-- In a live type system every module is in reach. -/
@[simp]
theorem reachModule_apply (proper : registry.IsProper)
    (live : registry.held = none) {m : Module} (hm : m ∈ registry.modules)
    (memory : Memory) :
    reachModule m.name registry memory = (.ok m, memory) := by
  have reads : (MonadReader.read : Query Registry) registry memory
      = (.ok registry, memory) := rfl
  refine (bind_apply_ok reads).trans ?_
  rw [proper.module?_eq_some hm]
  dsimp only
  rw [if_pos (Registry.reaches_of_live live _)]
  rfl

theorem answers_reachModule (live : registry.held = none) {m : Module}
    (hm : m ∈ registry.modules) :
    (reachModule m.name).Answers registry tracked shared (· = m) := by
  refine Answers.of_proper fun proper memory _ _ => ⟨m, ?_, rfl⟩
  rw [reachModule_apply proper live hm]

theorem Module.answers_parameters {m : Module} (hm : m ∈ registry.modules)
    {tokens : List Token}
    (rows : ∀ token ∈ tokens, (m.image.genericParam? token).isSome) :
    (m.parameters tokens).Answers registry tracked shared fun _ => True := by
  induction tokens generalizing shared with
  | nil => exact .pure trivial
  | cons token rest ih =>
    obtain ⟨row, hrow⟩ := Option.isSome_iff_exists.mp
      (rows token List.mem_cons_self)
    have first : (m.parameter token).Answers registry tracked shared
        fun _ => True := by
      -- The row is there, so that a node can be made of it.
      have made : m.genericParameter token
          = .ok (.parameter (m.parameterOfRow row)) := by
        rw [Module.genericParameter, hrow]
      rw [Module.parameter, made]
      exact (Answers.share _).imp fun _ _ => trivial
    refine first.bind (Module.gives_parameter hm token) fun _ _ _ _ _ => ?_
    have others := fun other hother => rows other
      (List.mem_cons_of_mem token hother)
    exact (ih others).bind (Module.ensures_parameters hm rest)
      fun _ _ _ _ _ => .pure trivial

/-- The parameters of a definition are found once each of them has a row. -/
theorem TypeDefinition.answers_parameters (live : registry.held = none)
    (h : d.HasParameters registry.modules count) :
    d.parameters.Answers registry tracked shared fun ts =>
      ts.length = count := by
  refine Answers.of_proper fun proper => Answers.remember ?_ ?_
  · -- Parameters that are known are those of the rows.
    intro memory faithful types known
    exact ((faithful.facts _ _ known).2 d rfl).eq proper h
  · -- Otherwise they are read off the rows, which are all there.
    obtain ⟨m, hm, named, length, rows⟩ := h
    rw [← named]
    refine (answers_reachModule live hm).bind (ensures_reachModule m.name)
      fun _ _ n same _ => ?_
    subst same
    intro memory faithful hshared
    obtain ⟨ts, run, -⟩ := Module.answers_parameters hm rows memory
      faithful hshared
    obtain ⟨-, -, answer⟩ := Module.ensures_parameters hm _ memory
      faithful hshared
    exact ⟨ts, run, (answer ts run).2.1.trans length⟩

/-! ### Types from types -/

/-- A definition can be applied to an argument for each of its parameters. -/
theorem answers_instantiateWith (live : registry.held = none)
    {arguments : List Ty}
    (h : d.HasParameters registry.modules arguments.length)
    (positive : 1 ≤ arguments.length) :
    (instantiateWith resolve (.definition d) arguments).Answers registry
      tracked shared
      (· = .applied d arguments) := by
  refine (d.answers_parameters live h).bind d.ensures_parameters
    fun _ _ own length _ => ?_
  refine Answers.ite (fun hcount => ?_) fun _ => .share _
  rcases hcount with zero | different
  · omega
  · exact absurd length different

theorem answers_shapeOf {shape : Shape} (allowed : shape.IsAllowed)
    (element : Ty) :
    (shapeOf shape element).Answers registry tracked shared
      (· = .shaped shape element) := by
  cases shape with
  | array rank =>
    refine Answers.ite (fun hrank => ?_) fun _ => .share _
    obtain ⟨positive, small⟩ : 1 ≤ rank ∧ rank ≤ maxRank := allowed
    rcases hrank with rfl | large
    · exact absurd positive (by decide)
    · exact absurd small (UInt32.not_le.mpr large)
  | _ => exact .share _

end

end CliMetadata
