import CliMetadata.Proofs.TypeSystem.Commutation
import CliMetadata.Proofs.TypeSystem.Recurring.Flags

/-!
# Which modifiers a resolved signature tells

A signature spells modifiers in front of its result, in front of each parameter,
and inside of their types, in front of what a pointer points to and of the
elements of an array.  The ones inside are passed over: a signature resolves as
if they were not there (`Module.resolveMethod_bare`).  The others are all kept,
with their positions, so that two signatures that resolve to the same have the
same modifiers in front of their results and of each parameter
(`Session.IsReachable.marksAlike`).
-/

namespace CliMetadata

open Filter Query

/-! ### Modifiers inside types -/

mutual

/-- A type without the modifiers inside of it. -/
@[simp]
def TypeSig.bare : TypeSig → TypeSig
  | .pointer _ target => .pointer [] target.bare
  | .byRef target => .byRef target.bare
  | .pinned target => .pinned target.bare
  | .vector _ element => .vector [] element.bare
  | .array element rank sizes lowerBounds =>
    .array element.bare rank sizes lowerBounds
  | .generic definition arguments =>
    .generic definition.bare (TypeSig.bareEach arguments)
  | other => other

/-- Several types without the modifiers inside of them. -/
@[simp]
def TypeSig.bareEach : List TypeSig → List TypeSig
  | [] => []
  | t :: rest => t.bare :: TypeSig.bareEach rest

end

/-- A parameter without the modifiers inside of its type. -/
def ParamSig.bare (param : ParamSig) :
    ParamSig := { param with type := param.type.bare }

/-- A signature without the modifiers inside of its types. -/
def MethodSig.bare (signature : MethodSig) : MethodSig :=
  { signature with
    result := signature.result.bare
    params := signature.params.map ParamSig.bare }

section
variable (resolve : Resolver) (m : Module)

mutual

@[simp]
theorem TypeSig.resolveWith_bare :
    (t : TypeSig) → t.bare.resolveWith resolve m = t.resolveWith resolve m
  | .pointer _ inner | .byRef inner | .pinned inner | .vector _ inner | .array
    inner _ _ _ => by
    simp only [bare, resolveWith, TypeSig.resolveWith_bare inner]
  | .generic definition arguments => by
    simp only [bare, resolveWith, TypeSig.resolveWith_bare definition,
      TypeSig.resolveEachWith_bareEach arguments]
  | .primitive _ | .valueType _ | .referenceType _ | .typeVar _ | .methodVar
    _ | .function _ => by
    rw [bare]
    all_goals nofun

@[simp]
theorem TypeSig.resolveEachWith_bareEach : (types : List TypeSig) →
    TypeSig.resolveEachWith resolve m (TypeSig.bareEach types)
      = TypeSig.resolveEachWith resolve m types
  | [] => rfl
  | t :: rest => by
    simp only [bareEach, resolveEachWith, TypeSig.resolveWith_bare t,
      TypeSig.resolveEachWith_bareEach rest]

end

end

namespace Module

/-- A type resolves as if there were no modifiers inside of it. -/
@[simp]
theorem resolve_bare (m : Module) (t : TypeSig) :
    m.resolve t.bare = m.resolve t :=
  t.resolveWith_bare Module.type m

@[simp]
theorem resolveParam_bare (m : Module) (position : Nat) (param : ParamSig) :
    m.resolveParam position param.bare = m.resolveParam position param := by
  simp only [resolveParam, ParamSig.bare, resolve_bare]
  rfl

@[simp]
theorem resolveParams_bare (m : Module) (position : Nat)
    (params : List ParamSig) :
    m.resolveParams position (params.map ParamSig.bare)
      = m.resolveParams position params := by
  induction params generalizing position with
  | nil => rfl
  | cons param rest ih =>
    simp only [List.map_cons, resolveParams, resolveParam_bare, ih]

/-- A signature resolves as if there were no modifiers inside of its types. -/
@[simp]
theorem resolveMethod_bare (m : Module) (signature : MethodSig) :
    m.resolveMethod signature.bare = m.resolveMethod signature := by
  simp only [resolveMethod, MethodSig.bare, resolveParams_bare,
    resolveParam_bare]
  rfl

/-- Signatures that differ only in modifiers inside of their types resolve to
the same. -/
theorem resolveMethod_eq_of_bare (m : Module) {signature other : MethodSig}
    (same : signature.bare = other.bare) :
    m.resolveMethod signature = m.resolveMethod other := by
  rw [← resolveMethod_bare, same, resolveMethod_bare]

end Module

/-! ### Modifiers in front of types -/

variable {registry : Registry} {base : Memory} {patience : Nat} {m : Module}

/-- A resolved modifier is as required as it is spelled, and has the type that
it is spelled with. -/
def Module.Marks (registry : Registry) (base : Memory) (m : Module)
    (modifier : Modifier) (found : ResolvedModifier) : Prop :=
  found.isRequired = modifier.isRequired ∧
    ReachesSince registry base (fun _ => m.requiredType modifier.type)
      (.ok found.type)

/-- Modifiers, none of them at a position before the first, are the ones that
the parameters have in front of them. -/
structure Module.MarksEach (registry : Registry) (base : Memory) (m : Module)
    (first : Nat) (params : List ParamSig) (found : List ResolvedModifier) :
    Prop where
  after : ∀ modifier ∈ found, first ≤ modifier.position
  marks : ∀ i (h : i < params.length),
    List.Forall₂ (m.Marks registry base) params[i].modifiers
      (found.filter (·.position = first + i))

/-- The modifiers of the first parameter, and those of the others. -/
theorem Module.MarksEach.cons {first : Nat} {param : ParamSig}
    {params : List ParamSig} {here later : List ResolvedModifier}
    (at_ : ∀ modifier ∈ here, modifier.position = first)
    (marks : List.Forall₂ (m.Marks registry base) param.modifiers here)
    (rest : m.MarksEach registry base (first + 1) params later) :
    m.MarksEach registry base first (param :: params) (here ++ later) where
  after modifier h := by
    rcases List.mem_append.mp h with h | h
    · exact (at_ modifier h).ge
    · exact (Nat.le_succ first).trans (rest.after modifier h)
  marks i h := by
    rw [List.filter_append]
    cases i with
    | zero =>
      -- Only the modifiers of this parameter stand at its position.
      have all : here.filter (·.position = first + 0) = here :=
        List.filter_eq_self.mpr fun modifier h => by simpa using at_ modifier h
      have none : later.filter (·.position = first + 0) = [] :=
        List.filter_eq_nil_iff.mpr fun modifier h => by
          have := rest.after modifier h
          simp only [Nat.add_zero, decide_eq_true_eq]
          omega
      rw [all, none, List.append_nil]
      exact marks
    | succ i =>
      -- None of them stands at a later position.
      have none : here.filter (·.position = first + (i + 1)) = [] :=
        List.filter_eq_nil_iff.mpr fun modifier h => by
          have := at_ modifier h
          simp only [decide_eq_true_eq]
          omega
      have same : first + (i + 1) = first + 1 + i := by omega
      rw [none, List.nil_append, same]
      exact rest.marks i (Nat.lt_of_succ_lt_succ h)

section
variable (proper : registry.IsProper) (hm : m ∈ registry.modules)
include proper hm

theorem Module.tells_resolveModifiers (position : Nat)
    (modifiers : List Modifier) :
    (m.resolveModifiers position modifiers).TellsSince registry base patience
      fun found =>
      (∀ modifier ∈ found, modifier.position = position) ∧
        List.Forall₂ (m.Marks registry base) modifiers found := by
  induction modifiers with
  | nil => exact .pure ⟨nofun, .nil⟩
  | cons modifier rest ih =>
    have finds : Recurs registry base patience
        fun _ => m.requiredType modifier.type :=
      Module.recurs_requiredType proper hm _
    refine finds.tells.bind finds.leaves fun type reached => ?_
    refine ih.bind
      (Module.recurs_resolveModifiers proper hm position rest).leaves
      fun found ⟨at_, marks⟩ => .pure ⟨?_, .cons ⟨rfl, reached⟩ marks⟩
    exact List.forall_mem_cons.mpr ⟨rfl, at_⟩

theorem Module.tells_resolveParam (position : Nat) (param : ParamSig) :
    (m.resolveParam position param).TellsSince registry base patience
      fun found =>
      (∀ modifier ∈ found.2, modifier.position = position) ∧
        List.Forall₂ (m.Marks registry base) param.modifiers found.2 := by
  have finds : Recurs registry base patience fun _ => m.resolve param.type :=
    Module.recurs_resolve proper hm _
  refine (Module.tells_resolveModifiers proper hm position _).bind
    (Module.recurs_resolveModifiers proper hm position _).leaves
      fun found marks => ?_
  refine finds.tells.bind finds.leaves fun type _ => ?_
  split
  · have shapes : Recurs registry base patience fun _ => shapeOf .byRef type :=
      recurs_shapeOf _ _
    exact shapes.tells.bind shapes.leaves fun _ _ => .pure marks
  · exact .pure marks

theorem Module.tells_resolveParams (first : Nat) (params : List ParamSig) :
    (m.resolveParams first params).TellsSince registry base patience
      fun found =>
      found.length = params.length ∧
        m.MarksEach registry base first params (found.flatMap Prod.snd) := by
  induction params generalizing first with
  | nil => exact .pure ⟨rfl, nofun, nofun⟩
  | cons param rest ih =>
    refine (Module.tells_resolveParam proper hm first param).bind
      (Module.recurs_resolveParam proper hm first param).leaves
        fun here ⟨at_, marks⟩ => ?_
    refine (ih (first + 1)).bind (Module.recurs_resolveParams proper hm
      (first + 1) rest).leaves
      fun later ⟨length, others⟩ => .pure ⟨?_, .cons at_ marks others⟩
    simp [length]

/-- A resolved signature has the modifiers in front of the result at position
zero, and those of the parameters at the positions after it. -/
theorem Module.tells_resolveMethod (signature : MethodSig) :
    (m.resolveMethod signature).TellsSince registry base patience fun found =>
      found.parameters.length = signature.params.length ∧
        m.MarksEach registry base 0 (signature.result :: signature.params)
          found.modifiers := by
  have ready : Recurs registry base patience fun _ => requireTypeSystem :=
    recurs_requireTypeSystem
  refine ready.tells.bind ready.leaves fun _ _ => ?_
  refine (Module.tells_resolveParam proper hm 0 _).bind
    (Module.recurs_resolveParam proper hm 0 _).leaves
      fun result ⟨at_, marks⟩ => ?_
  refine (Module.tells_resolveParams proper hm 1 _).bind
    (Module.recurs_resolveParams proper hm 1 _).leaves
      fun parameters ⟨length, others⟩ => ?_
  exact .pure ⟨by simp [length], .cons at_ marks others⟩

end

/-! ### Sessions -/

namespace TypeSystem

/-- Parameters have the same modifiers in front of them: they are as required,
and mean the same types. -/
def MarksAlike (system : TypeSystem) (m : Module) (param other : ParamSig) :
    Prop :=
  List.Forall₂ (fun modifier modifier' =>
    modifier.isRequired = modifier'.isRequired ∧
    ∃ t, system.Resolves (m.requiredType modifier.type) t ∧
      system.Resolves (m.requiredType modifier'.type) t) param.modifiers
        other.modifiers

variable {system : TypeSystem}

theorem resolves_of_reachesSince {α : Type} {query : Query α} {a : α}
    (reached : ReachesSince system.registry system.memory
      (fun _ => query) (.ok a)) :
    system.Resolves query a :=
  reached.mono fun _ hl => (hl system.memory (Memory.isTrueSince_base _ _)).1

/-- What two parameters have in front of them is alike, if it is found to be the
same. -/
theorem marksAlike_of_marks {param other : ParamSig}
    {found : List ResolvedModifier}
    (marks : List.Forall₂ (m.Marks system.registry system.memory)
      param.modifiers found)
    (marks' : List.Forall₂ (m.Marks system.registry system.memory)
      other.modifiers found) :
    system.MarksAlike m param other := by
  unfold MarksAlike
  generalize param.modifiers = modifiers,
    other.modifiers = modifiers' at marks marks' ⊢
  induction marks generalizing modifiers' with
  | nil =>
    cases marks'
    exact .nil
  | cons here _ ih =>
    cases marks' with
    | cons here' rest' =>
      -- Both spellings of the modifier resolve to the type that was found.
      have resolves := resolves_of_reachesSince here.2
      have resolves' := resolves_of_reachesSince here'.2
      exact .cons ⟨here.1.symm.trans here'.1, _, resolves, resolves'⟩
        (ih _ rest')

end TypeSystem

/-- Two signatures of a module that resolve to the same have the same modifiers
in front of their results and in front of each of their parameters. -/
theorem Session.IsReachable.marksAlike {s : Session} {options : Options}
    (h : s.IsReachable options) (hm : m ∈ s.system.registry.modules)
    {signature other : MethodSig} {found : MethodSignature}
    (resolved : s.system.CanResolve (m.resolveMethod signature) found)
    (resolved' : s.system.CanResolve (m.resolveMethod other) found) :
    List.Forall₂ (s.system.MarksAlike m) (signature.result :: signature.params)
      (other.result :: other.params) := by
  have proper := h.isFaithful.system.proper
  have settled := Memory.isSettledSince_base s.system.registry s.system.memory
  obtain ⟨patience, answer⟩ := resolved
  obtain ⟨patience', answer'⟩ := resolved'
  obtain ⟨length, marks⟩ := Module.tells_resolveMethod proper hm signature _
    settled _ answer
  obtain ⟨length', marks'⟩ := Module.tells_resolveMethod proper hm other _
    settled _ answer'
  refine List.forall₂_iff_get.mpr
    ⟨by simp [← length, ← length'], fun i hi hi' => ?_⟩
  exact TypeSystem.marksAlike_of_marks (marks.marks i hi) (marks'.marks i hi')

end CliMetadata
