import CliMetadata.Proofs.TypeSystem.Answers
import CliMetadata.Proofs.TypeSystem.Identity

/-!
# Substitution

`Ty.replaced` says what a type is when each of its variables gives way to the
argument of its number: all at once, so that variables in the arguments stay.
Substituting in a live type system answers with this type and never fails
(`Ty.answers_substituted`), because a type that can be met is built as the
constructors allow, and replacing its parts keeps the number of its arguments
and its rank.

Two substitutions, one after the other, are one substitution
(`Ty.replaced_replaced`): the arguments of the first are changed by the second,
and behind them stand those arguments of the second that variables can still
reach.
-/

namespace CliMetadata

open Query

/-! ### Replacing variables -/

mutual

/-- A type with each variable replaced by the argument of its number, if there
is one. -/
@[simp]
def Ty.replaced (types methods : List Ty) : Ty → Ty
  | .var index isMethod =>
      ((if isMethod then methods else types)[index.toNat]?).getD
        (.var index isMethod)
  | .applied d arguments => .applied d (Ty.replacedEach types methods arguments)
  | .shaped shape element => .shaped shape (Ty.replaced types methods element)
  | .definition d => .definition d
  | .parameter p => .parameter p

/-- Several types with variables replaced. -/
@[simp]
def Ty.replacedEach (types methods : List Ty) : List Ty → List Ty
  | [] => []
  | t :: rest =>
    Ty.replaced types methods t :: Ty.replacedEach types methods rest

end

namespace Ty

variable {types methods types' methods' : List Ty}

@[simp]
theorem replacedEach_eq_map (ts : List Ty) :
    replacedEach types methods ts = ts.map (replaced types methods) := by
  induction ts with
  | nil => simp
  | cons t rest ih => rw [replacedEach, ih, List.map_cons]

/-- What stands at a place: the changed argument of the first list, or what the
second has there. -/
theorem getElem?_map_append_drop (change : Ty → Ty) (first second : List Ty)
    (i : Nat) :
    (first.map change ++ second.drop first.length)[i]?
      = (first[i]?.map change).or second[i]? := by
  by_cases h : i < first.length
  · rw [List.getElem?_append_left (by simpa using h)]
    simp [h]
  · have beyond : first.length ≤ i := Nat.le_of_not_lt h
    rw [List.getElem?_append_right (by simpa using beyond), List.getElem?_drop,
      List.length_map, Nat.add_sub_cancel' beyond, List.getElem?_eq_none beyond]
    rfl

mutual

/-- One substitution does what two do one after the other. -/
theorem replaced_replaced : (t : Ty) →
    replaced types' methods' (replaced types methods t)
      = replaced (types.map (replaced types' methods') ++
        types'.drop types.length)
          (methods.map (replaced types' methods') ++
            methods'.drop methods.length) t
  | .var index isMethod => by
    -- A variable has an argument in the first substitution, or it is left to
    -- the second.
    have chosen : (if isMethod
        then methods.map (replaced types' methods') ++
          methods'.drop methods.length
        else types.map (replaced types' methods') ++
          types'.drop types.length)[index.toNat]?
          = ((if isMethod then methods else types)[index.toNat]?.map
            (replaced types' methods')).or
              (if isMethod then methods' else types')[index.toNat]? := by
      cases isMethod
      · exact getElem?_map_append_drop _ types types' _
      · exact getElem?_map_append_drop _ methods methods' _
    rw [replaced, replaced, chosen]
    cases (if isMethod then methods else types)[index.toNat]? with
    | some t => rfl
    | none =>
      show replaced types' methods' (.var index isMethod) = _
      rw [replaced]
      rfl
  | .applied d arguments => by
    rw [replaced, replaced, replaced, replacedEach_replacedEach arguments]
  | .shaped shape element => by
    simp [replaced_replaced element]
  | .definition d => by simp
  | .parameter p => by simp

theorem replacedEach_replacedEach : (ts : List Ty) →
    replacedEach types' methods' (replacedEach types methods ts)
      = replacedEach (types.map (replaced types' methods') ++
        types'.drop types.length)
          (methods.map (replaced types' methods') ++
            methods'.drop methods.length) ts
  | [] => by rw [replacedEach, replacedEach, replacedEach]
  | t :: rest => by
    rw [replacedEach, replacedEach, replacedEach, replaced_replaced t,
      replacedEach_replacedEach rest]

end

/-! ### Types without matching variables -/

/-- No variable in the type has an argument. -/
def IsUnmatched (types methods : List Ty) (t : Ty) : Prop :=
  ∀ index isMethod, .var index isMethod ∈ t.parts →
    (if isMethod then methods else types).length ≤ index.toNat

mutual

/-- Where no variable has an argument, nothing is replaced. -/
@[simp]
theorem replaced_of_isUnmatched : (t : Ty) → t.IsUnmatched types methods →
    replaced types methods t = t
  | .var index isMethod, h => by
    have beyond := h index isMethod (mem_parts _)
    rw [replaced, List.getElem?_eq_none beyond]
    rfl
  | .applied d arguments, h => by
    have inside := replacedEach_of_isUnmatched arguments
      fun index isMethod hvar =>
      h index isMethod (by rw [parts]; simp [hvar])
    rw [replaced, inside]
  | .shaped shape element, h => by
    have inside := replaced_of_isUnmatched element fun index isMethod hvar =>
      h index isMethod (by rw [parts]; simp [hvar])
    simp [inside]
  | .definition d, _ => by simp
  | .parameter p, _ => by simp

theorem replacedEach_of_isUnmatched : (ts : List Ty) →
    (∀ index isMethod, .var index isMethod ∈ partsOfEach ts →
      (if isMethod then methods else types).length ≤ index.toNat) →
    replacedEach types methods ts = ts
  | [], _ => by rw [replacedEach]
  | t :: rest, h => by
    have first := replaced_of_isUnmatched t fun index isMethod hvar =>
      h index isMethod (by rw [partsOfEach]; simp [hvar])
    have others := replacedEach_of_isUnmatched rest fun index isMethod hvar =>
      h index isMethod (by rw [partsOfEach]; simp [hvar])
    rw [replacedEach, first, others]

end

end Ty

/-! ### Substitution in a live type system -/

section
variable {registry : Registry} {tracked : Bool} {shared : Ty → Prop}
  {resolve : Resolver} {types methods : List Ty}

mutual

/-- Substitution has an answer, the type with its variables replaced. -/
theorem Ty.answers_substituteWith (live : registry.held = none)
    (hresolve : resolve.GivesNodes registry tracked shared)
    (htypes : AreNodes registry.modules shared types)
    (hmethods : AreNodes registry.modules shared methods) :
    (t : Ty) → t.IsNode registry.modules shared →
      (t.substituteWith resolve types methods).Answers registry tracked shared
        (· = t.replaced types methods)
  | .var index isMethod, _ => by
    rw [Ty.replaced]
    exact .pure rfl
  | .applied d arguments, .applied hd harguments positive parameters _ => by
    rw [Ty.replaced]
    refine (Ty.answers_substituteEachWith live hresolve htypes hmethods
      arguments harguments).bind
      (Ty.gives_substituteEachWith hresolve htypes hmethods
        arguments harguments)
      fun _ _ replaced same _ => ?_
    -- The type is built again only if an argument has changed.
    refine Answers.ite (fun unchanged => .pure ?_) fun _ => ?_
    · rw [← same, unchanged]
    · -- The definition is applied to as many arguments as before.
      have length : replaced.length = arguments.length := by
        simp [same]
      refine (answers_requireTypeSystem live).bind keeps_requireTypeSystem
        fun _ _ _ _ _ => ?_
      rw [← same]
      rw [← length] at positive parameters
      exact answers_instantiateWith live parameters positive
  | .shaped shape element, .shaped helement allowed _ => by
    rw [Ty.replaced]
    refine (Ty.answers_substituteWith live hresolve htypes hmethods element
      helement).bind
      (Ty.gives_substituteWith hresolve htypes hmethods element helement)
      fun _ _ replaced same _ => ?_
    refine Answers.ite (fun unchanged => .pure ?_) fun _ => ?_
    · rw [← same, unchanged]
    · refine (answers_requireTypeSystem live).bind keeps_requireTypeSystem
        fun _ _ _ _ _ => ?_
      rw [← same]
      exact answers_shapeOf allowed replaced
  | .definition d, _ => by
    rw [Ty.replaced]
    exact .pure rfl
  | .parameter p, _ => by
    rw [Ty.replaced]
    exact .pure rfl

theorem Ty.answers_substituteEachWith (live : registry.held = none)
    (hresolve : resolve.GivesNodes registry tracked shared)
    (htypes : AreNodes registry.modules shared types)
    (hmethods : AreNodes registry.modules shared methods) :
    (ts : List Ty) → AreNodes registry.modules shared ts →
      (Ty.substituteEachWith resolve types methods ts).Answers registry
        tracked shared (· = Ty.replacedEach types methods ts)
  | [], _ => by
    rw [Ty.replacedEach]
    exact .pure rfl
  | t :: rest, h => by
    -- The first type, and then the rest in what its query has left.
    rw [Ty.replacedEach]
    refine (Ty.answers_substituteWith live hresolve htypes hmethods t
      h.head).bind (Ty.gives_substituteWith hresolve htypes hmethods t h.head)
        fun _ le first same _ => ?_
    have others := Ty.answers_substituteEachWith live hresolve htypes
      hmethods rest h.tail
    have given := Ty.gives_substituteEachWith hresolve htypes
      hmethods rest h.tail
    refine (others.le le).bind (given.le le) fun _ _ others same' _ => .pure ?_
    rw [same, same']

end

variable {t : Ty} {types' methods' : List Ty}

theorem Ty.answers_substituted (live : registry.held = none)
    (ht : t.IsNode registry.modules shared)
    (htypes : AreNodes registry.modules shared types)
    (hmethods : AreNodes registry.modules shared methods) :
    (t.substituted types methods).Answers registry tracked shared
      (· = t.replaced types methods) :=
  Ty.answers_substituteWith live givesNodes_type htypes hmethods t ht

theorem Ty.gives_mapM_substituted {ts : List Ty}
    (hts : AreNodes registry.modules shared ts)
    (htypes : AreNodes registry.modules shared types)
    (hmethods : AreNodes registry.modules shared methods) :
    (ts.mapM fun t : Ty => t.substituted types methods).Gives registry tracked
      shared id := by
  have nodes : AreNodes registry.modules shared (ts.map id) :=
    (List.map_id ts).symm ▸ hts
  have given : (ts.mapM fun t : Ty => t.substituted types methods).Gives
      registry tracked shared
      fun us => us.map id :=
    gives_mapM (fun _ le t ht => Ty.gives_substituted ht (htypes.le le)
      (hmethods.le le)) nodes
  exact given.imp fun _ us hus => List.map_id us ▸ hus

/-- Where each of several items is changed, all of them are. -/
theorem answers_mapM {α β : Type} {typeOf : α → Ty} {typeOf' : β → Ty}
    {change : α → Query β} {changed : α → β}
    (gives : ∀ shared', (∀ t, shared t → shared' t) → ∀ a,
      (typeOf a).IsNode registry.modules shared' →
      (change a).Gives registry tracked shared' fun b => [typeOf' b])
    (changes : ∀ shared', (∀ t, shared t → shared' t) → ∀ a,
      (typeOf a).IsNode registry.modules shared' →
      (change a).Answers registry tracked shared' (· = changed a))
    {items : List α}
    (hitems : AreNodes registry.modules shared (items.map typeOf)) :
    (items.mapM change).Answers registry tracked shared
      (· = items.map changed) := by
  induction items generalizing shared with
  | nil =>
    rw [List.mapM_nil]
    exact .pure rfl
  | cons a rest ih =>
    rw [List.mapM_cons]
    refine (changes _ (fun _ => id) a hitems.head).bind
      (gives _ (fun _ => id) a hitems.head)
      fun later le first same _ => ?_
    -- The rest is changed in what the first change has left.
    have nodes := hitems.tail.le le
    have gives' := fun shared' (le' : ∀ t, later t → shared' t) =>
      gives shared' fun t ht => le' t (le t ht)
    have changes' := fun shared' (le' : ∀ t, later t → shared' t) =>
      changes shared' fun t ht => le' t (le t ht)
    refine (ih gives' changes' nodes).bind (gives_mapM gives' nodes)
      fun _ _ others same' _ => ?_
    rw [same, same', List.map_cons]
    exact .pure rfl

/-- Each of several types has its variables replaced. -/
theorem Ty.answers_mapM_substituted (live : registry.held = none) {ts : List Ty}
    (hts : AreNodes registry.modules shared ts)
    (htypes : AreNodes registry.modules shared types)
    (hmethods : AreNodes registry.modules shared methods) :
    (ts.mapM fun t : Ty => t.substituted types methods).Answers registry
      tracked shared
      (· = ts.map (Ty.replaced types methods)) := by
  have nodes : AreNodes registry.modules shared (ts.map id) :=
    (List.map_id ts).symm ▸ hts
  exact answers_mapM
    (fun _ le t ht => Ty.gives_substituted ht (htypes.le le) (hmethods.le le))
    (fun _ le t ht => Ty.answers_substituted live ht (htypes.le le)
      (hmethods.le le)) nodes

theorem Ty.answers_substituted_twice (live : registry.held = none)
    (ht : t.IsNode registry.modules shared)
    (htypes : AreNodes registry.modules shared types)
    (hmethods : AreNodes registry.modules shared methods)
    (htypes' : AreNodes registry.modules shared types')
    (hmethods' : AreNodes registry.modules shared methods') :
    (do (← t.substituted types
      methods).substituted types' methods' : Query Ty).Answers registry
      tracked shared
        (· = (t.replaced types methods).replaced types' methods') := by
  refine (Ty.answers_substituted live ht htypes hmethods).bind
    (Ty.gives_substituted ht htypes hmethods) fun _ le u same hu => ?_
  rw [← same]
  exact Ty.answers_substituted live hu.head (htypes'.le le) (hmethods'.le le)

/-- The second substitution changes the arguments of the first, and adds what it
has beyond them. -/
theorem Ty.answers_substituted_once (live : registry.held = none)
    (ht : t.IsNode registry.modules shared)
    (htypes : AreNodes registry.modules shared types)
    (hmethods : AreNodes registry.modules shared methods)
    (htypes' : AreNodes registry.modules shared types')
    (hmethods' : AreNodes registry.modules shared methods') :
    (do
      let changedTypes ← types.mapM fun a : Ty => a.substituted types' methods'
      let changedMethods ← methods.mapM fun a : Ty =>
          a.substituted types' methods'
      t.substituted (changedTypes ++ types'.drop types.length)
        (changedMethods ++ methods'.drop methods.length) :
          Query Ty).Answers registry
      tracked shared
        (· = (t.replaced types methods).replaced types' methods') := by
  rw [Ty.replaced_replaced]
  refine (Ty.answers_mapM_substituted live htypes htypes' hmethods').bind
    (Ty.gives_mapM_substituted htypes htypes' hmethods')
      fun _ le us same hus => ?_
  refine (Ty.answers_mapM_substituted live (hmethods.le le) (htypes'.le le)
    (hmethods'.le le)).bind
    (Ty.gives_mapM_substituted (hmethods.le le) (htypes'.le le)
      (hmethods'.le le))
    fun _ le' vs same' hvs => ?_
  -- With the changed arguments in hand, one substitution is left.
  rw [← same, ← same']
  have restTypes : AreNodes registry.modules shared
      (types'.drop types.length) :=
    fun u hu => htypes' u (List.mem_of_mem_drop hu)
  have restMethods : AreNodes registry.modules shared
      (methods'.drop methods.length) :=
    fun u hu => hmethods' u (List.mem_of_mem_drop hu)
  exact Ty.answers_substituted live ((ht.le le).le le')
    ((AreNodes.le hus le').append ((restTypes.le le).le le'))
    (AreNodes.append hvs ((restMethods.le le).le le'))

end

/-! ### Substitution in sessions -/

namespace TypeSystem

variable {system : TypeSystem}

/-- What substitution does in a type system. -/
structure Substitutes (system : TypeSystem) (t : Ty)
    (types methods types' methods' : List Ty) :
    Prop where
  /-- It never fails, and replaces all variables of the type at once. -/
  answers : (system.ask (t.substituted types methods)).1
    = .ok (t.replaced types methods)
  /-- Two substitutions are one, in which the arguments of the first are changed
  by the second and are followed by what the second has beyond them. -/
  composes : ∃ u,
    (system.ask do (← t.substituted types
      methods).substituted types' methods').1 = .ok u ∧
    (system.ask do
      let changedTypes ← types.mapM fun a : Ty => a.substituted types' methods'
      let changedMethods ← methods.mapM fun a : Ty =>
          a.substituted types' methods'
      t.substituted (changedTypes ++ types'.drop types.length)
        (changedMethods ++ methods'.drop methods.length)).1 = .ok u
  /-- A type in which no variable has an argument is itself. -/
  unmatched : t.IsUnmatched types methods →
    (system.ask (t.substituted types methods)).1 = .ok t
  /-- What takes the place of a variable is the argument as it is, with all its
  variables. -/
  argument : ∀ (index : UInt32) (isMethod : Bool) (a : Ty),
    (if isMethod then methods else types)[index.toNat]? = some a →
      (system.ask ((Ty.var index isMethod).substituted types methods)).1 = .ok a

/-- A question changes nothing that the type system knows for good. -/
theorem registry_of_ask {α : Type} {query : Query α} {outcome : Except Error α}
    {later : TypeSystem} (asked : system.ask query = (outcome, later)) :
    later.registry = system.registry :=
  (congrArg (fun answer => answer.2.registry) asked).symm

/-- Looking for well-known types changes no more than the categories that are
fixed. -/
theorem registry_findWellKnown (system : TypeSystem) (m : Module)
    (kinds : List WellKnown) :
    ∃ fixedCategories, (system.findWellKnown m kinds).2.registry
      = { system.registry with fixedCategories } := by
  induction kinds generalizing system with
  | nil => exact ⟨_, rfl⟩
  | cons kind rest ih =>
    rw [findWellKnown]
    cases hask : system.ask (declaredWellKnown m kind) with
    | mk outcome asked =>
      have same : asked.registry = system.registry := registry_of_ask hask
      cases outcome with
      -- The walk ends, and only questions were asked.
      | error error => exact ⟨_, same⟩
      | ok t =>
        -- Fixing a category changes nothing else of the registry.
        have fixes : ∃ fixedCategories, (asked.fixCategory t kind).registry
            = { asked.registry with fixedCategories } := by
          rw [fixCategory]
          cases kind.fixedCategory? with
          | none => exact ⟨_, rfl⟩
          | some category => exact ⟨_, rfl⟩
        obtain ⟨fixed, hfixed⟩ := fixes
        obtain ⟨later, hlater⟩ := ih (asked.fixCategory t kind)
        refine ⟨later, ?_⟩
        show ((asked.fixCategory t kind).findWellKnown m rest).2.registry = _
        rw [hlater, hfixed, same]

/-- Getting ready changes no more than what is known of well-known types. -/
theorem registry_start (system : TypeSystem) : ∃ fixedCategories wellKnown,
    system.start.2.registry
      = { system.registry with fixedCategories, wellKnown } := by
  rw [start]
  by_cases ready : system.isReady
  · rw [if_pos ready]
    exact ⟨_, _, rfl⟩
  · rw [if_neg ready]
    dsimp only
    cases system.registry.module? system.registry.options.systemModule with
    | none => exact ⟨_, _, rfl⟩
    | some m =>
      obtain ⟨fixed, hfixed⟩ := registry_findWellKnown system m WellKnown.all
      dsimp only
      cases hfound : system.findWellKnown m WellKnown.all with
      | mk outcome found =>
        rw [hfound] at hfixed
        cases outcome with
        -- Some type is missing, and the system is no readier than before.
        | error error => exact ⟨fixed, system.registry.wellKnown, hfixed⟩
        | ok types =>
          -- All types are there.
          refine ⟨fixed, some types, ?_⟩
          show { found.registry with wellKnown := some types } = _
          rw [show found.registry = _ from hfixed]

end TypeSystem

namespace Session

variable {s : Session} {options : Options}

/-- A step changes what modules there are and what is known of well-known types,
at most. -/
theorem Step.registry {s' : Session} {action : Action} (step : Step s action s') :
    ∃ modules fixedCategories wellKnown, s'.system.registry
      = { s.system.registry with modules, fixedCategories, wellKnown } := by
  cases step with
  | addModule _ added =>
    rw [TypeSystem.addModule] at added
    split at added
    · cases added
    · cases added
      exact ⟨_, _, _, rfl⟩
  | start started =>
    obtain ⟨fixed, wellKnown, same⟩ := TypeSystem.registry_start s.system
    rw [started] at same
    exact ⟨_, fixed, wellKnown, same⟩
  | failed _ _ asked | answered _ asked =>
    exact ⟨_, _, _, TypeSystem.registry_of_ask asked⟩

/-- No session releases its type system. -/
theorem IsReachable.live (h : s.IsReachable options) :
    s.system.registry.held = none := by
  induction h with
  | new => rfl
  | step _ step ih =>
    obtain ⟨modules, fixed, wellKnown, same⟩ := step.registry
    rw [same]
    exact ih

/-- What a query has for an answer in every faithful memory, it answers in a
session. -/
theorem IsReachable.ask_eq_ok (h : s.IsReachable options) {α : Type}
    {query : Query α} {a : α}
    (answers : query.Answers s.system.registry true
      (s.system.memory.Shares true) (· = a)) :
    (s.system.ask query).1 = .ok a := by
  obtain ⟨b, run, rfl⟩ := answers s.system.memory h.isFaithful.system
    fun _ => id
  exact run

end Session

end CliMetadata
