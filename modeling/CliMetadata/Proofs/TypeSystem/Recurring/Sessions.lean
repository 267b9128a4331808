import CliMetadata.Proofs.TypeSystem.History
import CliMetadata.Proofs.TypeSystem.Recurring.Questions

/-!
# Whatever was asked before

In any session, and whichever owners of members the caller made up, what is
remembered of plain facts is what is found where nothing is remembered
(`Session.IsReachable.isSettledSince`).  So a query that recurs has the answer
that it would have from the start, whatever was asked before.
-/

namespace CliMetadata

open Filter Query

/-! ### Growing type systems -/

theorem Fact.IsPlain.isSteady {fact : Fact} (plain : fact.IsPlain)
    (modules : List Module) :
    fact.IsSteady modules := by
  unfold IsSteady
  split
  · exact plain.elim
  · exact trivial

/-- What was settled from the start stays so while the type system grows. -/
theorem Memory.IsSettledSince.grow {gap : Gap} {before after : Registry}
    {memory : Memory} (settled : memory.IsSettledSince before {})
    (leads : before.LeadsTo gap after) (sound : after.IsSound) :
    memory.IsSettledSince after {} where
  precedes := settled.precedes
  facts fact value known fresh plain := by
    have told := settled.facts fact value known fresh plain
    have allowed := told.allowed.more leads.modules
    have true : fact.IsTrue before value := told.isFoundFrom
    have settles : fact.IsSettled after value := by
      refine true.settles leads sound (fun t same => ?_)
        (plain.isSteady _) allowed
      subst same
      exact plain.elim
    have found : fact.IsFoundFrom after {} value := settles.isTrue
    exact found.settles sound.proper plain allowed

namespace TypeSystem

variable {system : TypeSystem} {m : Module}

theorem recurs_declaredWellKnown {registry : Registry} {base : Memory}
    {patience : Nat} (proper : registry.IsProper) (hm : m ∈ registry.modules)
    (kind : WellKnown) :
    Recurs registry base patience fun _ => declaredWellKnown m kind := by
  refine (Module.recurs_typeNamed proper hm _ _).bind fun found => ?_
  cases found with
  | some t => exact .pure t
  | none => exact .throw _

/-- Looking for well-known types leaves the memory settled from the start. -/
theorem settles_findWellKnown (sound : system.registry.IsSound)
    (settled : system.memory.IsSettledSince system.registry {})
    (unready : system.registry.wellKnown = none)
    (hm : m ∈ system.registry.modules) (kinds : List WellKnown) :
    (system.findWellKnown m kinds).2.memory.IsSettledSince
      (system.findWellKnown m kinds).2.registry {} := by
  induction kinds generalizing system with
  | nil => exact settled
  | cons kind rest ih =>
    have asks : (declaredWellKnown m kind).Settles system.registry
        {} system.registry.patience :=
      (recurs_declaredWellKnown sound.proper hm kind).settling
    have kept := asks system.memory settled
    rw [findWellKnown, ask]
    rcases hrun : declaredWellKnown m kind system.registry system.memory
      with ⟨error | t, memory⟩
    · -- The kind is not declared, and what was remembered so far is settled.
      rw [show declaredWellKnown m kind (system.registry.withPatience _) _
        = _ from hrun] at kept
      exact kept
    · rw [show declaredWellKnown m kind (system.registry.withPatience _) _
        = _ from hrun] at kept
      -- Fixing a category changes nothing that the rest depends on.
      have unready' :
          (fixCategory { system with memory } t kind).registry.wellKnown
            = none := by
        rw [fixCategory_eq]
        exact unready
      have hm' :
          m ∈ (fixCategory { system with memory } t kind).registry.modules := by
        rw [fixCategory_eq]
        exact hm
      have sound' := @isSound_fixCategory { system with memory } sound t kind
      have grown := kept.grow
        (@leadsTo_fixCategory { system with memory } sound.live unready t kind)
        sound'
      refine ih sound' ?_ unready' hm'
      rw [fixCategory_eq] at grown ⊢
      exact grown

/-- Getting ready leaves the memory settled from the start. -/
theorem settles_start (sound : system.registry.IsSound)
    (sound' : system.start.2.registry.IsSound)
    (settled : system.memory.IsSettledSince system.registry {}) :
    system.start.2.memory.IsSettledSince system.start.2.registry {} := by
  by_cases starts : system.isReady = true ∨
      system.registry.module? system.registry.options.systemModule = none
  · rw [start_eq_self starts]
    exact settled
  obtain ⟨unready, there⟩ := not_or.mp starts
  obtain ⟨m, hm⟩ := Option.ne_none_iff_exists'.mp there
  have unknown : system.registry.wellKnown = none := by
    simpa [isReady] using unready
  obtain ⟨fixed, found⟩ := registry_findWellKnown system m WellKnown.all
  obtain ⟨wellKnown, -, started⟩ :=
    start_of_module? (Bool.eq_false_iff.mpr unready) hm
      (by rw [found]; exact unknown)
  have kept := settles_findWellKnown sound settled unknown
    (Registry.mem_of_module? hm).1 WellKnown.all
  -- With what was found the type system grows once more.
  have leads : (system.findWellKnown m WellKnown.all).2.registry.LeadsTo .growth
      system.start.2.registry := by
    rw [started, found]
    exact .grow sound.live rfl (fun _ => id) (List.append_nil _).symm
      (by simp [unknown])
  have grown := kept.grow leads sound'
  rw [started] at grown ⊢
  exact grown

end TypeSystem

/-! ### Sessions -/

namespace Session

variable {s : Session} {options : Options}

/-- Whatever a caller does, what is remembered of plain facts is found where
nothing is remembered. -/
theorem IsReachable.isSettledSince (h : s.IsReachable options) :
    s.system.memory.IsSettledSince s.system.registry {} := by
  induction h with
  | new => exact Memory.isSettledSince_base _ _
  | @step s s' action before step ih =>
    have after : s'.IsReachable options := before.step step
    have asked (question : Question) :
        (s.system.ask question.answer).2.memory.IsSettledSince
          s.system.registry {} :=
      question.settles_answer before.isSound.proper s.system.memory ih
    cases step with
    | addModule built added =>
      have grown := ih.grow (TypeSystem.leadsTo_addModule before.live added)
        after.isSound
      have more := TypeSystem.eq_of_addModule added
      rw [more] at grown ⊢
      exact grown
    | start started =>
      have kept := TypeSystem.settles_start before.isSound
        (by rw [started]; exact after.isSound) ih
      rw [started] at kept
      exact kept
    | @failed question _ _ _ _ run =>
      have kept := asked question
      have same := TypeSystem.registry_of_ask run
      rw [run, ← same] at kept
      exact kept
    | @answered question _ _ _ run =>
      have kept := asked question
      have same := TypeSystem.registry_of_ask run
      rw [run, ← same] at kept
      exact kept

end Session

end CliMetadata
