import CliMetadata.Proofs.TypeSystem.Commutation
import CliMetadata.Proofs.TypeSystem.Recurring.Later

/-!
# Requests for flags are independent

In any session, a request for flags of a type comes to what its parts come to:
requests combine, a part is the same whatever it is requested with, and a
request comes to the same later, whatever flags of whatever types are requested
in between (`Session.IsReachable.combinesFlags`).
-/

namespace CliMetadata

open Filter Query

/-! ### Bits -/

theorem FlagRequest.bits_eq (bits : UInt8) :
    ((if bits &&& 1 != 0 then 1 else 0) ||| (if bits &&& 2 != 0 then 2 else 0)
      ||| (if bits &&& 4 != 0 then 4 else 0) |||
        (if bits &&& 8 != 0 then 8 else 0) : UInt8)
        = bits &&& 15 := by
  obtain ⟨bits⟩ := bits
  revert bits
  decide

/-- The parts that are there are told by the bits of the request that has just
these. -/
theorem TypeFacts.computed_eq {facts : TypeFacts} {bits : UInt8}
    (h : facts.request = .ofBits bits) : facts.computed = bits &&& 15 := by
  have category : facts.category.isSome = (bits &&& 1 != 0) :=
    congrArg FlagRequest.category h
  have variance : facts.variance.isSome = (bits &&& 2 != 0) :=
    congrArg FlagRequest.variance h
  have finalizer : facts.finalizer.isSome = (bits &&& 4 != 0) :=
    congrArg FlagRequest.finalizer h
  have attributes : facts.attributes.isSome = (bits &&& 8 != 0) :=
    congrArg FlagRequest.attributes h
  rw [computed, category, variance, finalizer, attributes]
  exact FlagRequest.bits_eq bits

namespace FlagRequest

@[simp]
theorem union_left (a b : FlagRequest) : (a.union b).union a = a.union b := by
  simp only [union, Bool.or_right_comm, Bool.or_self]

@[simp]
theorem union_right (a b : FlagRequest) : (a.union b).union b = a.union b := by
  simp only [union, Bool.or_assoc, Bool.or_self]

end FlagRequest

/-! ### Requests to a type system -/

/-- Requests for flags of a type combine. -/
structure TypeSystem.CombinesFlags (system : TypeSystem) (t : Ty) : Prop where
  /-- Two requests together are answered if and only if both of them are. -/
  succeeds : ∀ a b : UInt8,
    (∃ facts, system.Resolves (t.findFlags (.ofBits (a ||| b))) facts) ↔
    (∃ facts, system.Resolves (t.findFlags (.ofBits a)) facts) ∧
      ∃ facts, system.Resolves (t.findFlags (.ofBits b)) facts
  /-- An answer has the parts that were requested, and no others. -/
  carries : ∀ (a : UInt8) facts,
    system.Resolves (t.findFlags (.ofBits a)) facts →
    facts.computed = a &&& 15
  /-- What is requested on its own is answered as it is together with others. -/
  separates : ∀ (a b : UInt8) facts, a ||| b = a →
    system.Resolves (t.findFlags (.ofBits a)) facts →
    system.Resolves (t.findFlags (.ofBits b)) (facts.restrict (.ofBits b))
  /-- A request that came to an end, be it an error, comes to the same before
  and after any other requests. -/
  lasts : ∀ request patience,
    NotCircular ((system.withPatience patience).ask (t.findFlags request)).1 →
      system.ComesTo (t.findFlags request)
        (· = ((system.withPatience patience).ask (t.findFlags request)).1) ∧
      ∀ later, Relation.ReflTransGen TypeSystem.MakesRequest
        ((system.withPatience patience).ask (t.findFlags request)).2 later →
          later.ComesTo (t.findFlags request)
            (· = ((system.withPatience patience).ask (t.findFlags request)).1)

namespace TypeSystem

variable {system : TypeSystem} (proper : system.registry.IsProper) {t : Ty}
  {request : FlagRequest} {facts : TypeFacts}
include proper

/-- A request is answered with the parts that it has. -/
theorem resolves_findFlags_iff : system.Resolves (t.findFlags request) facts ↔
    t.HasParts system.registry system.memory request facts := by
  refine ⟨fun resolves => ?_, Ty.HasParts.resolves⟩
  obtain ⟨patience, answer⟩ := resolves.exists
  exact Ty.hasParts_of_apply proper answer

theorem combinesFlags_of_isProper (t : Ty) : system.CombinesFlags t where
  succeeds a b := by
    -- A request for both is answered exactly if both are.
    simp only [resolves_findFlags_iff proper, FlagRequest.ofBits_or]
    constructor
    · rintro ⟨facts, parts⟩
      exact ⟨⟨_, parts.restrict (FlagRequest.union_left _ _)⟩, _,
        parts.restrict (FlagRequest.union_right _ _)⟩
    · rintro ⟨⟨facts, parts⟩, facts', parts'⟩
      exact ⟨_, parts.union parts'⟩
  -- What is answered is what was asked for.
  carries a facts resolves :=
    TypeFacts.computed_eq
      ((resolves_findFlags_iff proper).mp resolves).request_eq
  -- A request is answered with the part of a wider one.
  separates a b facts among resolves := by
    rw [resolves_findFlags_iff proper] at resolves ⊢
    exact resolves.restrict (by rw [← FlagRequest.ofBits_or, among])
  -- The same comes out behind any requests.
  lasts request patience ends :=
    ⟨comesTo_findFlags proper ends,
      fun later run => comesTo_findFlags_later proper ends run⟩

end TypeSystem

/-! ### Sessions -/

namespace Session

variable {s : Session} {options : Options}

/-- In a session, requests for flags of any type combine. -/
theorem IsReachable.combinesFlags (h : s.IsReachable options) (t : Ty) :
    s.system.CombinesFlags t :=
  TypeSystem.combinesFlags_of_isProper h.isFaithful.system.proper t

/-- Before a type system is started, it is known that no parameter of a crate
varies, but not of what category crates are. -/
theorem crate_combinesFlags : ∃ s : Session, s.IsReachable {} ∧
    s.system.registry.modules = [crateModule] ∧
    s.system.CombinesFlags (.definition crate) ∧
    s.system.Resolves ((Ty.definition crate).findFlags (.ofBits 2))
      { variance := some false } ∧
    ¬ ∃ facts, s.system.Resolves ((Ty.definition crate).findFlags (.ofBits 3))
      facts := by
  let s : Session := { system := { registry := { modules := [crateModule] } } }
  have reachable : s.IsReachable {} := by
    have built := (ModuleBuilder.IsBuilt.new "App").applyAll crateCalls
    exact IsReachable.new.step (.addModule built rfl)
  have combines := IsReachable.combinesFlags reachable (.definition crate)
  have unknown (aspect : TypeAspect) :
      s.system.memory.facts.get? (.ofType (.definition crate) aspect) = none :=
    Std.DHashMap.get?_empty
  have asked (request : FlagRequest) (patience : Nat) :
      ((s.system.withPatience patience).ask
        ((Ty.definition crate).findFlags request)).1
        = ((Ty.definition crate).findParts request
          (s.system.registry.withPatience patience) s.system.memory).1 :=
    Ty.findFlags_apply ..
  refine ⟨s, reachable, rfl, combines, .of_forall fun patience => ?_,
    fun answered => ?_⟩
  · -- The one parameter is found in its row, and is handed out as a node.
    have proper : (s.system.registry.withPatience patience).IsProper :=
      ⟨reachable.isFaithful.system.proper.rows,
        reachable.isFaithful.system.proper.names⟩
    have reach := reachModule_apply proper rfl
      (List.mem_singleton_self crateModule) s.system.memory
    have parameter := share_eq (.parameter crateParameter)
      (s.system.registry.withPatience patience) s.system.memory
    have parameters : crateModule.parametersOf crate.token
        (s.system.registry.withPatience patience) s.system.memory
          = (.ok [.parameter crateParameter], _) := bind_apply_ok parameter
    have search :
        (do (← reachModule crate.module).parametersOf crate.token : Query (List
          Ty))
        (s.system.registry.withPatience patience) s.system.memory
          = (.ok [.parameter crateParameter], _) :=
          (bind_apply_ok reach).trans parameters
    have found : crate.parameters (s.system.registry.withPatience patience)
        s.system.memory
        = (.ok [.parameter crateParameter], _) :=
        rememberIf_apply_ok (unknown .parameters) search
    have run : (Ty.definition crate).findVariance
        (s.system.registry.withPatience patience)
        s.system.memory = (.ok false, _) := bind_apply_ok found
    have part := Ty.part_apply_unknown (unknown .variance) run
    rw [asked, Ty.findParts]
    exact congrArg Prod.fst (bind_apply_ok part)
  · obtain ⟨facts, resolves⟩ := ((combines.succeeds 1 2).mp answered).1
    obtain ⟨patience, told⟩ := resolves.exists
    have run : (Ty.definition crate).findCategory
        (s.system.registry.withPatience patience)
        s.system.memory = (.error .notReady, s.system.memory) := rfl
    have part := Ty.part_apply_unknown (unknown .category) run
    rw [asked] at told
    obtain ⟨m₁, m₂, m₃, first, -⟩ := Ty.findParts_eq_ok (Prod.ext told rfl)
    cases part.symm.trans first

end Session

end CliMetadata
