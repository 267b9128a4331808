import CliMetadata.Proofs.TypeSystem.Lasting.Questions

/-!
# One node for each type

A node has an address besides what it tells, so that a type system could hand
out two nodes for one type.  It never does: whatever a caller does, and however
much later, two nodes are one exactly if they have one form
(`Session.IsReachable.isCanonical`).  That is why types may be compared by what
they tell.

Both halves are needed.  No type has two nodes because every node is kept by the
tables (`Nodes.AreKept`).  No form has two types because what a type tells
besides its form is read off the rows of modules (`Ty.IsNode.eq_of_form_eq`).
-/

namespace CliMetadata.Session

variable {s s' : Session} {options : Options}

/-- The type that a node of a type system tells. -/
def HasNode (s : Session) (address : Address) (t : Ty) : Prop :=
  s.system.memory.nodes.types[address]? = some t

/-- Each type that a caller holds is the one node of its form, for good. -/
structure IsCanonical (s : Session) : Prop where
  /-- Every way to a type goes through the tables, and they answer with its node
  whenever it is asked for again. -/
  kept : ∀ t ∈ s.types, ∃ address, s.HasNode address t ∧
    ∀ s', s.LeadsTo s' → (s'.system.memory.nodes.intern t).1 = address
  /-- A node and another one, which may be made later, are the same exactly if
  they have one form. -/
  unique : ∀ s', s.LeadsTo s' → ∀ address address' t t', s.HasNode address t →
    s'.HasNode address' t' → (address = address' ↔ t.form = t'.form)
  /-- What is applied is a definition of a module, with an argument for each of
  its parameters. -/
  applied : ∀ d arguments, .applied d arguments ∈ s.types →
    d.IsDeclared s.system.registry.modules ∧ 1 ≤ arguments.length ∧
      d.HasArity s.system.registry.modules arguments.length
  array : ∀ rank element, .shaped (.array rank) element ∈ s.types →
    1 ≤ rank ∧ rank ≤ 32

/-- What a caller can go on to is there already. -/
theorem LeadsTo.precedes (leads : s.LeadsTo s') (h : s.IsReachable options) :
    s.system.Precedes s'.system := by
  induction leads with
  | refl => exact .rfl
  | tail before step ih =>
    obtain ⟨_, step⟩ := step
    have faithful := (LeadsTo.isReachable before h).isFaithful
    exact ih.trans (faithful.step_precedes step).2

section
variable (h : s.IsReachable options)
include h

/-- In any session, every node is the one that the tables keep. -/
theorem IsReachable.areKept : s.system.memory.nodes.AreKept :=
  h.isFaithful.system.kept rfl

/-- Nodes of one form tell the same. -/
theorem IsReachable.eq_of_form_eq {address address' : Address} {t t' : Ty}
    (ht : s.HasNode address t) (ht' : s.HasNode address' t')
    (same : t.form = t'.form) :
    t = t' := by
  have faithful := h.isFaithful.system
  exact Ty.IsNode.eq_of_form_eq faithful.proper t t'
    (faithful.nodes rfl address t ht) (faithful.nodes rfl address' t' ht') same

/-- There is one node for each form that a caller meets, whatever the caller did
to meet it. -/
theorem IsReachable.isCanonical : s.IsCanonical where
  kept t ht := by
    obtain ⟨address, made⟩ := (h.isFaithful.held t ht).isShared rfl
    refine ⟨address, made, fun s' leads => ?_⟩
    -- The node is still there, and so the tables answer with it.
    have later := (leads.precedes h).nodes address t made
    rw [(leads.isReachable h).areKept.intern_eq later]
  unique s' leads address address' t t' made made' := by
    have later := (leads.precedes h).nodes address t made
    have reachable := leads.isReachable h
    constructor
    · rintro rfl
      exact congrArg Ty.form (Option.some.inj (later.symm.trans made'))
    · intro same
      obtain rfl := reachable.eq_of_form_eq later made' same
      exact reachable.areKept.eq later made'
  applied d arguments held := by
    cases h.isFaithful.held _ held with
    | applied definition _ positive parameters =>
      cases definition with
      | definition declared => exact ⟨declared, positive, parameters.hasArity⟩
  array rank element held := by
    cases h.isFaithful.held _ held with
    | shaped _ allowed => exact allowed

end

/-- A crate of variables, an array of the same variable and the variable itself
are three nodes, and the variable in them is one. -/
theorem crate_isCanonical : ∃ s : Session, s.IsReachable {} ∧
    .applied crate [.var 0 false] ∈ s.types ∧
    .shaped .vector (.var 0 false) ∈ s.types ∧
    s.IsCanonical ∧ (∃! address, s.HasNode address (.var 0 false)) ∧
    ∃ crates arrays, s.HasNode crates (.applied crate [.var 0 false]) ∧
      s.HasNode arrays (.shaped .vector (.var 0 false)) ∧ crates ≠ arrays := by
  obtain ⟨s, careful, -, -, held, array⟩ := exists_holds_crate
  have canonical := IsReachable.isCanonical careful.isReachable
  refine ⟨s, careful.isReachable, held, array, canonical, ?_, ?_⟩
  · -- The variable is part of the array, so that it has a node.
    cases careful.isReachable.isFaithful.held _ array with
    | shaped element =>
      obtain ⟨address, made⟩ := element.isShared rfl
      exact ⟨address, made, fun other made' =>
        (canonical.unique s .refl _ _ _ _ made' made).mpr rfl⟩
  · -- The applied type and the array have nodes, and not the same one.
    obtain ⟨crates, made, -⟩ := canonical.kept _ held
    obtain ⟨arrays, made', -⟩ := canonical.kept _ array
    refine ⟨crates, arrays, made, made', fun same => ?_⟩
    have same := (canonical.unique s .refl _ _ _ _ made made').mp same
    simp [Ty.form] at same

end CliMetadata.Session
