import CliMetadata.Proofs.TypeSystem.Recurring.Flags

/-!
# Requests for flags combine

A request first asks for the parts of the flags that are wanted, in order, and
then establishes them (`Ty.findFlags_eq`).  What a part comes to does not depend
on the parts before it.  So a request has an answer if and only if each part has
one that is wanted, and the answer is put together from these (`Ty.HasParts`):
requests can be restricted and united.
-/

namespace CliMetadata

open Filter Query

/-! ### The bits of requests -/

namespace FlagRequest

/-- The request of the bits of two requests is what either asks for. -/
@[simp]
theorem ofBits_or (a b : UInt8) :
    ofBits (a ||| b) = (ofBits a).union (ofBits b) := by
  have bit (mask : UInt8) :
      ((a ||| b) &&& mask != 0) = (a &&& mask != 0 || b &&& mask != 0) := by
    have distributes : (a ||| b) &&& mask = (a &&& mask) ||| (b &&& mask) :=
      UInt8.toBitVec_inj.mp BitVec.and_or_distrib_right
    rw [distributes, Bool.eq_iff_iff]
    simp only [bne_iff_ne, Bool.or_eq_true, ne_eq, UInt8.or_eq_zero_iff]
    tauto
  simp only [ofBits, union, bit]

end FlagRequest

namespace TypeFacts

/-- The parts that a request asks for. -/
def restrict (facts : TypeFacts) (request : FlagRequest) : TypeFacts :=
  { category := if request.category then facts.category else none
    variance := if request.variance then facts.variance else none
    finalizer := if request.finalizer then facts.finalizer else none
    attributes := if request.attributes then facts.attributes else none }

/-- The parts that are there on either side. -/
def union (a b : TypeFacts) : TypeFacts :=
  { category := a.category.or b.category
    variance := a.variance.or b.variance
    finalizer := a.finalizer.or b.finalizer
    attributes := a.attributes.or b.attributes }

/-- The request that is answered by just these parts. -/
def request (facts : TypeFacts) : FlagRequest :=
  { category := facts.category.isSome
    variance := facts.variance.isSome
    finalizer := facts.finalizer.isSome
    attributes := facts.attributes.isSome }

end TypeFacts

/-! ### Parts, and what is established -/

namespace Ty

/-- The parts of a type's flags that are asked for, before they are
established. -/
def findParts (t : Ty) (request : FlagRequest) : Query TypeFacts := do
  let category ← t.part request.category .category t.findCategory
  let variance ← t.part request.variance .variance t.findVariance
  let finalizer ← t.part request.finalizer .finalizer t.findFinalizer
  let attributes ← t.part request.attributes .attributeFlags
      t.findAttributeFlags
  return { category, variance, finalizer, attributes }

/-- Establishes the parts of a type's flags that are there. -/
def publish (t : Ty) (facts : TypeFacts) : Query TypeFacts := do
  t.establishPart .category facts.category
  t.establishPart .variance facts.variance
  t.establishPart .finalizer facts.finalizer
  t.establishPart .attributeFlags facts.attributes
  return facts

/-- All parts are found before any of them is established. -/
theorem findFlags_eq (t : Ty) (request : FlagRequest) :
    t.findFlags request = t.findParts request >>= t.publish := by
  simp only [findFlags, findParts, findFinalizer, bind_assoc]
  rfl

/-- What a request with an answer found, one part after the other. -/
theorem findParts_eq_ok {t : Ty} {request : FlagRequest} {registry : Registry}
    {memory after : Memory} {facts : TypeFacts}
    (run : t.findParts request registry memory = (.ok facts, after)) :
    ∃ m₁ m₂ m₃,
      t.part request.category .category t.findCategory registry memory
        = (.ok facts.category, m₁) ∧
      t.part request.variance .variance t.findVariance registry m₁
        = (.ok facts.variance, m₂) ∧
      t.part request.finalizer .finalizer t.findFinalizer registry m₂
        = (.ok facts.finalizer, m₃) ∧
      t.part request.attributes .attributeFlags t.findAttributeFlags registry m₃
        = (.ok facts.attributes, after) := by
  -- Each part is found in the memory that the part before it left.
  obtain ⟨c, m₁, category, run⟩ := bind_run_eq_ok.mp run
  obtain ⟨v, m₂, variance, run⟩ := bind_run_eq_ok.mp run
  obtain ⟨f, m₃, finalizer, run⟩ := bind_run_eq_ok.mp run
  obtain ⟨a, m₄, attributes, run⟩ := bind_run_eq_ok.mp run
  cases run
  exact ⟨m₁, m₂, m₃, category, variance, finalizer, attributes⟩

end Ty

namespace Memory

/-- The memory after a part of a type's flags was established, if it is
there. -/
def withPart (memory : Memory) (t : Ty) (aspect : TypeAspect) :
    Option aspect.Value → Memory
  | some value =>
    { memory with facts := memory.facts.insert (.ofType t aspect) value }
  | none => memory

/-- The memory after the parts of a type's flags were established that are
there. -/
def published (memory : Memory) (t : Ty) (facts : TypeFacts) : Memory :=
  (((memory.withPart t .category facts.category).withPart t .variance
    facts.variance).withPart t
    .finalizer facts.finalizer).withPart t .attributeFlags facts.attributes

variable {registry : Registry} {base memory : Memory}

section
variable (t : Ty) (aspect : TypeAspect) (part : Option aspect.Value)

@[simp]
theorem methodOwners_withPart :
    (memory.withPart t aspect part).methodOwners = memory.methodOwners := by
  cases part <;> rfl

variable {t aspect part} in
theorem IsSettledSince.withPart (h : memory.IsSettledSince registry base)
    (notable : ∀ value ∈ part,
      (Fact.ofType t aspect).IsNotable registry base value) :
    (memory.withPart t aspect part).IsSettledSince registry base := by
  cases part with
  | none => exact h
  | some value => exact h.establish (notable value rfl)

theorem sameMembers_withPart (memory : Memory)
    (plain : (Fact.ofType t aspect).IsPlain) :
    memory.SameMembers (memory.withPart t aspect part) := by
  cases part with
  | none => exact .refl memory
  | some value => exact (SameMembers.refl memory).establish plain

end

/-- What becomes known of finalizers is what is established. -/
theorem finalizer_published {t u : Ty} {facts : TypeFacts} {value : Bool}
    (known : (memory.published t facts).facts.get? (.ofType u .finalizer)
      = some value) :
    t = u ∧ facts.finalizer = some value ∨
      memory.facts.get? (.ofType u .finalizer) = some value := by
  rw [published,
    (sameMembers_withPart t .attributeFlags _ _ trivial).finalizers] at known
  have others : memory.SameMembers
      ((memory.withPart t .category facts.category).withPart t .variance
        facts.variance) :=
    (sameMembers_withPart t .category _ _ trivial).trans
      (sameMembers_withPart t .variance _ _ trivial)
  cases found : facts.finalizer with
  | none =>
    -- Nothing was published of the finalizer.
    rw [found] at known
    exact .inr ((others.finalizers u).symm.trans known)
  | some other =>
    -- What is known is the part that was published, or is about another type.
    rw [found, withPart] at known
    rcases get?_insert known with ⟨same, rfl⟩ | known
    · cases same
      exact .inl ⟨rfl, rfl⟩
    · exact .inr ((others.finalizers u).symm.trans known)

end Memory

@[simp]
theorem Ty.publish_apply (t : Ty) (facts : TypeFacts) (registry : Registry)
    (memory : Memory) :
    t.publish facts registry memory
      = (.ok facts, memory.published t facts) := by
  have run (aspect : TypeAspect) (part : Option aspect.Value)
      (memory : Memory) :
      t.establishPart aspect part registry memory
        = (.ok (), memory.withPart t aspect part) := by
    cases part <;> rfl
  rw [publish, bind_apply_ok (run _ _ _), bind_apply_ok (run _ _ _),
    bind_apply_ok (run _ _ _), bind_apply_ok (run _ _ _)]
  rfl

namespace Ty

variable {registry : Registry} {base : Memory} {patience : Nat} {t : Ty}
  {request : FlagRequest}

/-- To publish the parts does not change what they say. -/
@[simp]
theorem findFlags_apply (t : Ty) (request : FlagRequest) (registry : Registry)
    (memory : Memory) :
    (t.findFlags request registry memory).1
      = (t.findParts request registry memory).1 := by
  rw [findFlags_eq]
  rcases run : t.findParts request registry memory with ⟨error | facts, after⟩
  · rw [bind_apply_error run]
  · simp [bind_apply_ok run]

/-- All parts may be established. -/
structure AreNotable (registry : Registry) (base : Memory) (t : Ty)
    (facts : TypeFacts) : Prop where
  category : ∀ value ∈ facts.category,
    (Fact.ofType t .category).IsNotable registry base value
  variance : ∀ value ∈ facts.variance,
    (Fact.ofType t .variance).IsNotable registry base value
  finalizer : ∀ value ∈ facts.finalizer,
    (Fact.ofType t .finalizer).IsNotable registry base value
  attributes : ∀ value ∈ facts.attributes,
    (Fact.ofType t .attributeFlags).IsNotable registry base value

section
variable (proper : registry.IsProper)
include proper

theorem recurs_partCategory (t : Ty) (isWanted : Bool) :
    Recurs registry base patience fun _ => t.part isWanted .category
      t.findCategory :=
  recurs_part t .category trivial (fun _ => rfl)
    (fun _ => t.recurs_findCategory proper) isWanted

omit proper in
theorem recurs_partVariance (t : Ty) (isWanted : Bool) :
    Recurs registry base patience fun _ => t.part isWanted .variance
      t.findVariance :=
  recurs_part t .variance trivial (fun _ => rfl)
    (fun _ => t.recurs_findVariance) isWanted

theorem recurs_partAttributes (t : Ty) (isWanted : Bool) :
    Recurs registry base patience fun _ => t.part isWanted .attributeFlags
      t.findAttributeFlags :=
  recurs_part t .attributeFlags trivial (fun _ => rfl)
    (fun _ => t.recurs_findAttributeFlags proper) isWanted

/-- The parts before the finalizer leave members alone. -/
theorem settled_before_finalizer {memory m₁ m₂ : Memory}
    {category : Option Category} {variance : Option Bool}
    (settled : memory.IsSettledSince registry base)
    (first : t.part request.category .category t.findCategory
      (registry.withPatience patience) memory = (.ok category, m₁))
    (second : t.part request.variance .variance t.findVariance
      (registry.withPatience patience) m₁ = (.ok variance, m₂)) :
    m₂.IsSettledSince registry base ∧ memory.SameMembers m₂ := by
  -- Neither part is told through members, so that members stay as they were.
  have findsCategory : Recurs registry base patience fun _ =>
      t.part request.category .category t.findCategory :=
      t.recurs_partCategory proper _
  have findsVariance : Recurs registry base patience fun _ =>
      t.part request.variance .variance t.findVariance :=
      t.recurs_partVariance _
  have settled₁ := findsCategory.settles memory settled
  have same₁ := findsCategory.same memory settled
  rw [first] at settled₁ same₁
  have settled₂ := findsVariance.settles m₁ settled₁
  have same₂ := findsVariance.same m₁ settled₁
  rw [second] at settled₂ same₂
  exact ⟨settled₂, same₁.trans same₂⟩

theorem leaves_findParts (t : Ty) (request : FlagRequest) :
    (t.findParts request).Leaves registry base patience :=
  (t.recurs_partCategory proper _).leaves.bind
    fun _ => (t.recurs_partVariance _).leaves.bind fun _ =>
    (t.leaves_partFinalizer proper _).bind fun _ =>
      (t.recurs_partAttributes proper _).leaves.bind
        fun _ => (Recurs.pure _).leaves

omit proper in
theorem leaves_publish {memory : Memory} {facts : TypeFacts}
    (settled : memory.IsSettledSince registry base)
    (notable : AreNotable registry base t facts) :
    (memory.published t facts).IsSettledSince registry base :=
  (((settled.withPart notable.category).withPart notable.variance).withPart
    notable.finalizer).withPart notable.attributes

theorem tellsSince_findParts (t : Ty) (request : FlagRequest) :
    (t.findParts request).TellsSince registry base patience
      (AreNotable registry base t) := by
  -- What each part tells is notable in the memory that it leaves.
  refine (t.tellsSince_part .category trivial (fun _ => rfl)
    (fun _ => t.recurs_findCategory proper)
    _).bind (t.recurs_partCategory proper _).leaves fun category hcategory => ?_
  refine (t.tellsSince_part .variance trivial (fun _ => rfl)
    (fun _ => t.recurs_findVariance)
    _).bind (t.recurs_partVariance _).leaves fun variance hvariance => ?_
  refine (t.tellsSince_partFinalizer _).bind (t.leaves_partFinalizer proper _)
    fun finalizer hfinalizer => ?_
  refine (t.tellsSince_part .attributeFlags trivial (fun _ => rfl)
    (fun _ => t.recurs_findAttributeFlags proper) _).bind
      (t.recurs_partAttributes proper _).leaves
    fun attributes hattributes => ?_
  exact .pure ⟨hcategory, hvariance, hfinalizer, hattributes⟩

/-- A request leaves a settled memory settled: whatever it establishes is found
again. -/
theorem settles_findFlags (patience : Nat) (t : Ty) (request : FlagRequest)
    {memory : Memory} (settled : memory.IsSettledSince registry base) :
    (t.findFlags request (registry.withPatience patience)
      memory).2.IsSettledSince registry base := by
  have leaves : (t.findParts request).Leaves registry base patience :=
    t.leaves_findParts proper request
  have kept := leaves.settles memory settled
  rw [findFlags_eq]
  rcases run : t.findParts request (registry.withPatience patience) memory
    with ⟨error | facts, after⟩
  · -- The parts that were found before the error were not published.
    rw [run] at kept
    rw [bind_apply_error run]
    exact kept
  · -- All parts are there and are published together.
    rw [run] at kept
    rw [bind_apply_ok run, publish_apply]
    exact leaves_publish kept
      (t.tellsSince_findParts proper request memory settled facts (by rw [run]))

end

/-! ### From one memory to another -/

/-- What a request finds of the finalizer, once the parts before it are found,
is found from another memory. -/
def FindsFinalizerFrom (registry : Registry) (base : Memory) (patience : Nat)
    (t : Ty) (request : FlagRequest) (memory later : Memory) : Prop :=
  ∀ (category : Option Category) (variance : Option Bool) (m₁ m₂ : Memory),
    t.part request.category .category t.findCategory
      (registry.withPatience patience) memory
      = (.ok category, m₁) →
    t.part request.variance .variance t.findVariance
      (registry.withPatience patience) m₁
      = (.ok variance, m₂) →
    NotCircular (t.part request.finalizer .finalizer t.findFinalizer
      (registry.withPatience patience) m₂).1 →
    (t.part request.finalizer .finalizer t.findFinalizer).ReachesFrom
      registry base later
      (t.part request.finalizer .finalizer t.findFinalizer
        (registry.withPatience patience) m₂).1

section
variable (proper : registry.IsProper)
include proper

/-- What the parts come to, one after the other, they come to from another
memory, if the finalizer does. -/
theorem reachesFrom_findParts {memory later : Memory}
    (settled : memory.IsSettledSince registry base)
    (ends : NotCircular
      (t.findParts request (registry.withPatience patience) memory).1)
    (finalizer : FindsFinalizerFrom registry base patience t request
      memory later) :
    (t.findParts request).ReachesFrom registry base later
      (t.findParts request (registry.withPatience patience) memory).1 := by
  -- All parts but the finalizer recur.
  have findsCategory : Recurs registry base patience fun _ =>
      t.part request.category .category t.findCategory :=
      t.recurs_partCategory proper _
  have findsVariance : Recurs registry base patience fun _ =>
      t.part request.variance .variance t.findVariance :=
      t.recurs_partVariance _
  have findsFinalizer :
      (t.part request.finalizer .finalizer t.findFinalizer).Leaves
        registry base patience := t.leaves_partFinalizer proper _
  have findsAttributes : Recurs registry base patience fun _ =>
      t.part request.attributes .attributeFlags t.findAttributeFlags :=
    t.recurs_partAttributes proper _
  rw [findParts] at ends ⊢
  -- The category comes first.
  have settled₁ := findsCategory.settles memory settled
  have reached₁ := findsCategory.reaches memory settled
  rcases category : t.part request.category .category t.findCategory
    (registry.withPatience patience) memory with ⟨error | c, m₁⟩
  · rw [category] at reached₁
    rw [bind_apply_error category] at ends ⊢
    exact .bind_error (.of_reachesSince (reached₁ ends.error_of))
  rw [category] at settled₁ reached₁
  rw [bind_apply_ok category] at ends ⊢
  refine .bind_of_reachesSince (reached₁ (.ok c)) ?_
  -- The variance is found in the memory that the category left.
  have settled₂ := findsVariance.settles m₁ settled₁
  have reached₂ := findsVariance.reaches m₁ settled₁
  rcases variance : t.part request.variance .variance t.findVariance
    (registry.withPatience patience) m₁ with ⟨error | v, m₂⟩
  · rw [variance] at reached₂
    rw [bind_apply_error variance] at ends ⊢
    exact .bind_error (.of_reachesSince (reached₂ ends.error_of))
  rw [variance] at settled₂ reached₂
  rw [bind_apply_ok variance] at ends ⊢
  refine .bind_of_reachesSince (reached₂ (.ok v)) ?_
  -- The finalizer depends on members that may be met in between.
  have settled₃ := findsFinalizer.settles m₂ settled₂
  have reached₃ := finalizer c v m₁ m₂ category variance
  rcases found : t.part request.finalizer .finalizer t.findFinalizer
    (registry.withPatience patience) m₂ with ⟨error | f, m₃⟩
  · rw [found] at reached₃
    rw [bind_apply_error found] at ends ⊢
    exact .bind_error (reached₃ ends.error_of)
  rw [found] at settled₃ reached₃
  rw [bind_apply_ok found] at ends ⊢
  refine .bind_reachesSince (reached₃ (.ok f)) ?_
  -- The attributes come last, and what follows only collects the parts.
  exact (findsAttributes.bind fun _ => .pure _).reaches m₃ settled₃ ends

end

/-! ### Requests with an answer -/

/-- What a part that does not depend on members is found to be, if it is asked
for. -/
def HasPart (registry : Registry) (base : Memory) (t : Ty) (aspect : TypeAspect)
    (find : Query aspect.Value) (isWanted : Bool) (part : Option aspect.Value) :
    Prop :=
  ReachesSince registry base (fun _ => t.part isWanted aspect find) (.ok part)

/-- Whether there is found to be a finalizer, if this is asked for. -/
def HasFinalizerPart (registry : Registry) (base : Memory) (t : Ty)
    (isWanted : Bool) (part : Option Bool) : Prop :=
  (t.part isWanted .finalizer t.findFinalizer).ReachesFrom registry base
    base (.ok part)

/-- Each part of the flags is what the facts say, or is not asked for. -/
structure HasParts (registry : Registry) (base : Memory) (t : Ty)
    (request : FlagRequest) (facts : TypeFacts) : Prop where
  category : t.HasPart registry base .category t.findCategory request.category
    facts.category
  variance : t.HasPart registry base .variance t.findVariance request.variance
    facts.variance
  finalizer : t.HasFinalizerPart registry base request.finalizer facts.finalizer
  attributes : t.HasPart registry base .attributeFlags t.findAttributeFlags
    request.attributes facts.attributes

variable {facts facts' : TypeFacts} {request' : FlagRequest}

section
variable (proper : registry.IsProper)
include proper

/-- A request with an answer tells what the parts are. -/
theorem hasParts_of_apply
    (answer : (t.findFlags request (registry.withPatience patience) base).1
      = .ok facts) :
    t.HasParts registry base request facts := by
  rw [findFlags_apply] at answer
  rcases run : t.findParts request (registry.withPatience patience) base
    with ⟨outcome, after⟩
  rw [run] at answer
  obtain rfl := answer
  obtain ⟨m₁, m₂, m₃, category, variance, finalizer, attributes⟩ :=
    findParts_eq_ok run
  have findsCategory : Recurs registry base patience fun _ =>
      t.part request.category .category t.findCategory :=
      t.recurs_partCategory proper _
  have findsVariance : Recurs registry base patience fun _ =>
      t.part request.variance .variance t.findVariance :=
      t.recurs_partVariance _
  have findsFinalizer :
      (t.part request.finalizer .finalizer t.findFinalizer).Leaves
        registry base patience := t.leaves_partFinalizer proper _
  have findsAttributes : Recurs registry base patience fun _ =>
      t.part request.attributes .attributeFlags t.findAttributeFlags :=
    t.recurs_partAttributes proper _
  -- The parts are followed from one memory to the next.
  have settled := Memory.isSettledSince_base registry base
  have settled₁ := findsCategory.settles base settled
  have reached₁ := findsCategory.reaches base settled
  rw [category] at settled₁ reached₁
  have reached₂ := findsVariance.reaches m₁ settled₁
  rw [variance] at reached₂
  -- No member is met before the finalizer is looked for.
  obtain ⟨settled₂, same⟩ := settled_before_finalizer proper settled
    category variance
  have settled₃ := findsFinalizer.settles m₂ settled₂
  have reached₃ := reachesFrom_partFinalizer (t := t) proper settled₂
    request.finalizer (by rw [finalizer]; exact .ok _)
  rw [finalizer] at settled₃ reached₃
  have reached₄ := findsAttributes.reaches m₃ settled₃
  rw [attributes] at reached₄
  exact ⟨reached₁ (.ok _), reached₂ (.ok _), reached₃.of_sameMembers same,
    reached₄ (.ok _)⟩

end

/-- A request comes to its parts. -/
theorem HasParts.reachesFrom (h : t.HasParts registry base request facts) :
    (t.findParts request).ReachesFrom registry base base (.ok facts) :=
  .bind_of_reachesSince h.category <| .bind_of_reachesSince h.variance <|
    .bind_reachesSince h.finalizer <| h.attributes.bind
      (.of_outcome fun _ _ => rfl)

/-- A request is answered with its parts. -/
theorem HasParts.resolves (h : t.HasParts registry base request facts) :
    ∀ᶠ l in atTop, (t.findFlags request (registry.withPatience l) base).1
      = .ok facts := by
  filter_upwards [h.reachesFrom] with l hl
  rw [findFlags_apply]
  exact (hl base (Memory.isTrueSince_base registry base) (.refl base)).1

/-- A part is there if and only if it is asked for. -/
theorem isSome_of_part {isWanted : Bool} {aspect : TypeAspect}
    {find : Query aspect.Value} {memory : Memory} {part : Option aspect.Value}
    (answer : (t.part isWanted aspect find registry memory).1 = .ok part) :
    part.isSome = isWanted := by
  cases isWanted with
  | false =>
    -- A part that is not asked for is left out.
    cases answer
    rfl
  | true =>
    cases known : memory.facts.get? (.ofType t aspect) with
    | some value =>
      rw [part_apply_known known] at answer
      cases answer
      rfl
    | none =>
      rcases run : find registry memory with ⟨error | value, after⟩
      · rw [part_apply_unknown known run] at answer
        cases answer
      · rw [part_apply_unknown known run] at answer
        cases answer
        rfl

section
variable {aspect : TypeAspect} {find : Query aspect.Value}
  {isWanted isWanted' : Bool}

theorem HasPart.isSome {part : Option aspect.Value}
    (h : t.HasPart registry base aspect find isWanted part) :
    part.isSome = isWanted := by
  obtain ⟨l, hl⟩ := Eventually.exists h
  exact isSome_of_part (hl base (Memory.isTrueSince_base registry base)).1

theorem HasPart.none : t.HasPart registry base aspect find false .none :=
  .of_outcome fun _ _ => rfl

theorem HasFinalizerPart.isSome {part : Option Bool}
    (h : t.HasFinalizerPart registry base isWanted part) :
    part.isSome = isWanted := by
  obtain ⟨l, hl⟩ := Eventually.exists h
  exact isSome_of_part (hl base (Memory.isTrueSince_base registry base)
    (.refl base)).1

theorem HasFinalizerPart.none : t.HasFinalizerPart registry base false .none :=
  .of_reachesSince (.of_outcome fun _ _ => rfl)

end

/-- The parts that are there are those that are asked for. -/
theorem HasParts.request_eq (h : t.HasParts registry base request facts) :
    facts.request = request := by
  simp only [TypeFacts.request, h.category.isSome, h.variance.isSome,
    h.finalizer.isSome, h.attributes.isSome]

section
variable {α : Type} {P : Bool → Option α → Prop} {isWanted isWanted' : Bool}
  {part part' : Option α}

theorem part_restrict (h : P isWanted part) (nothing : P false none)
    (fewer : (isWanted || isWanted') = isWanted) :
    P isWanted' (if isWanted' then part else none) := by
  cases isWanted' with
  | false => exact nothing
  | true =>
    obtain rfl : true = isWanted := by rwa [Bool.or_true] at fewer
    rwa [if_pos rfl]

theorem part_union (h : P isWanted part) (h' : P isWanted' part')
    (there : part.isSome = isWanted) :
    P (isWanted || isWanted') (part.or part') := by
  subst there
  cases part with
  | none => exact h'
  | some value => exact h

end

/-- A request for fewer parts comes to these. -/
theorem HasParts.restrict (h : t.HasParts registry base request facts)
    (fewer : request.union request' = request) :
    t.HasParts registry base request' (facts.restrict request') where
  category :=
    part_restrict h.category .none (congrArg FlagRequest.category fewer)
  variance :=
    part_restrict h.variance .none (congrArg FlagRequest.variance fewer)
  finalizer := part_restrict h.finalizer .none
    (congrArg FlagRequest.finalizer fewer)
  attributes := part_restrict h.attributes .none
    (congrArg FlagRequest.attributes fewer)

/-- Two requests together come to the parts of both. -/
theorem HasParts.union (h : t.HasParts registry base request facts)
    (h' : t.HasParts registry base request' facts') :
    t.HasParts registry base (request.union request') (facts.union facts') where
  category := part_union h.category h'.category h.category.isSome
  variance := part_union h.variance h'.variance h.variance.isSome
  finalizer := part_union h.finalizer h'.finalizer h.finalizer.isSome
  attributes := part_union h.attributes h'.attributes h.attributes.isSome

end Ty

end CliMetadata
