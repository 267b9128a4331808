import CliMetadata.Proofs.TypeSystem.Recurring.Sessions
import CliMetadata.Proofs.TypeSystem.Substitution
import CliMetadata.Proofs.TypeSystem.Yields

/-!
# Substitution commutes with bases and members

What an applied definition derives from, and what the types of its members are,
is read off the definition with the arguments put into it.  As long as the
definition uses no type variables but its own, it does not matter whether the
arguments are changed first or what is read off is changed afterwards
(`Session.IsReachable.commutes`).

The one law behind this is that two substitutions are one
(`Ty.replaced_replaced`), where no variable is left to the second
(`Ty.replaced_twice`).  The rest says what is yielded on an applied definition
if something is yielded on the definition, and the other way about.
-/

namespace CliMetadata

open Filter Query

/-! ### Types with few variables -/

namespace Ty

/-- The type variables in the type have numbers below `count`. -/
def UsesBelow (count : Nat) (t : Ty) : Prop :=
  ∀ index, .var index false ∈ t.parts → index.toNat < count

variable {types types' methods : List Ty}

mutual

/-- Only the arguments of the variables in a type matter. -/
theorem replaced_congr : (t : Ty) →
    (∀ index, .var index false ∈ t.parts →
      types[index.toNat]? = types'[index.toNat]?) →
      t.replaced types methods = t.replaced types' methods
  | .var index isMethod, h => by
    cases isMethod with
    -- Variables of methods are not touched.
    | true => rw [replaced, replaced]; rfl
    | false =>
      rw [replaced, replaced]
      show (types[index.toNat]?).getD _ = (types'[index.toNat]?).getD _
      -- A variable that occurs means the same in both.
      rw [h index (mem_parts _)]
  | .applied d arguments, h => by
    have inside := replacedEach_congr arguments fun index hvar =>
      h index (by rw [parts]; simp [hvar])
    rw [replaced, replaced, inside]
  | .shaped shape element, h => by
    have inside := replaced_congr element fun index hvar => h index
      (by rw [parts]; simp [hvar])
    simp [inside]
  | .definition d, _ => by simp
  | .parameter p, _ => by simp

theorem replacedEach_congr : (ts : List Ty) →
    (∀ index, .var index false ∈ partsOfEach ts →
      types[index.toNat]? = types'[index.toNat]?) →
      replacedEach types methods ts = replacedEach types' methods ts
  | [], _ => by rw [replacedEach, replacedEach]
  | t :: rest, h => by
    have first := replaced_congr t fun index hvar => h index
      (by rw [partsOfEach]; simp [hvar])
    have others := replacedEach_congr rest fun index hvar =>
      h index (by rw [partsOfEach]; simp [hvar])
    rw [replacedEach, replacedEach, first, others]

end

/-- Where all variables have arguments, the second substitution changes the
arguments and no more. -/
@[simp]
theorem replaced_twice {t : Ty} (h : t.UsesBelow types.length) :
    (t.replaced types []).replaced types' []
      = t.replaced (types.map (replaced types' [])) [] := by
  rw [replaced_replaced]
  apply replaced_congr
  intro index hvar
  rw [List.getElem?_append_left]
  rw [List.length_map]
  exact h index hvar

end Ty

/-- Only what is made of the types in a signature matters. -/
theorem MethodSignature.replaced_congr {signature : MethodSignature}
    {types types' : List Ty}
    (h : ∀ t ∈ signature.types, t.replaced types [] = t.replaced types' []) :
    signature.replaced types = signature.replaced types' := by
  obtain ⟨result, others⟩ := List.forall_mem_cons.mp h
  obtain ⟨parameters, modifiers⟩ := List.forall_mem_append.mp others
  rw [replaced, replaced, result, List.map_congr_left parameters,
    MethodSignature.mk.injEq]
  refine ⟨rfl, rfl, rfl, rfl, List.map_congr_left fun modifier hmodifier => ?_⟩
  rw [modifiers _ (List.mem_map_of_mem hmodifier)]

/-- Two substitutions in a signature are one. -/
@[simp]
theorem MethodSignature.replaced_twice {signature : MethodSignature}
    {types types' : List Ty}
    (h : ∀ t ∈ signature.types, t.UsesBelow types.length) :
    (signature.replaced types).replaced types'
      = signature.replaced (types.map (Ty.replaced types' [])) := by
  -- The result is replaced twice, and so are the parts of the others.
  obtain ⟨result, others⟩ := List.forall_mem_cons.mp h
  obtain ⟨parameters, modifiers⟩ := List.forall_mem_append.mp others
  rw [replaced, replaced, replaced]
  simp only [List.map_map, Ty.replaced_twice result,
    MethodSignature.mk.injEq, true_and]
  constructor
  · -- The parameters.
    apply List.map_congr_left
    intro t ht
    exact Ty.replaced_twice (parameters t ht)
  · -- The modifiers.
    apply List.map_congr_left
    intro modifier hmodifier
    show ResolvedModifier.mk _ _ _ = ResolvedModifier.mk _ _ _
    rw [Ty.replaced_twice (modifiers _ (List.mem_map_of_mem hmodifier))]

/-- The base of a type with type variables replaced in it, if the type has a
base. -/
def Ty.baseSubstituted (t : Ty) (types : List Ty) : Query (Option Ty) := do
  let some base ← t.base | return none
  return some (← base.substituted types [])

theorem Ty.recurs_baseSubstituted {registry : Registry} {base : Memory}
    {patience : Nat} (proper : registry.IsProper) (t : Ty) (types : List Ty) :
    Recurs registry base patience fun _ => t.baseSubstituted types := by
  refine (t.recurs_base proper).bind fun found => ?_
  cases found with
  | none => exact .pure none
  | some base =>
    exact (base.recurs_substituted proper types []).bind fun _ => .pure _

/-- What an applied definition is applied to are nodes. -/
theorem Ty.IsNode.arguments {modules : List Module} {shared : Ty → Prop}
    {d : TypeDefinition} {types : List Ty}
    (h : (Ty.applied d types).IsNode modules shared) :
    AreNodes modules shared types := by
  cases h with
  | applied _ htypes => exact htypes

/-! ### From answers to what is yielded -/

section
variable {registry : Registry} (sound : registry.IsSound)
include sound

/-- A fact that is found in two steps is found by the first of them. -/
theorem Query.Yields.of_remember_bind {α : Type} {fact : Fact} {query : Query α}
    {next : α → Query fact.Value} {value : fact.Value}
    (transfers : ∀ before, query.Transfers .none before registry always fun _ =>
      query)
    (h : (Query.remember fact (query >>= next)).Yields registry value) :
    ∃ a, query.Yields registry a := by
  obtain ⟨l, hl⟩ := h.exists
  have answer : (Query.remember fact (query >>= next) (registry.withPatience l)
      {}).1 = .ok value :=
    (hl {} (Memory.isTrue_empty registry)).1
  -- Nothing is remembered, so that both steps are taken, and the first has an
  -- answer.
  rcases hrun : query (registry.withPatience l) {} with ⟨error | a, memory⟩
  · rw [Query.remember, rememberIf_apply_error (by simp)
      (bind_apply_error hrun)] at answer
    cases answer
  · refine ⟨a, (transfers (registry.withPatience l)).reaches_of_apply
      (Registry.leadsTo_of_withPatience sound.live l) sound ?_ (.inl rfl)⟩
    rw [hrun]

/-! ### Seeing through arguments -/

variable {d : TypeDefinition} {types : List Ty}
  (htypes : AreNodes registry.modules (fun _ => True) types)

include htypes in
/-- Types are nodes also after substitution. -/
theorem AreNodes.replaced {ts : List Ty}
    (nodes : AreNodes registry.modules (fun _ => True) ts) :
    AreNodes registry.modules (fun _ => True)
      (ts.map (Ty.replaced types [])) := by
  intro u hu
  obtain ⟨t, ht, rfl⟩ := List.mem_map.mp hu
  have yields := Ty.yields_substituted sound (nodes t ht) htypes .nil
  have told : AreNodes registry.modules (fun _ => True) [t.replaced types []] :=
    yields.areNodes sound fun l => Ty.gives_substituted (nodes t ht) htypes .nil
  exact told.head

include htypes in
/-- Where the arguments leave no variable, substituting is changing the
arguments. -/
theorem Ty.yields_replaced_twice {t : Ty} {arguments : List Ty}
    (node : AreNodes registry.modules (fun _ => True) [t])
    (harguments : AreNodes registry.modules (fun _ => True) arguments)
    (uses : t.UsesBelow arguments.length) :
    ((t.replaced arguments []).substituted types []).Yields registry
      (t.replaced (arguments.map (Ty.replaced types [])) []) := by
  have nodes := AreNodes.replaced sound harguments node
  rw [← Ty.replaced_twice uses]
  exact Ty.yields_substituted sound nodes.head htypes .nil

include htypes in
/-- An applied definition derives from the base of the definition, with the
arguments put into it. -/
theorem Ty.yields_base_applied {found : Option Ty}
    (yields : d.openBase.Yields registry found) :
    (Ty.applied d types).base.Yields registry
      (found.map (Ty.replaced types [])) := by
  have nodes := yields.areNodes sound fun l => d.gives_openBase
  refine .remember (fun _ => rfl) trivial (yields.bind ?_)
  cases found with
  | none => exact .pure _
  | some base =>
    exact (Ty.yields_substituted sound nodes.head htypes .nil).bind (.pure _)

include htypes in
/-- The base of an applied definition tells that of the definition. -/
theorem Ty.exists_yields_openBase {found : Option Ty}
    (yields : (Ty.applied d types).base.Yields registry found) :
    ∃ base, d.openBase.Yields registry base ∧
    found = base.map (Ty.replaced types []) := by
  obtain ⟨base, hbase⟩ := Query.Yields.of_remember_bind sound
    (fun _ => d.transfers_openBase)
    (show (Query.remember (.ofType _ .base) _).Yields _ _ from yields)
  exact ⟨base, hbase, yields.eq (Ty.yields_base_applied sound htypes hbase)⟩

include htypes in
/-- The type of a field as a member of an applied definition. -/
theorem Field.yields_type_view {field : Field} {t : Ty}
    (nodes : AreNodes registry.modules (fun _ => True) field.types)
    (yields : field.type.Yields registry t) :
    (Field.view field (.applied d types)).type.Yields registry
      (t.replaced types []) := by
  have node : AreNodes registry.modules (fun _ => True) [t] :=
    yields.areNodes sound fun l => Field.gives_type nodes
  have instantiation : (Ty.applied d types).instantiation.Yields registry
      types := .pure types
  refine .remember (fun _ => rfl) trivial (yields.bind (instantiation.bind ?_))
  exact Ty.yields_substituted sound node.head htypes .nil

include htypes in
/-- The type of a field as a member of an applied definition tells that of the
field. -/
theorem Field.exists_yields_type {field : Field} {found : Ty}
    (nodes : AreNodes registry.modules (fun _ => True) field.types)
    (yields : (Field.view field (.applied d types)).type.Yields
      registry found) :
    ∃ t, field.type.Yields registry t ∧ found = t.replaced types [] := by
  obtain ⟨t, ht⟩ := Query.Yields.of_remember_bind sound
    (fun _ => field.transfers_type)
    (show (Query.remember (.ofField _ .type) _).Yields _ _ from yields)
  exact ⟨t, ht, yields.eq (Field.yields_type_view sound htypes nodes ht)⟩

include htypes in
/-- The signature of a method as a member of an applied definition tells that of
the method. -/
theorem Method.exists_yields_signature {method : Method}
    {found : MethodSignature}
    (nodes : AreNodes registry.modules (fun _ => True) method.types)
    (yields : (Method.view method (.applied d types)).signature.Yields
      registry found) :
    ∃ signature, method.signature.Yields registry signature ∧
      found = signature.replaced types := by
  obtain ⟨signature, hsignature⟩ := Query.Yields.of_remember_bind sound
    (fun _ => method.transfers_signature)
    (show (Query.remember (.ofMethod _ .signature) _).Yields _ _ from yields)
  exact ⟨signature, hsignature,
    yields.eq (Method.yields_signature_view sound htypes nodes hsignature)⟩

/-! ### Changed arguments -/

variable {arguments : List Ty}
  (node : (Ty.applied d arguments).IsNode registry.modules fun _ => True)
include htypes node

/-- The base with changed arguments is the base, changed. -/
theorem Ty.yields_baseSubstituted {found : Option Ty}
    (below : ∀ base, d.openBase.Yields registry (some base) →
      base.UsesBelow arguments.length)
    (yields : (Ty.applied d (arguments.map (Ty.replaced types []))).base.Yields
      registry found) :
    ((Ty.applied d arguments).baseSubstituted types).Yields registry found := by
  have hchanged := AreNodes.replaced sound htypes node.arguments
  obtain ⟨base, hbase, rfl⟩ := Ty.exists_yields_openBase sound hchanged yields
  have first := Ty.yields_base_applied sound node.arguments hbase
  refine first.bind ?_
  cases base with
  | none => exact .pure _
  | some base =>
    have told := hbase.areNodes sound fun l => d.gives_openBase
    have second := Ty.yields_replaced_twice sound htypes told node.arguments
      (below base hbase)
    exact second.bind (.pure _)

/-- The type of a field with changed arguments is its type, changed. -/
theorem Field.yields_type_substituted {field : Field} {found : Ty}
    (nodes : AreNodes registry.modules (fun _ => True) field.types)
    (below : ∀ t, field.type.Yields registry t → t.UsesBelow arguments.length)
    (yields :
      (Field.view field (.applied d
        (arguments.map (Ty.replaced types [])))).type.Yields registry found) :
    (do (←
      (Field.view field (.applied d arguments)).type).substituted types [] :
      Query Ty).Yields registry found := by
  have hchanged := AreNodes.replaced sound htypes node.arguments
  obtain ⟨t, ht, rfl⟩ := Field.exists_yields_type sound hchanged nodes yields
  have told := ht.areNodes sound fun l => Field.gives_type nodes
  have first := Field.yields_type_view (d := d) sound node.arguments nodes ht
  exact first.bind (Ty.yields_replaced_twice sound htypes told node.arguments
    (below t ht))

/-- The signature of a method with changed arguments is its signature,
changed. -/
theorem Method.yields_signature_substituted {method : Method}
    {found : MethodSignature}
    (nodes : AreNodes registry.modules (fun _ => True) method.types)
    (below : ∀ signature, method.signature.Yields registry signature →
      ∀ t ∈ signature.types, t.UsesBelow arguments.length)
    (yields :
      (Method.view method
        (.applied d (arguments.map (Ty.replaced types [])))).signature.Yields
          registry found) :
    (do (←
      (Method.view method (.applied d arguments)).signature).substituted types :
      Query MethodSignature).Yields registry found := by
  have hchanged := AreNodes.replaced sound htypes node.arguments
  obtain ⟨signature, hsignature, rfl⟩ :=
    Method.exists_yields_signature sound hchanged nodes yields
  have first := Method.yields_signature_view (d := d) sound node.arguments
    nodes hsignature
  have told := first.areNodes sound fun l =>
    Method.gives_signature (AreNodes.append (AreNodes.of_parts node) nodes)
  -- Replacing twice is replacing once by what was replaced.
  rw [← MethodSignature.replaced_twice (below signature hsignature)]
  exact first.bind (MethodSignature.yields_substituted sound told htypes)

end

/-! ### Sessions -/

namespace TypeSystem

variable {α : Type}

/-- Given enough patience, the type system has this answer. -/
def Resolves (system : TypeSystem) (query : Query α) (a : α) : Prop :=
  ∀ᶠ patience in atTop, ((system.withPatience patience).ask query).1 = .ok a

/-- With some patience or other, the type system has this answer. -/
def CanResolve (system : TypeSystem) (query : Query α) (a : α) : Prop :=
  ∃ patience, ((system.withPatience patience).ask query).1 = .ok a

/-- All that a query can tell uses type variables with numbers below `count`
only. -/
def TellsBelow (system : TypeSystem) (count : Nat) (query : Query α)
    (types : α → List Ty) : Prop :=
  ∀ a, system.CanResolve query a → ∀ t ∈ types a, t.UsesBelow count

end TypeSystem

namespace Session

variable {s : Session} {options : Options}

/-- What is seen of a definition through changed arguments is what is seen of it
through the arguments and changed then. -/
structure Commutes (s : Session) (d : TypeDefinition)
    (arguments types : List Ty) : Prop where
  /-- Changing the applied definition is changing its arguments. -/
  applied : (s.system.ask ((Ty.applied d arguments).substituted types [])).1
    = .ok (.applied d (arguments.map (Ty.replaced types [])))
  base : s.system.TellsBelow arguments.length d.openBase Option.toList →
    ∀ found, s.system.CanResolve
      (Ty.applied d (arguments.map (Ty.replaced types []))).base found →
      s.system.Resolves ((Ty.applied d arguments).baseSubstituted types) found
  fields : ∀ field ∈ s.fields,
    s.system.TellsBelow arguments.length field.type (fun t => [t]) →
    ∀ found, s.system.CanResolve
      (Field.view field
        (.applied d (arguments.map (Ty.replaced types [])))).type found →
      s.system.Resolves (do
        (← (Field.view field (.applied d arguments)).type).substituted
          types []) found
  methods : ∀ method ∈ s.methods,
    s.system.TellsBelow arguments.length method.signature
      MethodSignature.types →
    ∀ found, s.system.CanResolve
      (Method.view method
          (.applied d (arguments.map (Ty.replaced types [])))).signature found →
      s.system.Resolves (do
        (← (Method.view method (.applied d arguments)).signature).substituted
          types) found

/-- The types that a caller holds are nodes, however they were shared. -/
theorem IsReachable.areNodes_of_held (h : s.IsReachable options) {ts : List Ty}
    (held : ∀ t ∈ ts, t ∈ s.types) :
    AreNodes s.system.registry.modules (fun _ => True) ts :=
  AreNodes.le (fun t ht => h.isFaithful.held t (held t ht))
    fun _ _ => True.intro

section
variable (h : s.IsReachable options) {α : Type} {query : Query α} {a : α}
  (recurs : ∀ patience, Recurs s.system.registry {} patience fun _ => query)
include h recurs

/-- What any caller is answered by a query that recurs is yielded. -/
theorem IsReachable.yields_of_canResolve {lasting : Gap → α → Prop}
    (transfers : ∀ before,
      query.Transfers .none before s.system.registry lasting fun _ => query)
    (resolved : s.system.CanResolve query a) :
    query.Yields s.system.registry a := by
  obtain ⟨patience, answer⟩ := resolved
  have reached := (recurs patience).reaches s.system.memory h.isSettledSince
  rw [show (query (s.system.registry.withPatience patience) s.system.memory).1
    = .ok a from answer] at reached
  -- Then it is answered where nothing is remembered, and from there the answer
  -- transfers.
  obtain ⟨l, hl⟩ := (reached (.ok a)).exists
  have leads := Registry.leadsTo_of_withPatience h.live l
  have fresh := (hl {} (Memory.isTrueSince_base s.system.registry {})).1
  exact (transfers (s.system.registry.withPatience l)).reaches_of_apply leads
    h.isSound fresh (.inl rfl)

/-- What is yielded by a query that recurs, any caller is answered. -/
theorem IsReachable.resolves_of_yields
    (yields : query.Yields s.system.registry a) :
    s.system.Resolves query a := by
  obtain ⟨l, hl⟩ := yields.exists
  have reached :=
    (recurs l).reaches {} (Memory.isSettledSince_base s.system.registry {})
  rw [(hl {} (Memory.isTrue_empty s.system.registry)).1] at reached
  filter_upwards [reached (.ok a)] with patience reaches
  exact (reaches s.system.memory h.isSettledSince.isTrueSince).1

/-- What is yielded uses no other variables than all that can be told. -/
theorem IsReachable.usesBelow {count : Nat} {types : α → List Ty}
    (below : s.system.TellsBelow count query types)
    (yields : query.Yields s.system.registry a) :
    ∀ t ∈ types a, t.UsesBelow count :=
  below a (h.resolves_of_yields recurs yields).exists

end

/-- Bases and members commute with substitution.  Where what a definition says
uses no variables but as many as there are arguments, and what is asked of the
definition with changed arguments has an answer, the answer for the arguments as
they are, changed afterwards, is the same. -/
theorem IsReachable.commutes (h : s.IsReachable options) {d : TypeDefinition}
    {arguments types : List Ty} (held : .applied d arguments ∈ s.types)
    (holds : ∀ t ∈ types, t ∈ s.types) : s.Commutes d arguments types := by
  have sound := h.isSound
  have proper := sound.proper
  have htypes := h.areNodes_of_held holds
  have node := (h.areNodes_of_held (List.forall_mem_singleton.mpr held)).head
  constructor
  · -- The applied type itself.
    have answers :=
      h.ask_eq_ok (Ty.answers_substituted h.live (h.isFaithful.held _ held)
      (fun t ht => h.isFaithful.held t (holds t ht)) .nil)
    rw [Ty.replaced, Ty.replacedEach_eq_map] at answers
    exact answers
  · -- What it derives from.
    intro below found resolved
    have yields := h.yields_of_canResolve (fun _ => Ty.recurs_base proper _)
      (fun _ => Ty.transfers_base _) resolved
    have uses (base : Ty) (hbase : d.openBase.Yields s.system.registry
        (some base)) :
        base.UsesBelow arguments.length :=
      h.usesBelow (fun _ => d.recurs_openBase proper) below hbase base
        (List.mem_singleton_self base)
    exact h.resolves_of_yields
      (fun _ => Ty.recurs_baseSubstituted proper _ types)
      (Ty.yields_baseSubstituted sound htypes node uses yields)
  · -- The type of a field.
    intro field hfield below found resolved
    have nodes := h.areNodes_of_held (types_of_mem_fields hfield)
    have yields := h.yields_of_canResolve (fun _ => Field.recurs_type proper _)
      (fun _ => Field.transfers_type _) resolved
    have uses (t : Ty) (ht : field.type.Yields s.system.registry t) :
        t.UsesBelow arguments.length :=
      h.usesBelow (fun _ => field.recurs_type proper) below ht t
        (List.mem_singleton_self t)
    exact h.resolves_of_yields (fun _ => (Field.recurs_type proper _).bind
        fun t => t.recurs_substituted proper types [])
      (Field.yields_type_substituted sound htypes node nodes uses yields)
  · -- The signature of a method.
    intro method hmethod below found resolved
    have nodes := h.areNodes_of_held (types_of_mem_methods hmethod)
    have yields :=
      h.yields_of_canResolve (fun _ => Method.recurs_signature proper _)
        (fun _ => Method.transfers_signature _) resolved
    have uses := fun signature => h.usesBelow
      (fun _ => method.recurs_signature proper) below (a := signature)
    exact h.resolves_of_yields (fun _ => (Method.recurs_signature proper _).bind
        fun signature => signature.recurs_substituted proper types)
      (Method.yields_signature_substituted sound htypes node nodes uses yields)

/-- A careful caller can hold the first variable of a type. -/
theorem IsCareful.hold_var (h : s.IsCareful options) :
    ∃ s' : Session, s'.IsCareful options ∧
      s'.system.registry = s.system.registry ∧
      s'.items = s.items ++ [.type (.var 0 false)] := by
  have number : (s.system.ask (variableOf 0 false)).1 = .ok (.var 0 false) :=
    congrArg Prod.fst (share_eq _ s.system.registry s.system.memory)
  have allowed : s.Allows (.variable 0 false) :=
    .of_types (List.forall_mem_nil _) rfl rfl
  obtain ⟨s', careful, same, items⟩ := h.hold allowed trivial rfl number
  exact ⟨s', careful, same, items⟩

/-- A careful caller can apply a definition that is held to types that are
held. -/
theorem IsCareful.hold_applied (h : s.IsCareful options) {d : TypeDefinition}
    {arguments : List Ty} (held : ∀ t ∈ .definition d :: arguments, t ∈ s.types)
    (positive : 1 ≤ arguments.length)
    (parameters : d.HasParameters s.system.registry.modules arguments.length) :
    ∃ s' : Session, s'.IsCareful options ∧
      s'.system.registry = s.system.registry ∧
      s'.items = s.items ++ [.type (.applied d arguments)] := by
  have allowed : s.Allows (.ofType (.definition d) (.applied arguments)) :=
    .of_types held rfl rfl
  have applied : (s.system.ask (instantiate (.definition d) arguments)).1
      = .ok (.applied d arguments) :=
    h.isReachable.ask_eq_ok
      (answers_instantiateWith h.isReachable.live parameters positive)
  obtain ⟨s', careful, same, items⟩ := h.hold allowed trivial rfl applied
  exact ⟨s', careful, same, items⟩

/-! A type with one parameter, and a field that holds an array of it. -/

def crateCalls : List ModuleBuilder.Call :=
  [.typeDef "N" "Crate`1" .public .null,
    .genericParam ⟨0x02000002⟩ "T" ⟨0⟩,
    .field ⟨0x02000002⟩ "content" ⟨6⟩ ⟨[], .vector [] (.typeVar 0)⟩]

def crateModule :
    Module := .ofImage ((ModuleBuilder.new "App").applyAll crateCalls).image

def crate : TypeDefinition where
  module := "App"
  token := ⟨0x02000002⟩
  flags := .public
  name := 10
  namespaceName := 18
  base := .null

def crateParameter : GenericParameter where
  module := "App"
  token := ⟨0x2A000001⟩
  owner := ⟨0x02000002⟩
  position := 0
  flags := ⟨0⟩
  name := 20

def crateContent : Field :=
  .definition
    { module := "App"
      token := ⟨0x04000001⟩
      owner := .definition crate
      flags := ⟨6⟩
      name := 22
      signature := 1 }

theorem declares_crate :
    crateModule.Declares ⟨0x02000002⟩ (.definition crate) := ⟨_, rfl, rfl⟩

theorem hasParameters_crate : crate.HasParameters [crateModule] 1 := by
  refine ⟨crateModule, List.mem_singleton_self _, rfl, rfl, ?_⟩
  decide

section
variable {registry : Registry} (sound : registry.IsSound)
  (hm : crateModule ∈ registry.modules)
include sound hm

theorem field_crateContent :
    (crateModule.field ⟨0x04000001⟩ none registry {}).1 = .ok crateContent := by
  have settled := Memory.isSettled_empty registry
  have found := Module.type_eq_ok_of_declares sound settled hm declares_crate
  have declared :
      crateModule.declaredOwner (some ⟨0x02000002⟩) (.ownerlessField ⟨0x04000001⟩)
          registry {}
        = (.ok (.definition crate),
          (crateModule.type ⟨0x02000002⟩ registry {}).2) :=
    bind_apply_ok (Prod.ext found rfl)
  -- No owner is known before the row is asked for.
  have unmet :
      ({} : Memory).fieldOwners[(⟨crateModule.name, ⟨0x04000001⟩⟩ : RowKey)]?
        = none := by
    simp
  have row : crateModule.image.field? ⟨0x04000001⟩
      = some { number := 1, token := ⟨0x04000001⟩, flags := ⟨6⟩, name := 22,
               signature := 1 } := rfl
  have owner : crateModule.image.fieldOwner? ⟨0x04000001⟩ = some ⟨0x02000002⟩ :=
    rfl
  rw [Module.field, row]
  dsimp only
  rw [owner]
  exact congrArg Prod.fst (bind_apply_ok (ownerOf_apply_ok unmet declared))

theorem yields_crateContent (limit : registry.options.maxSignatureDepth = 50) :
    crateContent.type.Yields registry (.shaped .vector (.var 0 false)) := by
  have reach := yields_reachModule sound hm
  have named : crateModule.name = "App" := rfl
  have requires := yields_requireTypeSystem sound
  -- The variable is resolved, and then the array of it.
  have parameter : (crateModule.resolve (.typeVar 0)).Yields registry
      (.var 0 false) :=
    requires.bind (.of_answers sound (transfers_variableOf _ _) (.share _))
  have allowed : Shape.vector.IsAllowed := trivial
  have built : (shapeOf .vector (.var 0 false)).Yields registry
      (.shaped .vector (.var 0 false)) :=
    .of_answers sound (transfers_shapeOf _ _) (answers_shapeOf allowed _)
  have array : (crateModule.resolve (.vector [] (.typeVar 0))).Yields registry
      (.shaped .vector (.var 0 false)) := requires.bind (parameter.bind built)
  refine .remember (fun _ => rfl) trivial ?_
  rw [named] at reach
  -- The blob of the row is read and decoded.
  refine reach.bind (.bind (.lift (a := [6, 0x1D, 0x13, 0]) rfl)
    (.read_bind (fun _ => rfl) ?_))
  rw [limit]
  exact .bind (.lift (a := (⟨[], .vector [] (.typeVar 0)⟩ : FieldSig)) rfl)
    array

end

/-- A careful caller can hold the field, and the type applied to a variable. -/
theorem exists_holds_crate : ∃ s : Session, s.IsCareful {} ∧
    s.system.registry = { modules := [crateModule] } ∧ crateContent ∈ s.fields ∧
    .applied crate [.var 0 false] ∈ s.types ∧
    .shaped .vector (.var 0 false) ∈ s.types := by
  let start : Session :=
    { system := { registry := { modules := [crateModule] } } }
  have careful : start.IsCareful {} := by
    have small :
        (Action.addModule
          ((ModuleBuilder.new "App").applyAll crateCalls)).IsCareful
        (new {}) := by
      constructor <;> decide
    have built := (ModuleBuilder.IsBuilt.new "App").applyAll crateCalls
    exact IsCareful.new.step small (.addModule built rfl)
  -- The field is told together with its owner.
  have sound := careful.isReachable.isSound
  have content : (start.system.ask (crateModule.field ⟨0x04000001⟩ none)).1
      = .ok crateContent :=
    field_crateContent sound (List.mem_singleton_self _)
  have allowed : start.Allows (.ofModule "App" (.field ⟨0x04000001⟩ none)) :=
    .of_types (List.forall_mem_nil _) rfl rfl
  have asks : (Question.ofModule "App" (.field ⟨0x04000001⟩ none)).answer
      start.system.registry
      =
        (do return [.field
          (← crateModule.field ⟨0x04000001⟩ none)] : Query (List Item))
        start.system.registry := rfl
  have unnamed :
      (Question.ofModule "App" (.field ⟨0x04000001⟩ none)).NamesOwners
      start.system.registry := by
    rintro _ ⟨⟩
  obtain ⟨s₁, careful₁, same₁, items₁⟩ :=
    careful.hold allowed unnamed asks content
  -- A variable, and an array of it.
  obtain ⟨s₂, careful₂, same₂, items₂⟩ := careful₁.hold_var
  have held₂ : .var 0 false ∈ s₂.types := by simp [types, items₂, Item.types]
  have allowed₂ : s₂.Allows (.ofType (.var 0 false) (.shaped .vector)) :=
    .of_types (List.forall_mem_singleton.mpr held₂) rfl rfl
  have array : (s₂.system.ask (shapeOf .vector (.var 0 false))).1
      = .ok (.shaped .vector (.var 0 false)) :=
    congrArg Prod.fst (share_eq _ s₂.system.registry s₂.system.memory)
  obtain ⟨s₃, careful₃, same₃, items₃⟩ :=
    careful₂.hold allowed₂ trivial rfl array
  -- The owner of the field, applied to the variable.
  have held₃ : ∀ t ∈ [Ty.definition crate, .var 0 false], t ∈ s₃.types := by
    simp [types, items₃, items₂, items₁, Item.types, crateContent]
  have same : s₃.system.registry = start.system.registry :=
    same₃.trans (same₂.trans same₁)
  have parameters : crate.HasParameters s₃.system.registry.modules
      [Ty.var 0 false].length := by
    rw [same]
    exact hasParameters_crate
  obtain ⟨s₄, careful₄, same₄, items₄⟩ :=
    careful₃.hold_applied held₃ (Nat.le_refl 1) parameters
  refine ⟨s₄, careful₄, same₄.trans same, ?_, ?_, ?_⟩
  · simp [fields, items₄, items₃, items₂, items₁, Item.fields, Field.versions,
      crateContent]
  · simp [types, items₄, Item.types]
  · simp [types, items₄, items₃, Item.types]

/-- The field holds an array of arrays where the argument is an array. -/
theorem crate_commutes : ∃ s : Session, s.IsReachable {} ∧
    .applied crate [.var 0 false] ∈ s.types ∧
    (∀ t ∈ [Ty.shaped .vector (.var 0 false)], t ∈ s.types) ∧
    s.Commutes crate [.var 0 false] [.shaped .vector (.var 0 false)] ∧
    s.system.Resolves (do
      (←
        (Field.view crateContent
          (.applied crate [.var 0 false])).type).substituted
        [.shaped .vector (.var 0 false)] [])
      (.shaped .vector (.shaped .vector (.var 0 false))) := by
  obtain ⟨s, careful, same, content, held, array⟩ := exists_holds_crate
  have holds := List.forall_mem_singleton.mpr array
  have reachable := careful.isReachable
  have commutes := IsReachable.commutes reachable held holds
  refine ⟨s, reachable, held, holds, commutes, ?_⟩
  have sound := reachable.isSound
  have hm : crateModule ∈ s.system.registry.modules := by
    rw [same]
    exact List.mem_singleton_self _
  have told := yields_crateContent sound hm (by rw [same])
  -- Asked with the changed argument, the field has a type, and on its own it
  -- uses one variable.
  have changed : (Field.view crateContent (.applied crate
      [.shaped .vector (.var 0 false)])).type.Yields s.system.registry
        (.shaped .vector (.shaped .vector (.var 0 false))) :=
    Field.yields_type_view sound (reachable.areNodes_of_held holds)
      (reachable.areNodes_of_held (types_of_mem_fields content)) told
  have recurs (field : Field) (patience : Nat) :
      Recurs s.system.registry {} patience fun _ => field.type :=
      field.recurs_type sound.proper
  apply commutes.fields _ content ?_ _
    (reachable.resolves_of_yields (recurs _) changed).exists
  intro t resolved
  obtain rfl := (reachable.yields_of_canResolve (recurs _)
    (fun _ => Field.transfers_type _) resolved).eq told
  simp [Ty.UsesBelow]

/-- Substituting in types that a caller holds never fails, and composes. -/
theorem IsReachable.substitutes (h : s.IsReachable options) {t : Ty}
    {types methods types' methods' : List Ty} (ht : t ∈ s.types)
    (held : ∀ u ∈ types ++ methods ++ (types' ++ methods'), u ∈ s.types) :
    s.system.Substitutes t types methods types' methods' := by
  have node : t.IsNode s.system.registry.modules
      (s.system.memory.Shares true) :=
    h.isFaithful.held t ht
  have nodes : AreNodes s.system.registry.modules (s.system.memory.Shares true)
      (types ++ methods ++ (types' ++ methods')) :=
      fun u hu => h.isFaithful.held u (held u hu)
  obtain ⟨first, second⟩ := List.forall_mem_append.mp nodes
  obtain ⟨htypes, hmethods⟩ := List.forall_mem_append.mp first
  obtain ⟨htypes', hmethods'⟩ := List.forall_mem_append.mp second
  -- All that is held is a node, so that substitution has an answer in what the
  -- session remembers.
  have answers :=
    h.ask_eq_ok (Ty.answers_substituted h.live node htypes hmethods)
  constructor
  · exact answers
  · refine ⟨(t.replaced types methods).replaced types' methods', ?_, ?_⟩
    · apply h.ask_eq_ok
      exact Ty.answers_substituted_twice h.live node htypes hmethods
        htypes' hmethods'
    · apply h.ask_eq_ok
      exact Ty.answers_substituted_once h.live node htypes hmethods
        htypes' hmethods'
  · intro unmatched
    rw [answers, Ty.replaced_of_isUnmatched t unmatched]
  · intro index isMethod a ha
    show Except.ok _ = _
    rw [ha]
    rfl

/-- A crate of variables becomes a crate of arrays, and this a crate of arrays
of crates.  The variable inside of the last one stays. -/
theorem crate_substitutes : ∃ s : Session, s.IsReachable {} ∧
    (∀ u ∈ [Ty.applied crate [.var 0 false], .shaped .vector (.var 0 false)],
      u ∈ s.types) ∧
    s.system.Substitutes (.applied crate [.var 0 false])
      [.shaped .vector (.var 0 false)] []
      [.applied crate [.var 0 false]] [.shaped .vector (.var 0 false)] ∧
    ((Ty.applied crate [.var 0 false]).replaced [.shaped .vector (.var 0 false)]
      []).replaced
        [.applied crate [.var 0 false]] [.shaped .vector (.var 0 false)]
      = .applied crate [.shaped .vector (.applied crate [.var 0 false])] := by
  obtain ⟨s, careful, -, -, held, array⟩ := exists_holds_crate
  refine ⟨s, careful.isReachable, by simp [held, array], ?_, rfl⟩
  exact IsReachable.substitutes careful.isReachable held (by simp [held, array])

end Session

end CliMetadata
