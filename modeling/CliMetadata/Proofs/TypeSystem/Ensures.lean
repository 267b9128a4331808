import CliMetadata.Proofs.TypeSystem.Interning
import CliMetadata.Proofs.TypeSystem.Node

/-!
# Queries that lead from nodes to nodes

A memory is faithful to a registry if all that it tells are nodes, and nodes
over shared types alone (`Memory.IsFaithful`).  `Query.Ensures` is what holds
after a query that is asked in a faithful memory: the memory is faithful still,
no type is given up that was shared, and an answer satisfies a condition on the
types that are shared by then.  Since sharing only grows, what was known of
nodes before a query is known after it, and the rules for composed queries need
no more than this.

Some questions are about memories in which sharing is not followed.  `tracked`
tells the two cases apart; where it is false, every type counts as shared.
-/

namespace CliMetadata

/-- Types that are nodes. -/
def AreNodes (modules : List Module) (shared : Ty → Prop) (types : List Ty) :
    Prop :=
  ∀ t ∈ types, t.IsNode modules shared

namespace AreNodes

variable {modules : List Module} {shared shared' : Ty → Prop} {t : Ty}
  {ts us : List Ty}

theorem nil : AreNodes modules shared [] := List.forall_mem_nil _

theorem singleton (h : t.IsNode modules shared) : AreNodes modules shared [t] :=
  List.forall_mem_singleton.mpr h

theorem cons (h : t.IsNode modules shared) (hs : AreNodes modules shared ts) :
    AreNodes modules shared (t :: ts) :=
  List.forall_mem_cons.mpr ⟨h, hs⟩

theorem append (hs : AreNodes modules shared ts)
    (hs' : AreNodes modules shared us) :
    AreNodes modules shared (ts ++ us) :=
  List.forall_mem_append.mpr ⟨hs, hs'⟩

theorem head (hs : AreNodes modules shared (t :: ts)) :
    t.IsNode modules shared :=
  hs t List.mem_cons_self

theorem tail (hs : AreNodes modules shared (t :: ts)) :
    AreNodes modules shared ts :=
  fun u hu => hs u (List.mem_cons_of_mem t hu)

theorem mono {modules' : List Module} (hs : AreNodes modules shared ts)
    (more : ∀ m ∈ modules, m ∈ modules') (le : ∀ t, shared t → shared' t) :
    AreNodes modules' shared' ts :=
  fun t ht => (hs t ht).mono more le

theorem le (hs : AreNodes modules shared ts) (le : ∀ t, shared t → shared' t) :
    AreNodes modules shared' ts :=
  hs.mono (fun _ => id) le

end AreNodes

/-! ### Faithful memories -/

/-- A definition has a base if its row names one, which is a definition or
applies one. -/
def TypeDefinition.AllowsBase (d : TypeDefinition) (base : Option Ty) : Prop :=
  (base = none ↔ d.base.isNull = true) ∧ ∀ t ∈ base, t.canBeBase = true

/-- A module of the name has the text at that position of its heap. -/
def TellText (modules : List Module) (name : String) (position : UInt32)
    (text : String) : Prop :=
  ∃ m ∈ modules, m.name = name ∧ m.image.string position = .ok text

/-- What is known of a fact is a matter of nodes, a definition has a base that
it can have and as many parameters as its module declares, a member has the name
of its row, and the token of a definition leads to that definition. -/
def Fact.Holds (modules : List Module) (shared : Ty → Prop) :
    (fact : Fact) → fact.Value → Prop
  | .ofType t .base, base => AreNodes modules shared base.toList ∧
      ∀ d, t = .definition d → d.AllowsBase base
  | .ofType t .parameters, types => AreNodes modules shared types ∧
      ∀ d, t = .definition d → d.HasParameters modules types.length
  | .ofMethod method .name, text => ∀ d, method = .definition d →
      TellText modules d.module d.name text
  | .ofMethod _ .signature, signature => AreNodes modules shared signature.types
  | .ofMethod _ .parameters, types => AreNodes modules shared types
  | .ofField field .name, text => ∀ d, field = .definition d →
      TellText modules d.module d.name text
  | .ofField _ .type, type => type.IsNode modules shared
  | .resolved name token, type => AreNodes modules shared type.toList ∧
      (token.isIn .typeDef →
        ∀ t ∈ type, ∃ d, t = .definition d ∧ d.module = name ∧ d.token = token)
  | _, _ => True

/-- What is known stays known when modules are added and types are shared. -/
theorem Fact.Holds.mono {modules modules' : List Module}
    {shared shared' : Ty → Prop} {fact : Fact} {value : fact.Value}
    (h : fact.Holds modules shared value) (more : ∀ m ∈ modules, m ∈ modules')
    (le : ∀ t, shared t → shared' t) :
    fact.Holds modules' shared' value := by
  cases fact with
  | ofType t aspect =>
    cases aspect with
    -- What names nodes is still about nodes.
    | base => exact ⟨h.1.mono more le, h.2⟩
    | parameters =>
      -- What names a module names one that is still there.
      refine ⟨h.1.mono more le, fun d hd => ?_⟩
      obtain ⟨m, hm, rows⟩ := h.2 d hd
      exact ⟨m, more m hm, rows⟩
    | _ => trivial
  | ofMethod method aspect =>
    cases aspect with
    | name =>
      intro d hd
      obtain ⟨m, hm, told⟩ := h d hd
      exact ⟨m, more m hm, told⟩
    | _ => exact AreNodes.mono h more le
  | ofField field aspect =>
    cases aspect with
    | name =>
      intro d hd
      obtain ⟨m, hm, told⟩ := h d hd
      exact ⟨m, more m hm, told⟩
    | type => exact Ty.IsNode.mono h more le
  | resolved => exact ⟨h.1.mono more le, h.2⟩

namespace Memory

/-- Whether a type has a node; where sharing is not followed, every type
counts. -/
def Shares (tracked : Bool) (memory : Memory) (t : Ty) : Prop :=
  tracked = true → ∃ address : Address, memory.nodes.types[address]? = some t

/-- A type that has a node keeps it. -/
theorem Shares.grow {tracked : Bool} {memory later : Memory} {t : Ty}
    (h : memory.Shares tracked t) (grows : memory.nodes.GrowsInto later.nodes) :
    later.Shares tracked t := by
  intro follows
  obtain ⟨address, made⟩ := h follows
  exact ⟨address, grows address t made⟩

/-- All that the memory and the registry tell are nodes. -/
structure IsFaithful (registry : Registry) (tracked : Bool) (memory : Memory) :
    Prop where
  proper : registry.IsProper
  wellKnown : ∀ types ∈ registry.wellKnown,
    AreNodes registry.modules (memory.Shares tracked) types
  methodOwners : ∀ (key : RowKey) (t : Ty), memory.methodOwners[key]? = some t →
    t.IsNode registry.modules (memory.Shares tracked)
  fieldOwners : ∀ (key : RowKey) (t : Ty), memory.fieldOwners[key]? = some t →
    t.IsNode registry.modules (memory.Shares tracked)
  facts : ∀ fact value, memory.facts.get? fact = some value →
    fact.Holds registry.modules (memory.Shares tracked) value
  kept : tracked = true → memory.nodes.AreKept
  nodes : tracked = true → ∀ (address : Address) (t : Ty),
    memory.nodes.types[address]? = some t →
    t.IsNode registry.modules (memory.Shares tracked)

end Memory

/-! ### Queries in faithful memories -/

namespace Query

variable {α β : Type} {registry : Registry} {tracked : Bool}
  {shared shared' : Ty → Prop}

/-- A query that has an answer is followed by the next. -/
theorem bind_apply_ok {query : Query α} {next : α → Query β}
    {memory memory' : Memory} {a : α}
    (h : query registry memory = (.ok a, memory')) :
    (query >>= next) registry memory = next a registry memory' := by
  simp only [Bind.bind, ReaderT.bind, ExceptT.bind, ExceptT.mk, StateT.bind, h]
  rfl

/-- A query that fails is not followed by another. -/
theorem bind_apply_error {query : Query α} {next : α → Query β}
    {memory memory' : Memory} {error : Error}
    (h : query registry memory = (.error error, memory')) :
    (query >>= next) registry memory = (.error error, memory') := by
  simp only [Bind.bind, ReaderT.bind, ExceptT.bind, ExceptT.mk, StateT.bind, h]
  rfl

/-- What holds after a query in a faithful memory where at least certain types
are shared. -/
def Ensures (registry : Registry) (tracked : Bool) (shared : Ty → Prop)
    (query : Query α) (P : (Ty → Prop) → α → Prop) : Prop :=
  ∀ memory : Memory, memory.IsFaithful registry tracked →
    (∀ t, shared t → memory.Shares tracked t) →
      memory.nodes.GrowsInto (query registry memory).2.nodes ∧
        (query registry memory).2.IsFaithful registry tracked ∧
          ∀ a, (query registry memory).1 = .ok a →
          P ((query registry memory).2.Shares tracked) a

/-- A query all of whose answers tell nodes. -/
abbrev Gives (registry : Registry) (tracked : Bool) (shared : Ty → Prop)
    (query : Query α) (types : α → List Ty) : Prop :=
  query.Ensures registry tracked shared fun shared a =>
    AreNodes registry.modules shared (types a)

/-- A query about no types that leaves the memory faithful. -/
abbrev Keeps (registry : Registry) (tracked : Bool) (shared : Ty → Prop)
    (query : Query α) : Prop :=
  query.Ensures registry tracked shared fun _ _ => True

namespace Ensures

variable {query : Query α} {P R : (Ty → Prop) → α → Prop}
  {Q : (Ty → Prop) → β → Prop}

/-- What is ensured stays ensured when more types are shared. -/
theorem le (h : query.Ensures registry tracked shared P)
    (le : ∀ t, shared t → shared' t) :
    query.Ensures registry tracked shared' P :=
  fun memory faithful hshared => h memory faithful
    fun t ht => hshared t (le t ht)

theorem imp (h : query.Ensures registry tracked shared P)
    (weaken : ∀ shared a, P shared a → R shared a) :
    query.Ensures registry tracked shared R := by
  intro memory faithful hshared
  obtain ⟨grows, kept, answer⟩ := h memory faithful hshared
  exact ⟨grows, kept, fun a ha => weaken _ a (answer a ha)⟩

theorem keeps (h : query.Ensures registry tracked shared P) :
    query.Keeps registry tracked shared :=
  h.imp fun _ _ _ => trivial

theorem and (h : query.Ensures registry tracked shared P)
    (h' : query.Ensures registry tracked shared R) :
    query.Ensures registry tracked shared fun shared a => P shared a ∧
      R shared a := by
  intro memory faithful hshared
  obtain ⟨grows, kept, answer⟩ := h memory faithful hshared
  obtain ⟨-, -, answer'⟩ := h' memory faithful hshared
  exact ⟨grows, kept, fun a ha => ⟨answer a ha, answer' a ha⟩⟩

/-- The modules are as they should be. -/
theorem of_proper
    (h : registry.IsProper → query.Ensures registry tracked shared P) :
    query.Ensures registry tracked shared P :=
  fun memory faithful => h faithful.proper memory faithful

theorem pure {a : α}
    (h : ∀ shared', (∀ t, shared t → shared' t) → P shared' a) :
    (Pure.pure a : Query α).Ensures registry tracked shared P := by
  intro memory faithful hshared
  refine ⟨.refl _, faithful, ?_⟩
  rintro _ ⟨⟩
  exact h _ hshared

theorem throw (error : Error) :
    (MonadExcept.throw error : Query α).Ensures registry tracked shared P :=
  fun _ faithful _ => ⟨.refl _, faithful, nofun⟩

theorem bind {next : α → Query β}
    (first : query.Ensures registry tracked shared P)
    (second : ∀ shared', (∀ t, shared t → shared' t) → ∀ a,
      P shared' a → (next a).Ensures registry tracked shared' Q) :
    (query >>= next).Ensures registry tracked shared Q := by
  intro memory faithful hshared
  obtain ⟨grows, kept, answer⟩ := first memory faithful hshared
  rcases hrun : query registry memory with ⟨error | a, memory'⟩
  · rw [hrun] at grows kept
    rw [bind_apply_error hrun]
    exact ⟨grows, kept, nofun⟩
  · rw [hrun] at grows kept answer
    rw [bind_apply_ok hrun]
    obtain ⟨grows', kept', answer'⟩ :=
      second _ (fun t ht => (hshared t ht).grow grows) a
        (answer a rfl) memory' kept fun _ => id
    exact ⟨grows.trans grows', kept', answer'⟩

theorem read :
    (MonadReader.read : Query Registry).Ensures registry tracked shared
    fun shared r => r = registry ∧
      ∀ types ∈ registry.wellKnown, AreNodes registry.modules shared types := by
  refine fun memory faithful _ => ⟨.refl _, faithful, ?_⟩
  rintro _ ⟨⟩
  exact ⟨rfl, faithful.wellKnown⟩

/-- A query that looks at the registry first. -/
theorem read_bind {next : Registry → Query β}
    (h : (next registry).Ensures registry tracked shared Q) :
    (MonadReader.read >>= next).Ensures registry tracked shared Q :=
  read.bind fun _ le _ hr => hr.1 ▸ h.le le

/-- A result that needs no type system. -/
theorem lift {result : Except Error α}
    (h : ∀ a, result = .ok a → ∀ shared', (∀ t, shared t → shared' t) →
      P shared' a) :
    (liftM result : Query α).Ensures registry tracked shared P := by
  cases result with
  | error error => exact throw error
  | ok a => exact pure (h a rfl)

/-- A query that needs such a result first. -/
theorem lift_bind {result : Except Error α} {next : α → Query β}
    (h : ∀ a, (next a).Ensures registry tracked shared Q) :
    (liftM result >>= next).Ensures registry tracked shared Q :=
  Ensures.bind (P := fun _ _ => True) (lift fun _ _ _ _ => trivial)
    fun _ le a _ => (h a).le le

theorem ite {c : Prop} [Decidable c] {other : Query α}
    (first : c → query.Ensures registry tracked shared P)
    (second : ¬ c → other.Ensures registry tracked shared P) :
    (if c then query else other).Ensures registry tracked shared P := by
  split
  exacts [first ‹_›, second ‹_›]

theorem attempt (h : query.Ensures registry tracked shared P) :
    query.attempt.Ensures registry tracked shared
      fun shared result => ∀ a, result = .ok a → P shared a := by
  intro memory faithful hshared
  obtain ⟨grows, kept, answer⟩ := h memory faithful hshared
  rw [Query.attempt]
  split
  · next hrun =>
    rw [hrun] at grows kept
    exact ⟨grows, kept, nofun⟩
  · next hrun =>
    rw [hrun] at grows kept answer
    refine ⟨grows, kept, ?_⟩
    rintro _ ⟨⟩
    exact answer

/-! ### Facts -/

theorem established? (fact : Fact) :
    (Query.established? fact).Ensures registry tracked shared
    fun shared value => ∀ v ∈ value, fact.Holds registry.modules shared v := by
  refine fun memory faithful _ => ⟨.refl _, faithful, ?_⟩
  rintro _ ⟨⟩ v hv
  exact faithful.facts fact v hv

theorem establish {fact : Fact} {value : fact.Value}
    (h : fact.Holds registry.modules shared value) :
    (Query.establish fact value).Keeps registry tracked shared := by
  refine fun memory faithful hshared => ⟨.refl _, { faithful with facts := ?_ },
    fun _ _ => trivial⟩
  intro other v hv
  have same : (memory.facts.insert fact value).get? other = some v := hv
  rw [Std.DHashMap.get?_insert] at same
  split at same
  · next heq =>
    obtain rfl := eq_of_beq heq
    cases same
    exact h.mono (fun _ => id) hshared
  · exact faithful.facts other v same

theorem rememberIf {fact : Fact} {isKept : fact.Value → Bool}
    {find : Query fact.Value}
    (h : find.Ensures registry tracked shared (fact.Holds registry.modules)) :
    (Query.rememberIf fact isKept find).Ensures registry tracked shared
      (fact.Holds registry.modules) := by
  refine (established? fact).bind fun _ le known hknown => ?_
  cases known with
  | some value =>
    exact .pure fun _ le => (hknown value rfl).mono (fun _ => id) le
  | none =>
    refine (h.le le).bind fun _ le value hvalue => ?_
    refine .ite (fun _ => ?_) fun _ => .pure fun _ le => hvalue.mono
      (fun _ => id) le
    refine (establish hvalue).bind fun _ le _ _ => ?_
    exact .pure fun _ le' => hvalue.mono (fun _ => id)
      fun t ht => le' t (le t ht)

theorem remember {fact : Fact} {find : Query fact.Value}
    (h : find.Ensures registry tracked shared (fact.Holds registry.modules)) :
    (Query.remember fact find).Ensures registry tracked shared
      (fact.Holds registry.modules) :=
  rememberIf h

/-! ### Sharing -/

/-- A type may be shared if it is a node once it is. -/
theorem share {t : Ty} (h : ∀ shared', (∀ u, shared u → shared' u) → shared' t →
    t.IsNode registry.modules shared') :
    (Query.share t).Ensures registry tracked shared
      fun shared u => u = t ∧ u.IsNode registry.modules shared := by
  intro memory faithful hshared
  rw [share_eq]
  have grows : memory.nodes.GrowsInto (memory.nodes.intern t).2 :=
    memory.nodes.growsInto_intern t
  -- The new type is one of those that are shared, and itself a node then.
  have le : ∀ u, memory.Shares tracked u →
      Memory.Shares tracked { memory with nodes := (memory.nodes.intern t).2 }
        u :=
    fun u hu => hu.grow grows
  have node :=
    h (Memory.Shares tracked { memory with nodes := (memory.nodes.intern t).2 })
    (fun u hu => le u (hshared u hu)) fun _ => ⟨_, memory.nodes.types_intern t⟩
  refine ⟨grows, ?_, ?_⟩
  · refine {
      proper := faithful.proper
      wellKnown := fun types htypes => (faithful.wellKnown types htypes).le le
      methodOwners := fun key u hu => (faithful.methodOwners key u hu).le le
      fieldOwners := fun key u hu => (faithful.fieldOwners key u hu).le le
      facts := fun fact value hvalue => (faithful.facts fact value hvalue).mono
        (fun _ => id) le
      kept := fun follows => (faithful.kept follows).intern
        (Ty.isSome_key? fun u hu => ?_)
      nodes := fun follows address u made => ?_ }
    · -- What the type is built from is shared before the type itself is.
      have built := h (fun u => memory.Shares tracked u ∨ u = t)
        (fun u hu => .inl (hshared u hu)) (.inr rfl)
      obtain shares | rfl := built.shared_of_mem_components hu
      · obtain ⟨address, made⟩ := shares follows
        rw [(faithful.kept follows).addresses address u made]
        rfl
      · exact absurd hu (Ty.notMem_components u)
    · obtain made | ⟨-, rfl⟩ := Nodes.eq_or_of_types_intern made
      · exact (faithful.nodes follows address u made).le le
      · exact node
  · rintro _ ⟨⟩
    exact ⟨rfl, node⟩

/-! ### Owners of members -/

/-- The owner of a member is a node, whether it was met before or is found
now. -/
theorem ownerOf {known : Memory → Option Ty} {remember : Ty → Memory → Memory}
    {owner : Query Ty}
    (told : ∀ memory : Memory, memory.IsFaithful registry tracked → ∀ t,
      known memory = some t → t.IsNode registry.modules (memory.Shares tracked))
    (kept : ∀ memory : Memory, memory.IsFaithful registry tracked → ∀ t,
      t.IsNode registry.modules (memory.Shares tracked) →
      (remember t memory).nodes = memory.nodes ∧
      (remember t memory).IsFaithful registry tracked)
    (found : owner.Gives registry tracked shared fun t => [t]) :
    (CliMetadata.ownerOf known remember owner).Gives registry tracked shared
      fun t => [t] := by
  have ofMemory : (MonadStateOf.get : Query Memory).Ensures registry
      tracked shared
      fun shared memory => ∀ t, known memory = some t →
        t.IsNode registry.modules shared := by
    refine fun memory faithful _ => ⟨.refl _, faithful, ?_⟩
    rintro _ ⟨⟩
    exact told memory faithful
  refine ofMemory.bind fun _ le memory hmemory => ?_
  split
  · next t ht => exact .pure fun _ le => .singleton ((hmemory t ht).le le)
  · refine (found.le le).bind fun shared _ t ht => ?_
    -- To remember the owner shares no type.
    have noted : (MonadStateOf.modifyGet fun memory => ((), remember t memory) :
        Query PUnit).Keeps registry tracked shared := by
      intro memory faithful hshared
      obtain ⟨same, faithful'⟩ := kept memory faithful t (ht.head.le hshared)
      refine ⟨?_, faithful', fun _ _ => trivial⟩
      show memory.nodes.GrowsInto (remember t memory).nodes
      rw [same]
    exact noted.bind fun _ le _ _ => .pure fun _ le' => ht.le
      fun t h => le' t (le t h)

end Ensures

end Query

end CliMetadata
