import CliMetadata.Proofs.Heap.Storage
import CliMetadata.Proofs.TypeSystem.Commutation
import CliMetadata.Proofs.TypeSystem.Recurring.Searches

/-!
# The nearest member

Three questions are answered along the bases of a type: where a virtual call is
dispatched to, and what a reference to a field or to a method means.  They
differ in what they take for an answer of one type, and all of them find the
nearest answer up to the limit of the options
(`Session.IsReachable.findsNearest`), whatever was asked before.

No more is asked of the types on the way than that the rows have names, that the
bases are known, and that the signatures are that are compared: those of methods
that have the name.  A member that is found belongs to whom it was first met
with (`MemberSearch.Owns`).
-/

namespace CliMetadata

open Filter Query

/-- The question has this kind of outcome, given enough patience. -/
def TypeSystem.ComesTo {α : Type} (system : TypeSystem) (query : Query α)
    (outcome : Except Error α → Prop) : Prop :=
  ∀ᶠ patience in atTop, outcome ((system.withPatience patience).ask query).1

/-- A type with its base, the base of this, and so on.  Those that lie beyond
the limit, but for the first of them, do not matter. -/
structure TypeSystem.HasChain (system : TypeSystem) (t : Ty)
    (chain : Nat → Option Ty) : Prop where
  start : chain 0 = some t
  base : ∀ i ≤ system.registry.options.maxInheritanceDepth, ∀ u,
    chain i = some u →
    system.CanResolve u.base (chain (i + 1))
  ends : ∀ i, chain i = none → chain (i + 1) = none

/-- A search for members of a name along a chain, from what the type system
remembers now. -/
def TypeSystem.search (system : TypeSystem) (chain : Nat → Option Ty)
    (kind : MemberKind) (name : String) : MemberSearch where
  registry := system.registry
  base := system.memory
  limit := system.registry.options.maxInheritanceDepth
  chain
  kind
  name

/-- What the methods of the types of a chain are called, and the signatures of
those of one name. -/
structure TypeSystem.ListsMethods (system : TypeSystem)
    (chain : Nat → Option Ty) (name : String)
    (entries : Ty → List MethodEntry) : Prop where
  names : ∀ i ≤ system.registry.options.maxInheritanceDepth, ∀ u,
    chain i = some u →
    let search := system.search chain .method name
    search.Lists search.CallsMethod u (entries u)
  signatures : ∀ i ≤ system.registry.options.maxInheritanceDepth, ∀ u,
    chain i = some u →
    ∀ entry ∈ entries u, entry.name = name →
      system.CanResolve entry.method.signature entry.signature

/-- What the fields of the types of a chain are called. -/
def TypeSystem.ListsFields (system : TypeSystem) (chain : Nat → Option Ty)
    (name : String) (entries : Ty → List FieldEntry) : Prop :=
  ∀ i ≤ system.registry.options.maxInheritanceDepth, ∀ u, chain i = some u →
    let search := system.search chain .field name
    search.Lists search.CallsField u (entries u)

/-- A reference to a member of a type, with the name and the blob in its row. -/
structure TypeSystem.Refers (system : TypeSystem) (m : Module) (token : Token)
    (t : Ty) (name : String) (blob : List UInt8) : Prop where
  module : m ∈ system.registry.modules
  isIn : token.isIn .memberRef
  row : ∃ row, m.image.memberRef? token = some row ∧
    m.image.string row.name = .ok name ∧
    m.image.blob row.signature = .ok blob ∧
    system.CanResolve (m.type row.parent) (some t)

/-- What a query that recurs comes to now, it comes to on any search. -/
theorem TypeSystem.CanResolve.runsTo {system : TypeSystem} {α : Type}
    {query : Query α} {a : α} (resolved : system.CanResolve query a)
    (recurs : ∀ patience, Recurs system.registry system.memory patience fun _ =>
      query)
    {chain : Nat → Option Ty} {kind : MemberKind} {name : String}
    (passed : RowKey → Prop) :
    query.RunsTo system.registry
      ((system.search chain kind name).HasPassed passed)
      ((system.search chain kind name).HasPassed passed) (.ok a) := by
  obtain ⟨patience, answer⟩ := resolved
  have reached := (recurs patience).reaches system.memory
    (Memory.isSettledSince_base _ _)
  rw [show (query (system.registry.withPatience patience) system.memory).1
    = .ok a from answer] at reached
  exact (system.search chain kind name).runsTo_of_reachesSince
    (reached (.ok a)) passed

namespace Session

variable {s : Session} {options : Options}

/-- What is looked for along the bases of a type is the nearest answer. -/
structure FindsNearest (s : Session) : Prop where
  /-- A virtual call ends at the declaration, or at a virtual method of its name
  and signature that opens no slot. -/
  dispatch : ∀ (t : Ty) (declaration : MethodEntry),
    s.system.CanResolve declaration.method.name declaration.name →
    s.system.CanResolve declaration.method.signature declaration.signature →
    ∀ chain, s.system.HasChain t chain → ∀ entries,
      s.system.ListsMethods chain declaration.name entries →
        s.system.ComesTo (t.dispatch declaration.method)
          (IsNearest s.system.registry.options.maxInheritanceDepth chain
            fun u =>
            ((entries u).find? fun entry => entry.name = declaration.name &&
              declaration.endsCall entry).map MethodEntry.method)
  /-- A reference to a field means a field of its name. -/
  field : ∀ m token t name blob, s.system.Refers m token t name blob →
    FieldSig.startsAt blob = true → ∀ chain, s.system.HasChain t chain →
    ∀ entries, s.system.ListsFields chain name entries →
        s.system.ComesTo (m.entity token)
          (IsNearest s.system.registry.options.maxInheritanceDepth chain
            fun u =>
            ((entries u).find? fun entry => entry.name = name).map
              fun entry => .field entry.field)
  /-- A reference to a method means a method of its name and of its signature,
  as it is seen from the type. -/
  method : ∀ m token t name blob, s.system.Refers m token t name blob →
    FieldSig.startsAt blob = false →
    ∀ spelled, MethodSig.ofBytes
      s.system.registry.options.maxSignatureDepth blob = .ok spelled →
    ∀ signature, s.system.CanResolve (m.resolveMethod spelled) signature →
    ∀ wanted, s.system.CanResolve (signature.seenFrom t) wanted →
    ∀ chain, s.system.HasChain t chain →
      ∀ entries, s.system.ListsMethods chain name entries →
        s.system.ComesTo (m.entity token)
          (IsNearest s.system.registry.options.maxInheritanceDepth chain
            fun u => ((entries u).find? fun entry =>
              entry.name = name && wanted = entry.signature).map
                fun entry => .method entry.method)

/-- What a search comes to from what is remembered now, the session is told. -/
theorem comesTo_of_runsTo {α : Type} {query : Query α}
    {outcomes : Except Error α → Prop} {outcome : Except Error α}
    (holds : outcomes outcome) {chain : Nat → Option Ty} {kind : MemberKind}
    {name : String}
    (runs : query.RunsTo s.system.registry
      ((s.system.search chain kind name).HasPassed
        ((s.system.search chain kind name).ListedBefore 0))
      (fun _ => True) outcome) :
    s.system.ComesTo query outcomes := by
  filter_upwards [runs] with patience runs
  have before := (s.system.search chain kind name).hasPassed_base
  have told : ((s.system.withPatience patience).ask query).1 = outcome :=
    (runs s.system.memory before).1
  rwa [told]

section
variable (h : s.IsReachable options)
include h

/-- Along a chain, what is looked for is the nearest answer, whoever members
were met with before. -/
theorem IsReachable.runsTo_alongBases {α : Type} {t : Ty}
    {chain : Nat → Option Ty} {kind : MemberKind} {name : String}
    (has : s.system.HasChain t chain) {ask : Ty → Query (Option α)}
    {answers : Ty → Option α}
    (asks : ∀ i ≤ s.system.registry.options.maxInheritanceDepth, ∀ u,
      chain i = some u → (ask u).RunsTo s.system.registry
        ((s.system.search chain kind name).HasPassed
          ((s.system.search chain kind name).ListedBefore i))
        ((s.system.search chain kind name).HasSearched i (answers u))
        (.ok (answers u))) :
    ∃ outcome, IsNearest s.system.registry.options.maxInheritanceDepth chain
      answers outcome ∧
      (alongBases ask t).RunsTo s.system.registry
        ((s.system.search chain kind name).HasPassed
          ((s.system.search chain kind name).ListedBefore 0))
        (fun _ => True) outcome :=
  (s.system.search chain kind name).runsTo_alongBases has.start rfl
    (fun i within u hu => (has.base i within u hu).runsTo
      fun _ => u.recurs_base h.isSound.proper) has.ends asks

/-- Virtual calls and references to members find the nearest answer along the
bases, up to the limit of the options.  Bases may go on for ever. -/
theorem IsReachable.findsNearest : s.FindsNearest := by
  have proper := h.isSound.proper
  have live := h.live
  constructor
  · -- A call that is dispatched.
    intro t declaration named signed chain has entries lists
    obtain ⟨outcome, nearest, runs⟩ :=
      h.runsTo_alongBases has fun i within u hu =>
      MemberSearch.runsTo_find proper live within hu rfl
        (lists.names i within u hu)
        fun entry hentry same passed => declaration.runsTo_answersCall
          ((lists.signatures i within u hu entry hentry same).runsTo
            (fun _ => entry.method.recurs_signature proper) passed)
    exact comesTo_of_runsTo nearest <|
      (named.runsTo (fun _ => declaration.method.recurs_name) _).bind <|
      (signed.runsTo (fun _ => declaration.method.recurs_signature proper)
        _).bind <| (RunsTo.requireTypeSystem live).bind runs
  · -- A reference to a field.
    intro m token t name blob refers isField chain has entries lists
    obtain ⟨row, hrow, hname, hblob, resolved⟩ := refers.row
    have parent := h.yields_of_canResolve
      (fun _ => recurs_type proper m refers.module row.parent)
      (fun _ => transfers_type m refers.module row.parent) resolved
    obtain ⟨outcome, nearest, runs⟩ :=
      h.runsTo_alongBases has fun i within u hu =>
      MemberSearch.runsTo_fieldNamed proper live within hu rfl
        (lists i within u hu)
    have mapped := nearest.map Entity.field
    simp only [Option.map_map] at mapped
    exact comesTo_of_runsTo mapped <|
      Module.runsTo_entity_of_field live refers.isIn hrow
      (Module.isIn_eq_false_of_yields parent (by decide))
      (Module.isIn_eq_false_of_yields parent (by decide))
      (resolved.runsTo (fun _ => recurs_type proper m refers.module row.parent)
        _) hname hblob isField runs
  · -- A reference to a method.
    intro m token t name blob refers isMethod spelled hspelled signature
      resolves wanted seen chain has entries lists
    obtain ⟨row, hrow, hname, hblob, resolved⟩ := refers.row
    have parent := h.yields_of_canResolve
      (fun _ => recurs_type proper m refers.module row.parent)
      (fun _ => transfers_type m refers.module row.parent) resolved
    obtain ⟨outcome, nearest, runs⟩ :=
      h.runsTo_alongBases has fun i within u hu =>
      MemberSearch.runsTo_method proper live within hu rfl
        (lists.names i within u hu) wanted
        fun entry hentry same =>
          (lists.signatures i within u hu entry hentry same).runsTo
          fun _ => entry.method.recurs_signature proper
    have mapped := nearest.map Entity.method
    simp only [Option.map_map] at mapped
    exact comesTo_of_runsTo mapped <|
      Module.runsTo_entity_of_method live refers.isIn hrow
      (Module.isIn_eq_false_of_yields parent (by decide))
      (Module.isIn_eq_false_of_yields parent (by decide))
      (resolved.runsTo (fun _ => recurs_type proper m refers.module row.parent)
        _) hname hblob
      isMethod hspelled
      (resolves.runsTo
        (fun _ => Module.recurs_resolveMethod proper refers.module spelled) _)
      (seen.runsTo (fun _ => signature.recurs_seenFrom proper t) _) runs

end

/-- A careful caller can hold a type that the only module declares. -/
theorem exists_holds (calls : List ModuleBuilder.Call)
    (small : (Action.addModule
      ((ModuleBuilder.new "App").applyAll calls)).IsCareful (new {}))
    {token : Token} {t : Ty}
    (declares : (Module.ofImage
      ((ModuleBuilder.new "App").applyAll calls).image).Declares token t) :
    ∃ s : Session, s.IsCareful {} ∧
      s.system.registry = { modules :=
        [.ofImage ((ModuleBuilder.new "App").applyAll calls).image] } ∧
        t ∈ s.types := by
  let m : Module := .ofImage ((ModuleBuilder.new "App").applyAll calls).image
  let start : Session := { system := { registry := { modules := [m] } } }
  have careful : start.IsCareful {} := by
    have built := (ModuleBuilder.IsBuilt.new "App").applyAll calls
    exact IsCareful.new.step small (.addModule built rfl)
  have sound := careful.isReachable.isSound
  have found : (start.system.ask (m.type token)).1 = .ok (some t) :=
    Module.type_eq_ok_of_declares sound careful.isSettled.memory
      (List.mem_singleton_self _) declares
  have allowed : start.Allows (.ofModule m.name (.type token)) :=
    .of_types (List.forall_mem_nil _) rfl rfl
  -- The token is asked of the module by its name.
  have asks : (Question.ofModule m.name (.type token)).answer
      start.system.registry
      = (do return (← m.type token).toList.map .type : Query (List Item))
        start.system.registry := by
    funext memory
    have there := sound.proper.module?_eq_some (List.mem_singleton_self m)
    refine (bind_apply_ok rfl).trans ?_
    rw [there]
    rfl
  obtain ⟨s, careful', same, items⟩ := careful.hold allowed trivial asks found
  exact ⟨s, careful', same, by simp [types, items, Item.types, Ty.mem_parts]⟩

/-- A signature that spells no type but a variable. -/
theorem Module.yields_resolveMethod_typeVar {registry : Registry}
    (sound : registry.IsSound) (m : Module) {signature : MethodSig}
    (result : signature.result = .plain (.typeVar 0))
    (params : signature.params = []) :
    (m.resolveMethod signature).Yields registry
      { flags := signature.resolvedFlags
        genericCount := signature.genericCount
        result := .var 0 false
        parameters := []
        modifiers := [] } := by
  have requires := yields_requireTypeSystem sound
  have parameter : (m.resolve (.typeVar 0)).Yields registry (.var 0 false) :=
    requires.bind (.of_answers sound (transfers_variableOf _ _) (.share _))
  have told : (m.resolveParam 0 (.plain (.typeVar 0))).Yields registry
      (.var 0 false, []) :=
    Yields.bind (.pure []) (parameter.bind (.bind (.pure _) (.pure _)))
  rw [Module.resolveMethod, result, params]
  exact requires.bind (told.bind (.bind (.pure []) (.pure _)))

/-- A module tells a name that its heap stores. -/
theorem string_of_storedAt {image : Image}
    (heap : image.stringHeap = .ok ⟨image.strings⟩) {position : UInt32}
    {name : String} (plain : '\x00' ∉ name.toList)
    (stored : StoredAt image.strings position.toNat (StringHeap.written name)) :
    image.string position = .ok name := by
  rw [Image.string, heap]
  exact StringHeap.get_of_storedAt plain stored

/-! A type that derives from itself, and a method of another type. -/

def loopCalls : List ModuleBuilder.Call :=
  [.typeDef "N" "Loop" .public ⟨0x02000002⟩,
    .typeDef "N" "Door" .public .null,
    .methodDef ⟨0x02000003⟩ "Open" ⟨0x1C6⟩ (.instance_ (.typeVar 0) [])]

def loopModule :
    Module := .ofImage ((ModuleBuilder.new "App").applyAll loopCalls).image

def loop : TypeDefinition where
  module := "App"
  token := ⟨0x02000002⟩
  flags := .public
  name := 10
  namespaceName := 15
  base := ⟨0x02000002⟩

def door : TypeDefinition where
  module := "App"
  token := ⟨0x02000003⟩
  flags := .public
  name := 17
  namespaceName := 15
  base := .null

def doorOpen : MethodEntry where
  method := .definition
    { module := "App"
      token := ⟨0x06000001⟩
      owner := .definition door
      flags := ⟨0x1C6⟩
      implFlags := 0
      name := 22
      signature := 1 }
  name := "Open"
  signature :=
    { flags := ⟨0⟩
      genericCount := 0
      result := .var 0 false
      parameters := []
      modifiers := [] }

/-- The name of the method stands in the heap. -/
theorem string_doorOpen : loopModule.image.string 22 = .ok "Open" :=
  string_of_storedAt rfl (by decide) ⟨[], by decide⟩

theorem declares_loop :
    loopModule.Declares ⟨0x02000002⟩ (.definition loop) := ⟨_, rfl, rfl⟩

section
variable {registry : Registry} (sound : registry.IsSound)
  (hm : loopModule ∈ registry.modules)
include sound hm

theorem yields_base_loop :
    (Ty.definition loop).base.Yields registry (some (.definition loop)) :=
  loop.yields_baseType sound hm rfl rfl rfl
    (Module.yields_type_of_declares sound hm declares_loop) rfl

omit sound hm in
theorem yields_base_door (registry : Registry) :
    (Ty.definition door).base.Yields registry none :=
  .remember (fun _ => rfl) trivial (.pure none)

theorem yields_doorOpen (limit : registry.options.maxSignatureDepth = 50) :
    doorOpen.method.name.Yields registry doorOpen.name ∧
      doorOpen.method.signature.Yields registry doorOpen.signature := by
  refine ⟨.remember (fun _ => rfl) trivial
    (yields_string sound hm rfl string_doorOpen), ?_⟩
  have parsed : MethodSig.ofBytes registry.options.maxSignatureDepth
      [0x20, 0, 0x13, 0]
      = .ok (.instance_ (.typeVar 0) []) := by
    rw [limit]
    rfl
  exact MethodDefinition.yields_resolved sound hm rfl rfl parsed
    (Module.yields_resolveMethod_typeVar sound loopModule rfl rfl)

end

/-- A careful caller can hold the type. -/
theorem exists_holds_loop : ∃ s : Session, s.IsCareful {} ∧
    s.system.registry = { modules := [loopModule] } ∧
    .definition loop ∈ s.types :=
  exists_holds loopCalls (by constructor <;> decide) declares_loop

/-- Among the types of a chain that starts with it, the door is who its method
belongs to. -/
theorem IsCareful.owns_doorOpen (careful : s.IsCareful {})
    (same : s.system.registry = { modules := [loopModule] })
    {chain : Nat → Option Ty} (starts : chain 0 = some (.definition door)) :
    (s.system.search chain .method doorOpen.name).Owns ⟨"App", ⟨0x06000001⟩⟩
      (.definition door) := by
  cases known : s.system.memory.methodOwners[(⟨"App", ⟨0x06000001⟩⟩ : RowKey)]?
    with
  | some t =>
    -- Whoever is known to own the row is its declared owner.
    obtain ⟨m, hm, -, token, declares, row, hrow, rfl⟩ :=
      careful.isSettled.memory.methodOwners _ t known
    rw [same] at hm
    obtain rfl := List.mem_singleton.mp hm
    cases declares
    cases hrow
    exact .met known
  | none =>
    -- Otherwise the first type of the chain lists the row.
    refine .listed known (.found (Nat.zero_le _) ?_ nofun)
    show (chain 0).bind (Ty.lister? s.system.registry .method _) = _
    rw [starts, same]
    rfl

/-- A call on the door opens it.  Along the bases of a type that derives from
itself, the call ends at the limit. -/
theorem door_findsNearest : ∃ s : Session, s.IsReachable {} ∧ s.FindsNearest ∧
    s.system.ComesTo ((Ty.definition door).dispatch doorOpen.method)
      (· = .ok (some doorOpen.method)) ∧
    s.system.ComesTo ((Ty.definition loop).dispatch doorOpen.method)
      (· = .error (.tooDeep 256)) := by
  obtain ⟨s, careful, same, -⟩ := exists_holds_loop
  have finds := IsReachable.findsNearest careful.isReachable
  refine ⟨s, careful.isReachable, finds, ?_⟩
  have sound := careful.isReachable.isSound
  have hm : loopModule ∈ s.system.registry.modules := by
    rw [same]
    exact List.mem_singleton_self _
  have limit :
      s.system.registry.options.maxInheritanceDepth = 256 := by rw [same]
  obtain ⟨name, signature⟩ := yields_doorOpen sound hm (by rw [same])
  have named := (careful.answers_of_yields name).exists
  have signed := (careful.answers_of_yields signature).exists
  constructor
  · have chain : s.system.HasChain (.definition door)
        ([Ty.definition door][·]?) := by
      refine ⟨rfl, fun i _ u hu => ?_, fun i ended => ?_⟩
      · obtain ⟨hi, rfl⟩ := List.getElem?_eq_some_iff.mp hu
        obtain rfl := Nat.lt_one_iff.mp hi
        exact (careful.answers_of_yields
          (yields_base_door s.system.registry)).exists
      · rw [List.getElem?_eq_none_iff] at ended ⊢
        exact Nat.le_succ_of_le ended
    have lists : s.system.ListsMethods ([Ty.definition door][·]?) doorOpen.name
        fun _ => [doorOpen] := by
      refine ⟨fun i _ u hu => ?_, fun i _ u hu entry hentry _ => ?_⟩
      · obtain ⟨hi, rfl⟩ := List.getElem?_eq_some_iff.mp hu
        obtain rfl := Nat.lt_one_iff.mp hi
        exact .definition rfl hm rfl rfl
          (.cons ⟨_, _, rfl, careful.owns_doorOpen same rfl, rfl,
            string_doorOpen⟩ .nil)
      · obtain rfl := List.mem_singleton.mp hentry
        exact signed
    refine (finds.dispatch _ doorOpen named signed _ chain _ lists).mono
      fun patience nearest => ?_
    exact nearest.eq (.found (Nat.zero_le _) (by simp [MethodEntry.endsCall])
      fun j before => absurd before (Nat.not_lt_zero j))
  -- Every type of the chain is the type itself, which lists no methods.
  · have chain : s.system.HasChain (.definition loop)
        fun _ => some (.definition loop) := by
      refine ⟨rfl, fun _ _ u hu => ?_, fun _ ended => absurd ended
        (Option.some_ne_none _)⟩
      cases hu
      exact (careful.answers_of_yields (yields_base_loop sound hm)).exists
    have lists : s.system.ListsMethods (fun _ => some (.definition loop))
        doorOpen.name
        fun _ => [] := by
      refine ⟨fun _ _ u hu => ?_, fun _ _ _ _ _ entry =>
        absurd entry List.not_mem_nil⟩
      cases hu
      exact .definition rfl hm rfl rfl .nil
    have comes := finds.dispatch _ doorOpen named signed _ chain _ lists
    rw [limit] at comes
    exact comes.mono fun patience nearest => nearest.eq
      (.tooDeep (fun _ _ => rfl) rfl)

end Session

end CliMetadata
