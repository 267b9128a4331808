import CliMetadata.Proofs.TypeSystem.Listing

/-!
# References to members

A reference to a member of an applied definition tells a name and a signature.
The arguments are put into the signature before it is looked for, and into the
signatures that it is compared with.  So the reference means the first method of
its name, in the order of the rows, that has its signature *with the arguments
in both* (`Module.yields_entity_of_spells`).

Of two overloads whose signatures differ in variables only, the arguments can
make one: then a reference to the second means the first.  A reference that
spells a method as the method is declared means this method if the arguments
make none of the methods before it the same
(`Module.yields_entity_of_declaration`).

A reference to a field is looked for by its name alone: the type that it spells
does not matter (`Module.inheritedMember_eq_of_name`).
-/

namespace CliMetadata

open Query

variable {registry : Registry} {α : Type}

/-- What a type has itself is not looked for in its bases. -/
theorem yields_alongBases_of_some {ask : Ty → Query (Option α)} {t : Ty} {a : α}
    (found : (ask t).Yields registry (some a)) :
    (alongBases ask t).Yields registry (some a) :=
  .read_bind (fun _ => rfl) (found.bind (.pure (some a)))

/-- Where a token leads is a node. -/
theorem Module.isNode_of_yields (sound : registry.IsSound) {m : Module}
    (hm : m ∈ registry.modules) {token : Token} {t : Ty}
    (h : (m.type token).Yields registry (some t)) :
    t.IsNode registry.modules fun _ => True := by
  have nodes (l : Nat) : (m.type token).Gives (registry.withPatience l) false
      (fun _ => True)
      Option.toList :=
    givesNodes_type m (show m ∈ (registry.withPatience l).modules from hm) token
  exact (h.areNodes sound nodes).head

/-! ### Following references -/

/-- Only definitions, references and signatures lead to types. -/
theorem Module.isIn_eq_false_of_yields {m : Module} {token : Token} {t : Ty}
    {kind : TableKind} (h : (m.type token).Yields registry (some t))
    (other : kind ≠ .typeDef ∧ kind ≠ .typeRef ∧ kind ≠ .typeSpec) :
    token.isIn kind = false := by
  by_contra isIn
  rw [Bool.not_eq_false] at isIn
  obtain ⟨l, found⟩ := h.exists
  have answer : (m.type token (registry.withPatience l) {}).1 = .ok (some t) :=
    (found {} (Memory.isTrue_empty registry)).1
  obtain ⟨room, run⟩ := m.type_apply token (registry.withPatience l) {}
  rw [run] at answer
  by_cases hnull : token.isNull = true
  · rw [Module.typeWithin_of_isNull hnull] at answer
    cases answer
  -- Nothing is remembered, and the token is refused.
  · have refused : m.typeWith (Module.typeWithin room) token
        = throw (.malformed (.notAType token)) := by
      rw [Module.typeWith, Token.kind?_of_isIn isIn]
      cases kind <;> simp_all
    rw [Module.typeWithin_succ hnull, refused,
      rememberIf_apply_error (by simp) rfl] at answer
    cases answer

section
variable {m : Module} {token : Token} {reference : MemberRefRow} {t : Ty}
  {name : String} {blob : List UInt8} {holds ended : Memory → Prop}
  (live : registry.held = none) (isReference : token.isIn .memberRef)
  (hreference : m.image.memberRef? token = some reference)
  (notMethod : reference.parent.isIn .methodDef = false)
  (notModule : reference.parent.isIn .moduleRef = false)
  (parent : (m.type reference.parent).RunsTo registry holds holds
    (.ok (some t)))
  (hname : m.image.string reference.name = .ok name)
  (hblob : m.image.blob reference.signature = .ok blob)
include live isReference hreference notMethod notModule parent hname hblob

/-- A reference to a member of a type is looked for in the type and in its
bases. -/
theorem Module.runsTo_entity {outcome : Except Error (Option Entity)}
    (search : RunsTo registry holds ended (do
      if FieldSig.startsAt blob then
        return (← t.inheritedField name).map Entity.field
      let spelled ← MethodSig.ofBytes (← read).options.maxSignatureDepth blob
      let wanted ← (← m.resolveMethod spelled).seenFrom t
      return (← t.inheritedMethod name wanted).map Entity.method) outcome) :
    (m.entity token).RunsTo registry holds ended outcome := by
  rw [Module.entity.eq_def, Token.kind?_of_isIn isReference]
  show (m.referencedMember token).RunsTo registry holds ended outcome
  rw [Module.referencedMember.eq_def, hreference]
  dsimp only
  rw [notMethod, notModule, if_neg Bool.false_ne_true,
    if_neg Bool.false_ne_true]
  refine parent.bind ((RunsTo.lift hname).bind ((RunsTo.lift hblob).bind ?_))
  exact (RunsTo.requireTypeSystem live).bind search

theorem Module.runsTo_entity_of_field (isField : FieldSig.startsAt blob = true)
    {outcome : Except Error (Option Field)}
    (search : (t.inheritedField name).RunsTo registry holds ended outcome) :
    (m.entity token).RunsTo registry holds ended
      (outcome.map (Option.map Entity.field)) := by
  refine Module.runsTo_entity live isReference hreference notMethod notModule
    parent hname hblob ?_
  rw [isField, if_pos rfl]
  exact search.map _

theorem Module.runsTo_entity_of_method
    (isMethod : FieldSig.startsAt blob = false) {spelled : MethodSig}
    {signature wanted : MethodSignature}
    (hspelled : MethodSig.ofBytes registry.options.maxSignatureDepth blob
      = .ok spelled)
    (resolved : (m.resolveMethod spelled).RunsTo registry holds holds
      (.ok signature))
    (seen : (signature.seenFrom t).RunsTo registry holds holds (.ok wanted))
    {outcome : Except Error (Option Method)}
    (search : (t.inheritedMethod name wanted).RunsTo registry holds
      ended outcome) :
    (m.entity token).RunsTo registry holds ended
      (outcome.map (Option.map Entity.method)) := by
  refine Module.runsTo_entity live isReference hreference notMethod notModule
    parent hname hblob ?_
  -- The blob spells a method, so that it is read as one.
  rw [isMethod, if_neg Bool.false_ne_true]
  refine .read_bind (fun _ => rfl)
    ((RunsTo.lift hspelled).bind (resolved.bind ?_))
  exact seen.bind (search.map _)

end

/-- References to fields that name the same type, and the same field of it, mean
the same, whatever types they spell for the field. -/
theorem Module.inheritedMember_eq_of_name {m : Module}
    {row other : MemberRefRow} {blob blob' : List UInt8}
    (parent : row.parent = other.parent) (name : row.name = other.name)
    (hblob : m.image.blob row.signature = .ok blob)
    (hblob' : m.image.blob other.signature = .ok blob')
    (isField : FieldSig.startsAt blob = true)
    (isField' : FieldSig.startsAt blob' = true) :
    m.inheritedMember row = m.inheritedMember other := by
  have read (bytes : List UInt8) :
      (liftM (Except.ok bytes : Except Error (List UInt8)) :
      Query (List UInt8)) = pure bytes := rfl
  rw [Module.inheritedMember, Module.inheritedMember, parent, name,
    hblob, hblob']
  simp only [read, pure_bind, isField, isField', if_pos]

section
variable {m : Module} {d : TypeDefinition} {arguments : List Ty}
  (node : (Ty.applied d arguments).IsNode registry.modules fun _ => True)
include node

/-- A signature that a module spells is seen from an applied definition with the
arguments in it. -/
theorem Module.yields_seenFrom (sound : registry.IsSound)
    (hm : m ∈ registry.modules) {spelled : MethodSig}
    {signature : MethodSignature}
    (resolved : (m.resolveMethod spelled).Yields registry signature) :
    (signature.seenFrom (.applied d arguments)).Yields registry
      (signature.replaced arguments) := by
  have nodes (l : Nat) : (m.resolveMethod spelled).Gives
      (registry.withPatience l) false
      (fun _ => True) MethodSignature.types :=
    Module.gives_resolveMethod (show m ∈ (registry.withPatience l).modules
      from hm) spelled
  have hsignature := resolved.areNodes sound nodes
  cases node with
  | applied _ harguments _ _ _ =>
    exact MethodSignature.yields_substituted sound hsignature harguments

/-- By the signature of a method with the arguments in it, an applied definition
has the view of the method, if the arguments make none of the methods before it
the same. -/
theorem Ty.yields_method_applied (sound : registry.IsSound)
    (owns : registry.OwnsMembers) (hm : m ∈ registry.modules)
    (named : m.name = d.module) {row : TypeDefRow}
    (hrow : m.image.typeDef? d.token = some row) {before after : List Token}
    {method : Token} (listed : row.methods = before ++ method :: after)
    {entries : List MethodEntry} {entry : MethodEntry}
    (passed : List.Forall₂ (m.TellsMethod registry d (.definition d))
      before entries)
    (tells : m.TellsMethod registry d (.definition d) method entry)
    (different : ∀ other ∈ entries, other.name = entry.name →
      other.signature.replaced arguments ≠ entry.signature.replaced arguments) :
    ((Ty.applied d arguments).method entry.name
      (some (entry.signature.replaced arguments))
      []).Yields registry
        (some (.view entry.method (.applied d arguments))) := by
  -- The methods of the applied definition are views, and this one is the first
  -- to be found.
  have views :
      List.Forall₂ (m.TellsMethod registry d (.applied d arguments)) before
      (entries.map (MethodEntry.viewedOn d arguments)) :=
    List.forall₂_map_right_iff.mpr
      (passed.imp fun _ _ tells => tells.view sound node)
  have search := Ty.yields_method sound owns node rfl hm named hrow listed views
    (tells.view sound node)
  refine search fun view hview sameName => ?_
  obtain ⟨other, hother, rfl⟩ := List.mem_map.mp hview
  exact different other hother sameName

end

/-- The name and the signature by which a reference looks for a method. -/
structure Module.Spells (registry : Registry) (m : Module) (row : MemberRefRow)
    (name : String) (signature : MethodSignature) : Prop where
  name : m.image.string row.name = .ok name
  signature : ∃ blob spelled, m.image.blob row.signature = .ok blob ∧
    FieldSig.startsAt blob = false ∧
      MethodSig.ofBytes registry.options.maxSignatureDepth blob = .ok spelled ∧
        (m.resolveMethod spelled).Yields registry signature

section
variable {m : Module} {token : Token} {reference : MemberRefRow}
  {d : TypeDefinition} {arguments : List Ty} {name : String}
  {signature : MethodSignature} {row : TypeDefRow} (sound : registry.IsSound)
  (hm : m ∈ registry.modules) (isReference : token.isIn .memberRef)
  (hreference : m.image.memberRef? token = some reference)
  (isSpec : reference.parent.isIn .typeSpec)
  (parent : (m.type reference.parent).Yields registry
    (some (.applied d arguments)))
  (spells : m.Spells registry reference name signature)
include sound hm isReference hreference isSpec parent spells

/-- A reference to a member of an applied definition means what the definition
has by the name, and by the signature with the arguments in it. -/
theorem Module.yields_entity_of_method {found : Method}
    (search : ((Ty.applied d arguments).method name
      (some (signature.replaced arguments)) []).Yields registry (some found)) :
    (m.entity token).Yields registry (some (.method found)) := by
  have node := Module.isNode_of_yields sound hm parent
  obtain ⟨blob, spelled, hblob, isMethod, hspelled, resolved⟩ :=
    spells.signature
  have wanted := Module.yields_seenFrom node sound hm resolved
  -- The row of the parent decides how a reference is followed.
  have notMethod : reference.parent.isIn .methodDef = false :=
    Token.isIn_eq_false isSpec (by decide)
  have notModule : reference.parent.isIn .moduleRef = false :=
    Token.isIn_eq_false isSpec (by decide)
  exact Module.runsTo_entity_of_method sound.live isReference hreference
    notMethod notModule parent
    spells.name hblob isMethod hspelled resolved wanted
      (yields_alongBases_of_some search)

/-- A reference to a member of an applied definition means the first method that
has its name, and its signature with the arguments put into both. -/
theorem Module.yields_entity_of_spells (owns : registry.OwnsMembers)
    {n : Module} (hn : n ∈ registry.modules) (named : n.name = d.module)
    (hrow : n.image.typeDef? d.token = some row) {before after : List Token}
    {method : Token} (listed : row.methods = before ++ method :: after)
    {entries : List MethodEntry} {entry : MethodEntry}
    (passed : List.Forall₂ (n.TellsMethod registry d (.definition d))
      before entries)
    (tells : n.TellsMethod registry d (.definition d) method entry)
    (sameName : entry.name = name)
    (same : entry.signature.replaced arguments = signature.replaced arguments)
    (different : ∀ other ∈ entries, other.name = name →
      other.signature.replaced arguments ≠ signature.replaced arguments) :
    (m.entity token).Yields registry
      (some (.method (.view entry.method (.applied d arguments)))) := by
  have node := Module.isNode_of_yields sound hm parent
  -- The method comes first among those that the arguments make alike.
  rw [← sameName, ← same] at different
  have search := Ty.yields_method_applied node sound owns hn named hrow listed
    passed tells different
  rw [sameName, same] at search
  exact Module.yields_entity_of_method sound hm isReference hreference isSpec
    parent spells search

/-- A reference that spells a method as the method is declared means this
method, unless the arguments make a method before it the same. -/
theorem Module.yields_entity_of_declaration (owns : registry.OwnsMembers)
    (named : m.name = d.module) (hrow : m.image.typeDef? d.token = some row)
    {before after : List Token} {method : Token}
    (listed : row.methods = before ++ method :: after)
    {methodRow : MethodDefRow}
    (hmethod : m.image.methodDef? method = some methodRow)
    (sameName : methodRow.name = reference.name)
    (sameSignature : methodRow.signature = reference.signature)
    {entries : List MethodEntry}
    (passed : List.Forall₂ (m.TellsMethod registry d (.definition d))
      before entries)
    (different : ∀ other ∈ entries, other.name = name →
      other.signature.replaced arguments ≠ signature.replaced arguments) :
    (m.entity token).Yields registry (some (.method
      (.view (m.methodOfRow methodRow (.definition d))
        (.applied d arguments)))) := by
  obtain ⟨blob, spelled, hblob, -, hspelled, resolved⟩ := spells.signature
  -- The method is declared by the blob by which the reference spells it.
  have declared : (m.methodOfRow methodRow (.definition d)).signature.Yields
      registry signature := by
    refine .remember (fun _ => rfl) trivial
      ((yields_reachModule sound hm).bind ?_)
    rw [← sameSignature] at hblob
    exact (Yields.lift hblob).bind
      (.read_bind (fun _ => rfl) ((Yields.lift hspelled).bind resolved))
  have tells : m.TellsMethod registry d (.definition d) method
      { method := m.methodOfRow methodRow (.definition d), name,
        signature } := by
    refine ⟨⟨methodRow, hmethod, ?_, ?_⟩, declared⟩
    · simp [Module.memberOfRow]
    · rw [sameName]
      exact spells.name
  exact Module.yields_entity_of_spells sound hm isReference hreference isSpec
    parent spells owns hm
    named hrow listed passed tells rfl rfl different

end

end CliMetadata
