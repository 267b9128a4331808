import Mathlib.Data.List.Forall2
import CliMetadata.Proofs.TypeSystem.Yields

/-!
# The members that a type lists

What the methods of a type are called and what their signatures say is told by
rows of the module of its definition.  `Ty.ListsNames` says how all of them are
called, in the order of the rows, and `Ty.Lists` what is told of all of them.  A
search for a name among the methods of a type is a search in this list
(`Ty.ListsNames.yields_find`), of which no more counts than what stands before
the method that is found (`Ty.yields_find`).

An applied definition lists what the definition lists, as views with its
arguments in the signatures (`Module.TellsMethod.view`).
-/

namespace CliMetadata

open Query

variable {registry : Registry}

/-! ### Searches -/

namespace Members

variable {μ κ : Type} {isWanted : Token → Query Bool} {member : Token → Query μ}
  {test : μ → Query Bool} {item : κ → μ} {wants passes : κ → Bool}
  {tokens rest : List Token} {entries : List κ} {found : Option μ}

/-- What a search does at the row of a token, where `holds` tells what is
remembered once some rows were passed. -/
structure Visits (registry : Registry) (isWanted : Token → Query Bool)
    (member : Token → Query μ) (test : μ → Query Bool)
    (holds : List Token → Memory → Prop) (token : Token) (a : μ)
    (wants passes : Bool) : Prop where
  wanted : ∀ seen, (isWanted token).RunsTo registry (holds seen)
    (holds seen) (.ok wants)
  skips : wants = false → ∀ seen memory, holds seen memory →
    holds (seen ++ [token]) memory
  made : wants = true → ∀ seen,
    (member token).RunsTo registry (holds seen)
      (holds (seen ++ [token])) (.ok a)
  tested : wants = true → ∀ seen,
    (test a).RunsTo registry (holds seen) (holds seen) (.ok passes)

/-- A search looks at one row after the other, and is over where one has what is
wanted. -/
theorem runsTo_findOf {holds : List Token → Memory → Prop}
    {ended : Memory → Prop}
    (told : List.Forall₂ (fun token entry => Visits registry isWanted member
      test holds token (item entry) (wants entry)
        (passes entry)) tokens entries)
    (seen : List Token)
    (others : (entries.find? fun entry => wants entry && passes entry) = none →
      (findOf isWanted member test rest).RunsTo registry
        (holds (seen ++ tokens)) ended (.ok found))
    (ends : (entries.find? fun entry => wants entry && passes entry).isSome →
      ∀ seen memory, holds seen memory → ended memory) :
    (findOf isWanted member test (tokens ++ rest)).RunsTo registry
      (holds seen) ended
      (.ok
        (((entries.find? fun entry => wants entry && passes entry).map item).or
          found)) := by
  induction told generalizing seen with
  | nil =>
    rw [List.append_nil] at others
    exact others rfl
  -- Either the row is passed by, and the search goes on, or it ends here.
  | @cons token entry tokens entries first _ ih =>
    rw [List.find?_cons] at others ends ⊢
    rw [List.append_cons] at others
    refine (first.wanted seen).bind ?_
    cases hwants : wants entry with
    | false =>
      rw [hwants] at others ends
      exact (ih _ others ends).imp (first.skips hwants seen) fun _ => id
    | true =>
      refine (first.made hwants seen).bind ((first.tested hwants _).bind ?_)
      cases hpasses : passes entry with
      | false =>
        rw [hwants, hpasses] at others ends
        exact ih _ others ends
      | true =>
        rw [hwants, hpasses] at ends
        exact .pure _ (ends rfl _)

/-- A search whose rows yield what they are asked for yields the first that is
wanted. -/
theorem yields_findOf
    (told : List.Forall₂ (fun token entry => (isWanted token).Yields registry
      (wants entry) ∧
      (wants entry = true → (member token).Yields registry (item entry) ∧
        (test (item entry)).Yields registry (passes entry))) tokens entries)
    (others : (entries.find? fun entry => wants entry && passes entry) = none →
      (findOf isWanted member test rest).Yields registry found) :
    (findOf isWanted member test (tokens ++ rest)).Yields registry
      (((entries.find? fun entry => wants entry && passes entry).map item).or
        found) := by
  -- What is true stays true, whichever rows were passed.
  have visits := told.imp fun token entry ⟨wanted, made⟩ =>
    (⟨fun _ => wanted, fun _ _ _ => id, fun wants _ => (made wants).1,
      fun wants _ => (made wants).2⟩ : Visits registry isWanted member test
        (fun _ => Memory.IsTrue registry) token (item entry) (wants entry)
          (passes entry))
  exact runsTo_findOf visits [] others fun _ _ _ => id

end Members

/-! ### What rows tell -/

/-- What is told of a method. -/
@[ext]
structure MethodEntry where
  method : Method
  name : String
  signature : MethodSignature

/-- The method of a row of a definition's module, as a member of the given
owner. -/
def Module.memberOfRow (m : Module) (d : TypeDefinition) (owner : Ty)
    (row : MethodDefRow) :
    Method :=
  if owner = .definition d then m.methodOfRow row (.definition d)
  else .view (m.methodOfRow row (.definition d)) owner

/-- How the row of a token calls a method that a definition declares, as a
member of the given owner. -/
def Module.NamesMethod (m : Module) (d : TypeDefinition) (owner : Ty)
    (token : Token) (entry : MethodEntry) : Prop :=
  ∃ row, m.image.methodDef? token = some row ∧
    entry.method = m.memberOfRow d owner row ∧
    m.image.string row.name = .ok entry.name

/-- What the row of a token tells of a method that a definition declares, as a
member of the given owner. -/
structure Module.TellsMethod (registry : Registry) (m : Module)
    (d : TypeDefinition) (owner : Ty) (token : Token) (entry : MethodEntry) :
    Prop where
  row : ∃ row, m.image.methodDef? token = some row ∧
    entry.method = m.memberOfRow d owner row ∧
    m.image.string row.name = .ok entry.name
  signature : entry.method.signature.Yields registry entry.signature

section
variable {m : Module} {d : TypeDefinition} {owner : Ty} {token : Token}
  {entry : MethodEntry}

theorem Module.TellsMethod.names
    (told : m.TellsMethod registry d owner token entry) :
    m.NamesMethod d owner token entry := told.row

theorem Module.NamesMethod.yields_accepts
    (names : m.NamesMethod d owner token entry) (name : String) :
    ((MethodFilter.named name).accepts m token).Yields registry
      (entry.name = name) := by
  obtain ⟨row, hrow, -, hname⟩ := names
  rw [MethodFilter.accepts.eq_def]
  dsimp only
  rw [hrow]
  exact (Yields.lift hname).bind (.pure _)

/-- A method that is met with the type that declares it belongs to this type. -/
theorem Module.yields_method (sound : registry.IsSound)
    (hm : m ∈ registry.modules) {row : MethodDefRow}
    (hrow : m.image.methodDef? token = some row)
    (declares : registry.DeclaresMethod ⟨m.name, token⟩ owner) :
    (m.method token (some owner)).Yields registry
      (m.methodOfRow row owner) := by
  have declared : ∀ t ∈ some owner,
      registry.DeclaresMethod ⟨m.name, token⟩ t := by
    rintro _ ⟨⟩
    exact declares
  refine .of_apply sound (Module.transfers_method hm token
    (some owner) declared) ?_
  rw [Module.method.eq_def, hrow]
  -- Nothing is remembered of the owner, so that it is the one that is named.
  have unmet : ({} : Memory).methodOwners[(⟨m.name, token⟩ : RowKey)]?
      = none := by simp
  have owned : (pure owner : Query Ty) registry {} = (.ok owner, {}) := rfl
  exact congrArg Prod.fst (bind_apply_ok (ownerOf_apply_ok unmet owned))

theorem Module.NamesMethod.yields_member
    (names : m.NamesMethod d owner token entry) (sound : registry.IsSound)
    (hm : m ∈ registry.modules)
    (declares : registry.DeclaresMethod ⟨m.name, token⟩ (.definition d)) :
    (memberMethod m d owner token).Yields registry entry.method := by
  obtain ⟨row, hrow, method, -⟩ := names
  rw [method, Module.memberOfRow]
  refine (Module.yields_method sound hm hrow declares).bind ?_
  -- Only as a member of another owner is the method a view.
  by_cases same : owner = .definition d
  · rw [if_pos same, if_pos same]
    exact .pure _
  · rw [if_neg same, if_neg same]
    exact (yields_requireTypeSystem sound).bind (.pure _)

/-- The row tells by which name the method is asked for. -/
theorem Module.TellsMethod.yields_name
    (told : m.TellsMethod registry d owner token entry)
    (sound : registry.IsSound) (hm : m ∈ registry.modules) :
    entry.method.name.Yields registry entry.name := by
  obtain ⟨row, -, method, hname⟩ := told.row
  have declared : entry.method.declaration
      = (m.methodOfRow row (.definition d)).declaration := by
    rw [method, Module.memberOfRow]
    split <;> rfl
  rw [Method.name, declared]
  exact .remember (fun _ => rfl) trivial (yields_string sound hm rfl hname)

/-- A member belongs to its owner. -/
theorem Module.TellsMethod.owner_eq
    (told : m.TellsMethod registry d owner token entry) :
    entry.method.owner = owner := by
  obtain ⟨row, -, method, -⟩ := told.row
  rw [method, Module.memberOfRow]
  split
  · next same => exact same.symm
  · rfl

/-- Of one method one thing is told. -/
theorem Module.TellsMethod.eq {other : Token} {entry' : MethodEntry}
    (told : m.TellsMethod registry d owner token entry)
    (told' : m.TellsMethod registry d owner other entry')
    (same : entry.method = entry'.method) : entry = entry' := by
  obtain ⟨row, -, method, hname⟩ := told.row
  obtain ⟨row', -, method', hname'⟩ := told'.row
  have rows : m.memberOfRow d owner row = m.memberOfRow d owner row' := by
    rw [← method, ← method', same]
  -- Views of one owner differ as what they are views of does.
  have names : row.name = row'.name := by
    rw [Module.memberOfRow, Module.memberOfRow] at rows
    split at rows
    · exact congrArg (fun member => member.declaration.name) rows
    · exact congrArg (fun member => member.declaration.name) rows
  have signature := told.signature
  rw [same] at signature
  rw [names, hname'] at hname
  exact MethodEntry.ext same (Except.ok.inj hname).symm
    (signature.eq told'.signature)

/-- What is told of the view of a method on an applied definition: the arguments
are put into the signature. -/
def MethodEntry.viewedOn (d : TypeDefinition) (arguments : List Ty)
    (entry : MethodEntry) :
    MethodEntry where
  method := .view entry.method (.applied d arguments)
  name := entry.name
  signature := entry.signature.replaced arguments

/-- What a row tells of a method, it tells of the views of the method. -/
theorem Module.TellsMethod.view
    (told : m.TellsMethod registry d (.definition d) token entry)
    (sound : registry.IsSound) {arguments : List Ty}
    (node : (Ty.applied d arguments).IsNode registry.modules fun _ => True) :
    m.TellsMethod registry d (.applied d arguments) token
      (entry.viewedOn d arguments) := by
  obtain ⟨row, hrow, method, hname⟩ := told.row
  -- A row that belongs to the definition is told without a view.
  have declared : entry.method = m.methodOfRow row (.definition d) := by
    simp [method, Module.memberOfRow]
  refine ⟨⟨row, hrow, ?_, hname⟩, ?_⟩
  · show Method.view entry.method (.applied d arguments) = _
    rw [declared, Module.memberOfRow, if_neg nofun]
  · -- The signature of the view has the arguments in it.
    cases node with
    | applied definition htypes =>
      have owners : AreNodes registry.modules
          (fun _ => True) entry.method.types := by
        rw [declared]
        exact AreNodes.of_parts definition
      exact Method.yields_signature_view sound htypes owners told.signature

end

/-! ### Methods of types -/

/-- What is told of the methods of a type, in the order of the rows.  A type
without a definition has none. -/
inductive Ty.Lists (registry : Registry) (t : Ty) :
    List MethodEntry → Prop where
  | without : t.definition? = none → Lists registry t []
  | definition {d : TypeDefinition} {m : Module} {row : TypeDefRow}
      {entries : List MethodEntry} :
      t.definition? = some d → m ∈ registry.modules → m.name = d.module →
        m.image.typeDef? d.token = some row →
          List.Forall₂ (m.TellsMethod registry d t) row.methods entries →
          Lists registry t entries

/-- How the methods of a type are called, in the order of the rows. -/
inductive Ty.ListsNames (registry : Registry) (t : Ty) :
    List MethodEntry → Prop where
  | without : t.definition? = none → ListsNames registry t []
  | definition {d : TypeDefinition} {m : Module} {row : TypeDefRow}
      {entries : List MethodEntry} :
      t.definition? = some d → m ∈ registry.modules → m.name = d.module →
        m.image.typeDef? d.token = some row →
          List.Forall₂ (m.NamesMethod d t) row.methods entries →
          ListsNames registry t entries

theorem Ty.Lists.names {t : Ty} {entries : List MethodEntry}
    (lists : t.Lists registry entries) :
    t.ListsNames registry entries := by
  cases lists with
  | without hd => exact .without hd
  | definition hd hm named hrow told =>
    exact .definition hd hm named hrow (told.imp fun _ _ tells => tells.names)

/-- What is told of a method is told by one of the rows. -/
theorem Module.exists_tells {m : Module} {d : TypeDefinition} {owner : Ty}
    {tokens : List Token} {entries : List MethodEntry}
    (told : List.Forall₂ (m.TellsMethod registry d owner) tokens entries)
    {entry : MethodEntry} (hentry : entry ∈ entries) :
    ∃ token, m.TellsMethod registry d owner token entry := by
  obtain ⟨i, hi, rfl⟩ := List.getElem_of_mem hentry
  exact ⟨_, told.get (told.length_eq ▸ hi) hi⟩

/-- What is listed is told by a row. -/
theorem Ty.Lists.tells {t : Ty} {entries : List MethodEntry}
    (lists : t.Lists registry entries) {entry : MethodEntry}
    (hentry : entry ∈ entries) : ∃ d m token, t.definition? = some d ∧
      m ∈ registry.modules ∧ m.name = d.module ∧
      m.TellsMethod registry d t token entry := by
  cases lists with
  | without => cases hentry
  | @definition d m row _ hd hm named _ told =>
    obtain ⟨token, tells⟩ := Module.exists_tells told hentry
    exact ⟨d, m, token, hd, hm, named, tells⟩

/-- A method is listed with its owner, and one thing is told of it. -/
theorem Ty.Lists.eq_of_method_eq (proper : registry.IsProper) {t u : Ty}
    {entries entries' : List MethodEntry} (lists : t.Lists registry entries)
    (lists' : u.Lists registry entries') {entry entry' : MethodEntry}
    (hentry : entry ∈ entries) (hentry' : entry' ∈ entries')
    (same : entry.method = entry'.method) :
    t = u ∧ entry = entry' := by
  obtain ⟨d, m, token, hd, hm, named, tells⟩ := lists.tells hentry
  obtain ⟨d', m', token', hd', hm', named', tells'⟩ := lists'.tells hentry'
  -- The method tells its owner, the owner its definition, and this its module.
  obtain rfl : t = u := by rw [← tells.owner_eq, same, tells'.owner_eq]
  obtain rfl : d = d' := Option.some.inj (hd.symm.trans hd')
  obtain rfl : m = m' := proper.eq_of_name_eq hm hm' (named.trans named'.symm)
  exact ⟨rfl, tells.eq tells' same⟩

section
variable {t : Ty} {d : TypeDefinition} {m : Module} {row : TypeDefRow}
  (hd : t.definition? = some d) (named : m.name = d.module)
  (hrow : m.image.typeDef? d.token = some row) (hm : m ∈ registry.modules)
include hd named hrow hm

section
variable (proper : registry.IsProper) (live : registry.held = none)
  {holds : Memory → Prop}
include proper live

/-- The methods of a type are looked for in the row of its definition. -/
theorem Ty.runsTo_methods (filter : MethodFilter) :
    (t.methods filter).RunsTo registry holds holds (.ok
      { tokens := row.methods
        isWanted := filter.accepts m
        member := memberMethod m d t }) := by
  rw [Ty.methods.eq_def, hd]
  dsimp only
  rw [← named]
  refine (RunsTo.reachModule proper live hm).bind ?_
  rw [TypeDefinition.row.eq_def, hrow]
  exact .bind (.pure row fun _ => id) (.pure _ fun _ => id)

/-- The fields of a type are looked for in the row of its definition. -/
theorem Ty.runsTo_fields (wanted : Option String) :
    (t.fields wanted).RunsTo registry holds holds (.ok
      { tokens := row.fields
        isWanted := acceptsField wanted m
        member := memberField m d t }) := by
  rw [Ty.fields.eq_def, hd]
  dsimp only
  rw [← named]
  refine (RunsTo.reachModule proper live hm).bind ?_
  rw [TypeDefinition.row.eq_def, hrow]
  exact .bind (.pure row fun _ => id) (.pure _ fun _ => id)

end

/-- The definition of a type declares the methods of its row. -/
theorem Ty.IsNode.declaresMethod (sound : registry.IsSound)
    (owns : registry.OwnsMembers) (ht : t.IsNode registry.modules fun _ => True)
    {token : Token} (among : token ∈ row.methods) :
    registry.DeclaresMethod ⟨m.name, token⟩ (.definition d) :=
  ⟨m, hm, rfl, d.token, (owns m hm).methods hrow token among,
    ht.declares sound.proper hd hm named hrow⟩

end

section
variable {t : Ty} {d : TypeDefinition} {m : Module} {row : TypeDefRow}
  {name : String} {passes : MethodEntry → Bool} (test : Method → Query Bool)

/-- The rows before the one that is found, and this row, decide what is
found. -/
theorem Ty.yields_find (sound : registry.IsSound) (owns : registry.OwnsMembers)
    (ht : t.IsNode registry.modules fun _ => True) (hd : t.definition? = some d)
    (hm : m ∈ registry.modules) (named : m.name = d.module)
    (hrow : m.image.typeDef? d.token = some row) {tokens rest : List Token}
    (listed : row.methods = tokens ++ rest) {entries : List MethodEntry}
    (calls : List.Forall₂ (m.NamesMethod d t) tokens entries)
    (tests : ∀ entry ∈ entries, entry.name = name →
      (test entry.method).Yields registry (passes entry))
    (ends : (entries.find? fun entry => entry.name = name && passes entry)
      = none → rest = []) :
    (do (← t.methods (.named name)).find test : Query (Option Method)).Yields
      registry
      ((entries.find? fun entry => entry.name = name && passes entry).map
        MethodEntry.method) := by
  have members : (t.methods (.named name)).Yields registry _ :=
    Ty.runsTo_methods hd named hrow hm sound.proper sound.live (.named name)
  -- Each row that is passed decides alone whether its method is wanted and
  -- passes the test.
  have told' : List.Forall₂ (fun token entry =>
      ((MethodFilter.named name).accepts m token).Yields registry
        (entry.name = name) ∧
        (decide (entry.name = name) = true →
          (memberMethod m d t token).Yields registry entry.method ∧
            (test entry.method).Yields registry
              (passes entry))) tokens entries := by
    refine List.forall₂_iff_zip.mpr
      ⟨calls.length_eq, fun {token entry} both => ?_⟩
    have names := (List.forall₂_iff_zip.mp calls).2 both
    obtain ⟨htoken, hentry⟩ := List.of_mem_zip both
    have among : token ∈ row.methods := by
      rw [listed]
      exact List.mem_append_left rest htoken
    refine ⟨names.yields_accepts name, fun same => ?_⟩
    have declares := ht.declaresMethod hd named hrow hm sound owns among
    have tested := tests entry hentry (of_decide_eq_true same)
    exact ⟨names.yields_member sound hm declares, tested⟩
  -- The rows after these are asked only if there are none.
  have nothing : (entries.find? fun entry => entry.name = name && passes entry)
      = none →
      (Members.findOf ((MethodFilter.named name).accepts m)
        (memberMethod m d t) test rest).Yields registry none := by
    intro missing
    rw [ends missing]
    exact .pure none
  have found := Members.yields_findOf told' nothing
  rw [Option.or_none, ← listed] at found
  exact members.bind found

/-- A method that is found in a type by its name is found in the list of its
methods. -/
theorem Ty.ListsNames.yields_find {entries : List MethodEntry}
    (lists : t.ListsNames registry entries) (sound : registry.IsSound)
    (owns : registry.OwnsMembers) (ht : t.IsNode registry.modules fun _ => True)
    (tests : ∀ entry ∈ entries, entry.name = name →
      (test entry.method).Yields registry (passes entry)) :
    (do (← t.methods (.named name)).find test : Query (Option Method)).Yields
      registry
      ((entries.find? fun entry => entry.name = name && passes entry).map
        MethodEntry.method) := by
  cases lists with
  | without hd =>
    rw [Ty.methods.eq_def, hd]
    exact Yields.pure (none : Option Method)
  | definition hd hm named hrow calls =>
    exact Ty.yields_find test sound owns ht hd hm named hrow
      (List.append_nil _).symm calls tests
      fun _ => rfl

/-- Without arguments, the signature of a method is compared as it is. -/
theorem MethodEntry.runsTo_comparison {entry : MethodEntry}
    {holds : Memory → Prop}
    (told : entry.method.signature.RunsTo registry holds holds
      (.ok entry.signature))
    (wanted : MethodSignature) :
    RunsTo registry holds holds (do
      let candidate ← (← entry.method.signature).substituted []
      return decide (wanted = candidate))
        (.ok (decide (wanted = entry.signature))) := by
  have unchanged : (entry.signature.substituted []).RunsTo registry holds holds
      (.ok entry.signature) := .pure entry.signature fun _ => id
  exact told.bind (unchanged.bind (.pure _ fun _ => id))

/-- What is found by a name and a signature is found in the list of the
methods. -/
theorem Ty.ListsNames.yields_method {entries : List MethodEntry}
    (lists : t.ListsNames registry entries) (sound : registry.IsSound)
    (owns : registry.OwnsMembers) (ht : t.IsNode registry.modules fun _ => True)
    (wanted : MethodSignature)
    (told : ∀ entry ∈ entries, entry.name = name →
      entry.method.signature.Yields registry entry.signature) :
    (t.method name (some wanted) []).Yields registry
      ((entries.find? fun entry =>
      entry.name = name && decide (wanted = entry.signature)).map
        MethodEntry.method) :=
  lists.yields_find _ sound owns ht fun entry hentry same =>
    MethodEntry.runsTo_comparison (told entry hentry same) wanted

/-- The first method of a name and signature is found by them. -/
theorem Ty.yields_method (sound : registry.IsSound)
    (owns : registry.OwnsMembers) (ht : t.IsNode registry.modules fun _ => True)
    (hd : t.definition? = some d) (hm : m ∈ registry.modules)
    (named : m.name = d.module) (hrow : m.image.typeDef? d.token = some row)
    {before after : List Token} {token : Token}
    (listed : row.methods = before ++ token :: after)
    {entries : List MethodEntry} {entry : MethodEntry}
    (passed : List.Forall₂ (m.TellsMethod registry d t) before entries)
    (tells : m.TellsMethod registry d t token entry)
    (different : ∀ other ∈ entries, other.name = entry.name →
      other.signature ≠ entry.signature) :
    (t.method entry.name (some entry.signature) []).Yields registry
      (some entry.method) := by
  -- The row is the last of those that are searched.
  have told : List.Forall₂ (m.TellsMethod registry d t) (before ++ [token])
      (entries ++ [entry]) :=
    List.rel_append passed (.cons tells .nil)
  have parts : row.methods = (before ++ [token]) ++ after := by
    rw [listed, List.append_assoc]
    rfl
  have earlier : (entries.find? fun other =>
      other.name = entry.name && decide (entry.signature = other.signature))
        = none := by
    refine List.find?_eq_none.mpr fun other hother => ?_
    simpa using fun named same => different other hother named same.symm
  have found : ((entries ++ [entry]).find? fun other =>
      other.name = entry.name && decide (entry.signature = other.signature))
        = some entry := by
    rw [List.find?_append, earlier]
    simp
  have ends : ((entries ++ [entry]).find? fun other =>
      other.name = entry.name && decide (entry.signature = other.signature))
        = none →
        after = [] := by
    rw [found]
    exact nofun
  have tests : ∀ other ∈ entries ++ [entry], other.name = entry.name → (do
      let candidate ← (← other.method.signature).substituted []
      return decide (entry.signature = candidate) : Query Bool).Yields registry
        (decide (entry.signature = other.signature)) := by
    intro other hother _
    obtain ⟨_, tells⟩ := Module.exists_tells told hother
    exact MethodEntry.runsTo_comparison tells.signature entry.signature
  have search := Ty.yields_find (fun method => do
    let candidate ← (← method.signature).substituted []
    return decide (entry.signature = candidate)) sound owns ht hd hm
      named hrow parts (told.imp fun _ _ tells => tells.names) tests ends
  rw [found] at search
  exact search

end

end CliMetadata
