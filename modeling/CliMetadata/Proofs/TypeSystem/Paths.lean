import CliMetadata.Proofs.TypeSystem.Yields

/-!
# References by name

A definition that is nested in others is told by a path: the namespace and name
of the outermost one, and of each one further in.  References spell such a path
too, each scoped to the one before and the outermost to a module
(`Module.SpellsPath`).

At the top of a module, a definition is found by its namespace and name.
Further in, the two are put together before they are compared, so that `A` and
`B.C` are the same as `A.B` and `C`.  A chain of references therefore means the
definition to which the path leads if the first definition is taken that has the
*qualified* name (`Session.IsCareful.finds_spelled`).  This is the definition
that has the path where no name in the module has a dot in it
(`Session.IsCareful.finds_undotted`).  In general it is if and only if none in
front of it has the same qualified name (`Session.IsCareful.finds_nested_iff`).
-/

namespace CliMetadata

open Filter Query

/-! ### Qualified names -/

/-- A name without dots behind a dot tells what is in front of the dot. -/
theorem append_dot_inj {before before' name name' : List Char} (h : '.' ∉ name)
    (h' : '.' ∉ name')
    (same : before ++ '.' :: name = before' ++ '.' :: name') :
    before = before' ∧ name = name' := by
  induction before generalizing before' with
  | nil =>
    cases before' with
    | nil => exact ⟨rfl, (List.cons.inj same).2⟩
    | cons c before' =>
      -- The first name would have the dot of the second side.
      obtain ⟨-, rfl⟩ := List.cons.inj same
      exact absurd (List.mem_append_right _ List.mem_cons_self) h
  | cons c before ih =>
    cases before' with
    | nil =>
      -- The second name would have the dot of the first side.
      obtain ⟨-, rfl⟩ := List.cons.inj same
      exact absurd (List.mem_append_right _ List.mem_cons_self) h'
    | cons c' before' =>
      obtain ⟨rfl, rest⟩ := List.cons.inj same
      obtain ⟨rfl, rfl⟩ := ih rest
      exact ⟨rfl, rfl⟩

@[simp]
theorem toList_qualified (namespaceText name : String) :
    (qualified namespaceText name).toList
      = if namespaceText.isEmpty then name.toList
      else namespaceText.toList ++ '.' :: name.toList := by
  rw [qualified]
  split
  · rfl
  · simp

/-- Where names have no dots in them, a qualified name tells the namespace and
the name. -/
theorem qualified_inj {namespaceText other name otherName : String}
    (h : '.' ∉ name.toList) (h' : '.' ∉ otherName.toList)
    (same : qualified namespaceText name = qualified other otherName) :
    namespaceText = other ∧ name = otherName := by
  have characters := congrArg String.toList same
  rw [toList_qualified, toList_qualified] at characters
  split at characters
  · -- The first has no namespace, and the other name no dot for one.
    next empty =>
    split at characters
    · next empty' =>
      obtain rfl := String.isEmpty_iff.mp empty
      obtain rfl := String.isEmpty_iff.mp empty'
      exact ⟨rfl, String.toList_inj.mp characters⟩
    · rw [characters] at h
      exact absurd (List.mem_append_right _ List.mem_cons_self) h
  · -- The first has a namespace, so that the other has one.
    split at characters
    · rw [← characters] at h'
      exact absurd (List.mem_append_right _ List.mem_cons_self) h'
    · obtain ⟨spaces, names⟩ := append_dot_inj h h' characters
      exact ⟨String.toList_inj.mp spaces, String.toList_inj.mp names⟩

/-- A dot in a name can come from a namespace. -/
example : qualified "A" "B.C" = qualified "A.B" "C" := by decide

/-! ### Paths -/

/-- The row of a definition tells a namespace and a name. -/
def Image.IsCalled (image : Image) (token : Token) (called : TypeName) : Prop :=
  ∃ row, image.typeDef? token = some row ∧
    image.string row.namespaceName = .ok called.1 ∧
    image.string row.name = .ok called.2

theorem Image.IsCalled.eq {image : Image} {token : Token}
    {called other : TypeName} (h : image.IsCalled token called)
    (h' : image.IsCalled token other) : called = other := by
  obtain ⟨row, hrow, hspace, hname⟩ := h
  obtain ⟨row', hrow', hspace', hname'⟩ := h'
  obtain rfl := Option.some.inj (hrow.symm.trans hrow')
  exact Prod.ext (Except.ok.inj (hspace.symm.trans hspace'))
    (Except.ok.inj (hname.symm.trans hname'))

/-- A definition can be found at the top of a module by its namespace and name,
or not at all if it is nested. -/
inductive Image.EntersAs (image : Image) (token : Token) :
    Option TypeName → Prop where
  | nested {row : TypeDefRow} : image.typeDef? token = some row →
      row.flags.isNested = true →
      EntersAs image token none
  | outermost {row : TypeDefRow} {called : TypeName} : image.typeDef? token
      = some row →
      row.flags.isNested = false → image.IsCalled token called →
      EntersAs image token (some called)

/-- The token of a definition by its number. -/
def Token.ofDefinition (number : Nat) :
    Token := .ofParts .typeDef (.ofNat number)

/-- The definition of this number is the first that can be found at the top of a
module by this namespace and name. -/
structure Image.FindsFirst (image : Image) (called : TypeName) (number : Nat) :
    Prop where
  counts : 1 ≤ number ∧ number ≤ image.typeDefCount.toNat
  readable : ∀ n, 1 ≤ n → n ≤ image.typeDefCount.toNat →
    ∃ name?, image.EntersAs (.ofDefinition n) name?
  enters : image.EntersAs (.ofDefinition number) (some called)
  first : ∀ n, 1 ≤ n → n < number →
    ¬ image.EntersAs (.ofDefinition n) (some called)

/-- The first definition nested in another whose namespace and name are taken
for the given ones. -/
inductive Image.NestsFirst (image : Image) (same : TypeName → TypeName → Prop)
    (outer : Token) (called : TypeName) (token : Token) : Prop where
  | intro {before after : List Token} {own : TypeName} :
      image.nestedIn outer = before ++ token :: after →
      (∀ other ∈ before, ∃ name, image.IsCalled other name ∧
        ¬ same name called) →
      image.IsCalled token own → same own called →
      NestsFirst image same outer called token

/-- The definition to which a path leads in a module, from the innermost name to
the outermost one.  Nested definitions are compared in the given way. -/
inductive Module.Leads (same : TypeName → TypeName → Prop) (m : Module) :
    List TypeName → Token → Prop where
  | outermost {called : TypeName} {number : Nat} :
      m.image.FindsFirst called number →
      Leads same m [called] (.ofDefinition number)
  | nested {path : List TypeName} {outer token : Token} {called : TypeName} :
      Leads same m path outer → m.image.NestsFirst same outer called token →
      Leads same m (called :: path) token

/-- The qualified names are the same. -/
def SameQualified (a b : TypeName) :
    Prop := qualified a.1 a.2 = qualified b.1 b.2

/-- The name of a type, without its namespace, has no dot in it. -/
def IsUndotted (called : TypeName) : Prop := '.' ∉ called.2.toList

/-- A reference of a module with its row, its namespace and its name. -/
structure Image.Refers (image : Image) (token : Token) (row : TypeRefRow)
    (called : TypeName) :
    Prop where
  isIn : token.isIn .typeRef
  notNull : ¬ token.isNull = true
  isRow : image.typeRef? token = some row
  namespaceName : image.string row.namespaceName = .ok called.1
  name : image.string row.name = .ok called.2

/-- A chain of references spells a path in a module: the outermost one is scoped
to the module, by the name of an assembly or from within, and each other one to
the one before. -/
inductive Module.SpellsPath (modules : List Module) (m : Module) :
    List TypeName → Token → Module → Prop where
  | assembly {token : Token} {row : TypeRefRow} {called : TypeName}
      {assembly : AssemblyRefRow}
      {target : Module} : m.image.Refers token row called →
      row.scope.isIn .assemblyRef →
      m.image.assemblyRef? row.scope = some assembly →
      m.image.string assembly.name = .ok target.name → target ∈ modules →
      SpellsPath modules m [called] token target
  | module {token : Token} {row : TypeRefRow} {called : TypeName} :
      m.image.Refers token row called → row.scope.isIn .module →
      SpellsPath modules m [called] token m
  | nested {token : Token} {row : TypeRefRow} {called : TypeName}
      {path : List TypeName}
      {target : Module} : m.image.Refers token row called →
      row.scope.isIn .typeRef →
      SpellsPath modules m path row.scope target →
      SpellsPath modules m (called :: path) token target

/-- Where no name in the module has a dot in it, a path leads where it leads by
qualified names. -/
theorem Module.Leads.qualified_of_undotted {m : Module} {path : List TypeName}
    {token : Token} (h : m.Leads Eq path token)
    (undotted : ∀ token called, m.image.IsCalled token called →
      IsUndotted called) :
    m.Leads SameQualified path token := by
  induction h with
  | outermost first => exact .outermost first
  | nested _ nests ih =>
    refine .nested ih ?_
    cases nests with
    | @intro before after own listed passed called same =>
      -- A row that was passed has another name, and so another text.
      subst same
      refine .intro listed (fun other hother => ?_) called rfl
      obtain ⟨name, hname, different⟩ := passed other hother
      refine ⟨name, hname, fun same => different ?_⟩
      obtain ⟨spaces, names⟩ := qualified_inj (undotted other name hname)
        (undotted _ own called) same
      exact Prod.ext spaces names

/-- Where a path leads, there is a definition. -/
theorem Module.Leads.exists_declares {same : TypeName → TypeName → Prop}
    {m : Module} {path : List TypeName} {token : Token}
    (h : m.Leads same path token) :
    ∃ t, m.Declares token t := by
  have declared {token : Token} {called : TypeName}
      (names : m.image.IsCalled token called) :
      ∃ t, m.Declares token t := by
    obtain ⟨row, hrow, -⟩ := names
    exact ⟨_, row, hrow, rfl⟩
  cases h with
  | outermost first =>
    cases first.enters with
    | outermost _ _ names => exact declared names
  | nested _ nests =>
    cases nests with
    | intro _ _ names _ => exact declared names

/-- Of the definitions of a list, the first one that is taken for a name is
found if any is. -/
theorem Image.NestsFirst.of_mem {image : Image}
    {same : TypeName → TypeName → Prop} {outer : Token} {called : TypeName}
    {front rest : List Token} (listed : image.nestedIn outer = front ++ rest)
    (names : ∀ other ∈ front, ∃ name, image.IsCalled other name)
    (taken : ∃ other ∈ front, ∃ name,
      image.IsCalled other name ∧ same name called) :
    ∃ token ∈ front, image.NestsFirst same outer called token := by
  -- Take the first row in front that is called so.
  classical
  let takes (other : Token) : Bool :=
    decide (∃ name, image.IsCalled other name ∧ same name called)
  obtain ⟨token, found⟩ : ∃ token, front.find? takes = some token := by
    rw [← Option.isSome_iff_exists, List.find?_isSome]
    obtain ⟨other, hother, taken⟩ := taken
    exact ⟨other, hother, decide_eq_true taken⟩
  obtain ⟨accepted, before, after, rfl, passed⟩ :=
    List.find?_eq_some_iff_append.mp found
  obtain ⟨own, hown, same⟩ := of_decide_eq_true accepted
  refine ⟨token, List.mem_append_right _ List.mem_cons_self, ?_⟩
  have listed' : image.nestedIn outer = before ++ token :: (after ++ rest) := by
    simp [listed]
  -- The rows before it were refused, so they are called otherwise.
  refine .intro listed' (fun other hother => ?_) hown same
  obtain ⟨name, hname⟩ := names other (List.mem_append_left _ hother)
  refine ⟨name, hname, fun alike => ?_⟩
  have refused : takes other = false := by simpa using passed other hother
  exact of_decide_eq_false refused ⟨name, hname, alike⟩

theorem Module.SpellsPath.mem {modules : List Module} {m target : Module}
    {path : List TypeName} {token : Token}
    (h : m.SpellsPath modules path token target) (hm : m ∈ modules) :
    target ∈ modules := by
  induction h with
  | assembly _ _ _ _ htarget => exact htarget
  | module => exact hm
  | nested _ _ _ ih => exact ih

/-! ### The index of a module -/

namespace Image

variable {image : Image}

theorem stringHeap_of_string {index : UInt32} {text : String}
    (h : image.string index = .ok text) :
    ∃ heap, image.stringHeap = .ok heap := by
  rw [string] at h
  cases hheap : image.stringHeap with
  | error error =>
    rw [hheap] at h
    cases h
  | ok heap => exact ⟨heap, rfl⟩

/-- How a definition enters the index. -/
theorem EntersAs.nameEntry?_eq {number : Nat} {name? : Option TypeName}
    (h : image.EntersAs (.ofDefinition number) name?) :
    image.nameEntry? (.ofNat number)
      = .ok (name?.map fun name => (name, .ofDefinition number)) := by
  rw [Image.nameEntry?.eq_def]
  dsimp only
  cases h with
  | nested hrow nested =>
    rw [← Token.ofDefinition, hrow]
    dsimp only
    rw [if_pos nested]
    rfl
  | @outermost row called hrow outermost names =>
    obtain ⟨row', hrow', hspace, hname⟩ := names
    obtain rfl := Option.some.inj (hrow.symm.trans hrow')
    rw [← Token.ofDefinition, hrow]
    dsimp only
    rw [outermost, if_neg Bool.false_ne_true, hspace, hname]
    rfl

/-- Entries can be listed where each of them can be read. -/
theorem nameEntries_eq_ok {start count : Nat}
    (readable : ∀ n, start ≤ n → n < start + count →
      ∃ name?, image.EntersAs (.ofDefinition n) name?) :
    ∃ entries, image.nameEntries start count = .ok entries := by
  induction count generalizing start with
  | zero => exact ⟨[], rfl⟩
  | succ count ih =>
    obtain ⟨name?, enters⟩ := readable start le_rfl (by omega)
    have later : ∀ n, start + 1 ≤ n → n < start + 1 + count →
        ∃ name?, image.EntersAs (.ofDefinition n) name? :=
      fun n low high => readable n (by omega) (by omega)
    obtain ⟨rest, hrest⟩ := ih later
    rw [nameEntries, enters.nameEntry?_eq, hrest]
    exact ⟨_, rfl⟩

/-- The first entry of a name is found by it.  The induction is on the entries
that are left to be listed. -/
theorem lookup_nameEntries {called : TypeName} {number start count : Nat}
    (counts : start ≤ number ∧ number < start + count)
    (readable : ∀ n, start ≤ n → n < start + count → ∃ name?,
      image.EntersAs (.ofDefinition n) name?)
    (enters : image.EntersAs (.ofDefinition number) (some called))
    (first : ∀ n, start ≤ n → n < number →
      ¬ image.EntersAs (.ofDefinition n) (some called)) :
    ∃ entries, image.nameEntries start count = .ok entries ∧
      entries.lookup called = some (.ofDefinition number) := by
  induction count generalizing start with
  | zero => omega
  | succ count ih =>
    -- The rows behind `start` are entered without it.
    have later : ∀ n, start + 1 ≤ n → n < start + 1 + count →
        ∃ name?, image.EntersAs (.ofDefinition n) name? :=
      fun n low high => readable n (by omega) (by omega)
    obtain rfl | after := counts.1.eq_or_lt
    · -- The first row is the one that is looked for.
      obtain ⟨rest, hrest⟩ := nameEntries_eq_ok later
      refine ⟨_, by rw [nameEntries, enters.nameEntry?_eq, hrest]; rfl, ?_⟩
      simp
    · -- It is a later one, and the first row does not hide it.
      obtain ⟨name?, passes⟩ := readable start le_rfl (by omega)
      obtain ⟨rest, hrest, found⟩ :=
        ih ⟨after, by omega⟩ later fun n low => first n (by omega)
      refine ⟨_, by rw [nameEntries, passes.nameEntry?_eq, hrest]; rfl, ?_⟩
      have different : name? ≠ some called := by
        rintro rfl
        exact first start le_rfl after passes
      cases name? with
      | none => exact found
      | some other =>
        have unequal : (called == other) = false :=
          beq_eq_false_iff_ne.mpr fun same => different
            (congrArg some same.symm)
        simpa [List.lookup_cons, unequal] using found

/-- The first definition of a namespace and name is found by them. -/
theorem FindsFirst.lookup_index {m : Module} {called : TypeName} {number : Nat}
    (h : m.image.FindsFirst called number) :
    ∃ index, m.index = .ok index ∧
      index.lookup called = some (.ofDefinition number) := by
  obtain ⟨heap, hheap⟩ : ∃ heap, m.image.stringHeap = .ok heap := by
    -- A name that was read shows that there is a heap of names.
    cases h.enters with
    | outermost _ _ names =>
      obtain ⟨row, -, -, hname⟩ := names
      exact stringHeap_of_string hname
  have low := h.counts.1
  have high := h.counts.2
  obtain ⟨entries, hentries, found⟩ : ∃ entries,
      m.image.nameEntries 1 m.image.typeDefCount.toNat = .ok entries ∧
        entries.lookup called = some (.ofDefinition number) :=
    lookup_nameEntries ⟨low, by omega⟩
      (fun n one below => h.readable n one (by omega)) h.enters h.first
  refine ⟨entries, ?_, found⟩
  rw [m.index_eq, nameIndex, hheap]
  exact hentries

end Image

/-! ### Following references -/

section
variable {registry : Registry} (sound : registry.IsSound) {m : Module}
  (hm : m ∈ registry.modules) {room : Nat → Nat} {token : Token} {t : Ty}
include sound hm

/-- With enough steps, a token is followed to what its row is found to say. -/
theorem Module.reaches_typeWithin {outcome : Except Error (Option Ty)}
    (hnull : ¬ token.isNull = true)
    (h : ∀ room, Tendsto room atTop atTop →
      Reaches registry (fun l => m.typeWith (Module.typeWithin (room l)) token)
        outcome)
    (large : Tendsto room atTop atTop) :
    Reaches registry (fun l => Module.typeWithin (room l) m token) outcome := by
  have steps := Reaches.rememberIf
    (Module.remembers_typeWithin sound.proper hm hnull) trivial
    (fun _ large => h _ (tendsto_sub_one large)) large
  filter_upwards [steps, eventually_sub_add_one large] with l hl enough
  rwa [← Module.typeWithin_succ hnull, enough] at hl

/-- The token of a definition is followed to the definition. -/
theorem Module.reaches_typeWithin_of_declares (declares : m.Declares token t)
    (large : Tendsto room atTop atTop) :
    Reaches registry (fun l => Module.typeWithin (room l) m token)
      (.ok (some t)) := by
  obtain ⟨row, hrow, rfl⟩ := declares
  obtain ⟨isIn, hnull⟩ := (sound.proper.rows m hm).isTypeDef hrow
  refine Module.reaches_typeWithin sound hm hnull (fun room _ => ?_) large
  have definition : m.definition token = .ok (m.definitionOfRow row) := by
    rw [Module.definition, hrow]
  have shared : (Query.share (.definition (m.definitionOfRow row))).Yields
      registry _ :=
    .of_answers sound (.share _) (.share _)
  simp only [Module.typeWith, Token.kind?_of_isIn isIn]
  exact (Yields.lift definition).bind (shared.bind (.pure _))

section
variable {resolve : Nat → Resolver} {called : TypeName}
  (found : Reaches registry (fun l => resolve l m token) (.ok (some t)))

omit sound hm in
include found in
/-- The first definition of a namespace and name is found at the top of a
module. -/
theorem Module.reaches_typeNamedWith {number : Nat}
    (first : m.image.FindsFirst called number)
    (numbered : token = .ofDefinition number) :
    Reaches registry (fun l => m.typeNamedWith (resolve l) called.1 called.2)
      (.ok (some t)) := by
  obtain ⟨index, hindex, looked⟩ := first.lookup_index
  refine Reaches.bind (Yields.lift hindex) ?_
  simp only [Prod.mk.eta, looked]
  rwa [← numbered]

omit sound hm in
include found in
/-- The first definition of a list that has the qualified name is found by it.
The induction is on the definitions in front of it. -/
theorem Module.reaches_nestedNamedWith {own : TypeName}
    {before after : List Token}
    (passed : ∀ other ∈ before, ∃ name,
      m.image.IsCalled other name ∧ ¬ SameQualified name called)
    (names : m.image.IsCalled token own) (same : SameQualified own called) :
    Reaches registry (fun l => m.nestedNamedWith (resolve l)
      (qualified called.1 called.2)
      (before ++ token :: after)) (.ok (some t)) := by
  induction before with
  | nil =>
    -- The first row is called as is wanted.
    obtain ⟨row, hrow, hspace, hname⟩ := names
    simp only [List.nil_append, Module.nestedNamedWith, hrow]
    refine Reaches.bind (Yields.lift hname)
      (Reaches.bind (Yields.lift hspace) ?_)
    simpa only [if_pos (show qualified own.1 own.2
      = qualified called.1 called.2 from same)]
  | cons other before ih =>
    -- The first row is called otherwise and is passed.
    obtain ⟨first, others⟩ := List.forall_mem_cons.mp passed
    obtain ⟨name, ⟨row, hrow, hspace, hname⟩, different⟩ := first
    simp only [List.cons_append, Module.nestedNamedWith, hrow]
    refine Reaches.bind (Yields.lift hname)
      (Reaches.bind (Yields.lift hspace) ?_)
    simp only [if_neg (show ¬ qualified name.1 name.2
      = qualified called.1 called.2 from different)]
    exact ih others

include found in
/-- The first definition nested in another that has the qualified name is found
by it. -/
theorem Ty.reaches_nestedTypeWith {outer : Token} {enclosing : Ty}
    (declares : m.Declares outer enclosing)
    (nests : m.image.NestsFirst SameQualified outer called token) :
    Reaches registry (fun l => enclosing.nestedTypeWith (resolve l)
      (qualified called.1 called.2))
      (.ok (some t)) := by
  obtain ⟨row, hrow, rfl⟩ := declares
  cases nests with
  | intro listed passed names same =>
    obtain ⟨heap, hheap⟩ : ∃ heap, m.image.stringHeap = .ok heap := by
      obtain ⟨_, _, _, hname⟩ := names
      exact Image.stringHeap_of_string hname
    refine Reaches.bind (yields_reachModule sound hm)
      (Reaches.bind (Yields.lift hheap) ?_)
    -- The rows inside are those of the token of the definition.
    have own : (m.definitionOfRow row).token = outer :=
      (sound.proper.rows m hm).typeDef hrow
    simp only [own, listed]
    exact Module.reaches_nestedNamedWith found passed names same

end

/-- With enough steps, a chain of references is followed to the definition to
which its path leads by qualified names.  The induction is on the chain. -/
theorem Module.SpellsPath.reaches {path : List TypeName} {target : Module}
    {found : Token} (spells : m.SpellsPath registry.modules path token target)
    (leads : target.Leads SameQualified path found)
    (declares : target.Declares found t) (large : Tendsto room atTop atTop) :
    Reaches registry (fun l => Module.typeWithin (room l) m token)
      (.ok (some t)) := by
  induction spells generalizing found t room with
  | @assembly token row called assembly target refers isIn hassembly
    hname htarget =>
    refine Module.reaches_typeWithin sound hm refers.notNull
      (fun room large => ?_) large
    simp only [Module.typeWith, Token.kind?_of_isIn refers.isIn,
      Module.referencedTypeWith,
      refers.isRow, Token.kind?_of_isIn isIn, hassembly]
    refine Reaches.bind (Yields.lift refers.name)
      (Reaches.bind (Yields.lift refers.namespaceName) ?_)
    refine Reaches.bind (Yields.lift hname)
      (Reaches.bind (yields_requireTypeSystem sound) ?_)
    refine .read_bind ?_
    have there (l : Nat) :
        (registry.withPatience l).module? target.name = some target :=
      sound.proper.module?_eq_some htarget
    simp only [there]
    cases leads with
    | outermost first =>
      refine Module.reaches_typeNamedWith ?_ first rfl
      exact Module.reaches_typeWithin_of_declares sound htarget declares large
    | nested none => cases none
  | @module token row called refers isIn =>
    refine Module.reaches_typeWithin sound hm refers.notNull
      (fun room large => ?_) large
    simp only [Module.typeWith, Token.kind?_of_isIn refers.isIn,
      Module.referencedTypeWith, refers.isRow, Token.kind?_of_isIn isIn]
    refine Reaches.bind (Yields.lift refers.name)
      (Reaches.bind (Yields.lift refers.namespaceName) ?_)
    cases leads with
    | outermost first =>
      refine Module.reaches_typeNamedWith ?_ first rfl
      exact Module.reaches_typeWithin_of_declares sound hm declares large
    | nested none => cases none
  | @nested token row called path target refers isIn spells ih =>
    refine Module.reaches_typeWithin sound hm refers.notNull
      (fun room large => ?_) large
    simp only [Module.typeWith, Token.kind?_of_isIn refers.isIn,
      Module.referencedTypeWith, refers.isRow, Token.kind?_of_isIn isIn]
    refine Reaches.bind (Yields.lift refers.name)
      (Reaches.bind (Yields.lift refers.namespaceName) ?_)
    cases leads with
    | outermost => cases spells
    | @nested _ outer _ _ around nests =>
      obtain ⟨enclosing, encloses⟩ := around.exists_declares
      have htarget := spells.mem hm
      refine Reaches.bind (ih around encloses large) ?_
      refine Ty.reaches_nestedTypeWith sound htarget ?_ encloses nests
      exact Module.reaches_typeWithin_of_declares sound htarget declares large

/-- With enough patience, a chain of references means the definition to which
its path leads by qualified names. -/
theorem Module.SpellsPath.yields {path : List TypeName} {target : Module}
    {found : Token} (spells : m.SpellsPath registry.modules path token target)
    (leads : target.Leads SameQualified path found)
    (declares : target.Declares found t) :
    (m.type token).Yields registry (some t) :=
  Reaches.read_bind
    (spells.reaches sound hm leads declares registry.tendsto_referenceBound)

end

/-- A definition is declared by one token. -/
theorem Registry.IsProper.eq_of_declares_definition {registry : Registry}
    (proper : registry.IsProper) {m : Module} (hm : m ∈ registry.modules)
    {token other : Token} {t : Ty} (h : m.Declares token t)
    (h' : m.Declares other t) : token = other := by
  obtain ⟨row, hrow, rfl⟩ := h
  obtain ⟨row', hrow', same⟩ := h'
  have tokens :
      (m.definitionOfRow row).token = (m.definitionOfRow row').token := by
    injection same with same
    rw [same]
  have own : (m.definitionOfRow row).token = token :=
    (proper.rows m hm).typeDef hrow
  have own' : (m.definitionOfRow row').token = other :=
    (proper.rows m hm).typeDef hrow'
  rw [← own, tokens, own']

/-! ### Sessions -/

namespace Session

variable {s : Session} {options : Options} {m target : Module}
  {path : List TypeName} {token : Token}

/-- Whatever a careful caller asked before, a chain of references leads to the
definition to which its path leads by qualified names. -/
theorem IsCareful.finds_spelled (h : s.IsCareful options)
    (hm : m ∈ s.system.registry.modules)
    (spells : m.SpellsPath s.system.registry.modules path token target)
    {found : Token} {t : Ty} (leads : target.Leads SameQualified path found)
    (declares : target.Declares found t) :
    ∀ᶠ patience in atTop,
      ((s.system.withPatience patience).ask (m.type token)).1 = .ok (some t) :=
  h.answers_of_yields
    (spells.yields h.isReachable.isSound hm leads declares)

/-- Where no name in the module has a dot in it, a chain of references leads to
the definition that has its path. -/
theorem IsCareful.finds_undotted (h : s.IsCareful options)
    (hm : m ∈ s.system.registry.modules)
    (spells : m.SpellsPath s.system.registry.modules path token target)
    {found : Token} {t : Ty} (leads : target.Leads Eq path found)
    (declares : target.Declares found t)
    (undotted : ∀ token called, target.image.IsCalled token called →
      IsUndotted called) :
    ∀ᶠ patience in atTop,
      ((s.system.withPatience patience).ask (m.type token)).1 = .ok (some t) :=
  h.finds_spelled hm spells (leads.qualified_of_undotted undotted) declares

/-- A chain of references whose last name is that of the first definition nested
in some other leads to this definition if and only if none in front of it has
the same qualified name. -/
theorem IsCareful.finds_nested_iff (h : s.IsCareful options)
    (hm : m ∈ s.system.registry.modules) {called : TypeName}
    (spells : m.SpellsPath s.system.registry.modules
      (called :: path) token target)
    {outer nested : Token} (leads : target.Leads SameQualified path outer)
    {before after : List Token}
    (listed : target.image.nestedIn outer = before ++ nested :: after)
    (passed : ∀ other ∈ before, ∃ name, target.image.IsCalled other name ∧
      name ≠ called)
    (names : target.image.IsCalled nested called) {t : Ty}
    (declares : target.Declares nested t) :
    (∀ᶠ patience in atTop,
      ((s.system.withPatience patience).ask (m.type token)).1 = .ok (some t)) ↔
      ∀ other ∈ before, ∀ name, target.image.IsCalled other name →
      ¬ SameQualified name called := by
  constructor
  · intro finds other hother name hname same
    -- The first definition in front with this qualified name is found as well.
    obtain ⟨first, hfirst, nests⟩ := Image.NestsFirst.of_mem listed
      (fun other hother => (passed other hother).imp fun _ => And.left)
      ⟨other, hother, name, hname, same⟩
    have around := Module.Leads.nested leads nests
    obtain ⟨u, hu⟩ := around.exists_declares
    obtain ⟨patience, found, found'⟩ :=
      (finds.and (h.finds_spelled hm spells around hu)).exists
    obtain rfl := Option.some.inj (Except.ok.inj (found.symm.trans found'))
    -- But the two have different tokens.
    have proper := h.isReachable.isSound.proper
    obtain rfl := proper.eq_of_declares_definition (spells.mem hm) declares hu
    obtain ⟨own, hown, different⟩ := passed nested hfirst
    exact different (hown.eq names)
  · intro different
    have nests : target.image.NestsFirst SameQualified outer called nested :=
      .intro listed (fun other hother => (passed other hother).imp
        fun name hname =>
        ⟨hname.1, different other hother name hname.1⟩) names rfl
    exact h.finds_spelled hm spells (.nested leads nests) declares

end Session

end CliMetadata
