import CliMetadata.Proofs.TypeSystem.Transfer.Questions

/-!
# Starting a type system

A start looks for the well-known types in the system module, and fixes the
categories of those that it finds, even if it fails at a later one.  What it
finds is what the system module declares (`Module.DeclaresWellKnown`), and so
are the categories that it fixes, the first for each type (`Module.Fixes`).
Therefore all ways to get ready with the same modules lead to the same
well-known types and categories (`Registry.IsStarted.leadsTo`).
-/

namespace CliMetadata

open Filter Query

/-! ### What the system module declares -/

theorem Image.isIn_of_nameEntry? {image : Image} {row : UInt32}
    {name : TypeName} {token : Token}
    (h : image.nameEntry? row = .ok (some (name, token))) :
    token.isIn .typeDef := by
  rw [Image.nameEntry?.eq_def] at h
  cases htype : image.typeDef? (Token.ofParts .typeDef row) with
  | none =>
    simp only [htype] at h
    cases h
  | some type =>
    simp only [htype] at h
    -- A type in another one has no entry.
    by_cases nested : type.flags.isNested = true
    · simp only [nested, if_true] at h
      cases h
    · simp only [nested] at h
      cases hspace : image.string type.namespaceName with
      | error error =>
        simp only [hspace] at h
        cases h
      | ok space =>
        cases hname : image.string type.name with
        | error error =>
          simp only [hspace, hname] at h
          cases h
        | ok text =>
          simp only [hspace, hname] at h
          cases h
          exact Token.isIn_ofParts .typeDef row

/-- The types that a module finds by name are its own. -/
theorem Image.isIn_of_nameEntries {image : Image} {row count : Nat}
    {entries : List (TypeName × Token)}
    (h : image.nameEntries row count = .ok entries) :
    ∀ entry ∈ entries, entry.2.isIn .typeDef := by
  induction count generalizing row entries with
  | zero =>
    cases h
    exact nofun
  | succ count ih =>
    cases hentry : image.nameEntry? (UInt32.ofNat row) with
    | error error =>
      rw [Image.nameEntries, hentry] at h
      cases h
    | ok entry =>
      cases hrest : image.nameEntries (row + 1) count with
      | error error =>
        rw [Image.nameEntries, hentry, hrest] at h
        cases h
      | ok rest =>
        rw [Image.nameEntries, hentry, hrest] at h
        cases h
        -- The entry of the row comes first, then those of the rows behind it.
        refine List.forall_mem_append.mpr ⟨fun found hfound => ?_, ih hrest⟩
        rw [Option.mem_toList.mp hfound] at hentry
        exact Image.isIn_of_nameEntry? hentry

namespace Module

variable {m : Module} {kind : WellKnown} {t u : Ty} {kinds : List WellKnown}
  {a b : Category}

/-- The type that a module declares for a kind. -/
def DeclaresWellKnown (m : Module) (kind : WellKnown) (t : Ty) : Prop :=
  ∃ index token, m.index = .ok index ∧
    index.lookup (WellKnown.home, kind.typeName) = some token ∧
    m.Declares token t

/-- A module declares one type for a kind. -/
theorem DeclaresWellKnown.eq (ht : m.DeclaresWellKnown kind t)
    (hu : m.DeclaresWellKnown kind u) :
    t = u := by
  obtain ⟨index, token, hindex, htoken, row, hrow, rfl⟩ := ht
  obtain ⟨index', token', hindex', htoken', row', hrow', rfl⟩ := hu
  obtain rfl := Except.ok.inj (hindex.symm.trans hindex')
  obtain rfl := Option.some.inj (htoken.symm.trans htoken')
  obtain rfl := Option.some.inj (hrow.symm.trans hrow')
  rfl

theorem isIn_of_lookup {index : List (TypeName × Token)} {name : TypeName}
    {token : Token} (hindex : m.index = .ok index)
    (htoken : index.lookup name = some token) :
    token.isIn .typeDef := by
  rw [m.index_eq, Image.nameIndex] at hindex
  cases heap : m.image.stringHeap with
  | error error =>
    rw [heap] at hindex
    cases hindex
  | ok strings =>
    rw [heap] at hindex
    obtain ⟨before, after, rfl, -⟩ := List.lookup_eq_some_iff.mp htoken
    exact Image.isIn_of_nameEntries hindex (name, token) (by simp)

/-- The category that a type has by being the first of some kinds that fix
one. -/
inductive FixesAmong (m : Module) (t : Ty) :
    List WellKnown → Category → Prop where
  | head {kind : WellKnown} {rest : List WellKnown} {category : Category} :
      m.DeclaresWellKnown kind t → kind.fixedCategory? = some category →
      FixesAmong m t (kind :: rest) category
  | tail {kind : WellKnown} {rest : List WellKnown} {category : Category} :
      ¬ (m.DeclaresWellKnown kind t ∧ kind.fixedCategory?.isSome) →
      FixesAmong m t rest category →
      FixesAmong m t (kind :: rest) category

/-- The category that a type has by being well known. -/
def Fixes (m : Module) (t : Ty) (category : Category) : Prop :=
  m.FixesAmong t WellKnown.all category

/-- A type has one category by being well known. -/
theorem FixesAmong.eq (ha : m.FixesAmong t kinds a)
    (hb : m.FixesAmong t kinds b) : a = b := by
  induction ha with
  | head declared fixed =>
    cases hb with
    | head _ fixed' => exact Option.some.inj (fixed.symm.trans fixed')
    | tail other => exact absurd ⟨declared, by rw [fixed]; rfl⟩ other
  | tail other _ ih =>
    cases hb with
    | head declared fixed => exact absurd ⟨declared, by rw [fixed]; rfl⟩ other
    | tail _ hb => exact ih hb

/-- There is at most one list of types for a list of kinds. -/
theorem eq_of_declaresEach {ts us : List Ty}
    (ht : List.Forall₂ m.DeclaresWellKnown kinds ts)
    (hu : List.Forall₂ m.DeclaresWellKnown kinds us) : ts = us := by
  induction ht generalizing us with
  | nil =>
    cases hu
    rfl
  | cons first _ ih =>
    cases hu with
    | cons first' rest' => rw [first.eq first', ih rest']

end Module

/-! ### Looking for well-known types -/

section
variable {registry : Registry} {memory : Memory} {m : Module} {kind : WellKnown}

/-- A live registry leads to itself. -/
theorem Registry.LeadsTo.rfl {gap : Gap} (live : registry.held = none) :
    registry.LeadsTo gap registry where
  options := Eq.refl _
  modules _ := id
  sameModules _ _ := id
  live _ := live
  wellKnown _ := id
  sameWellKnown _ := Eq.refl _
  fixed _ _ := id
  sameFixed _ h _ := h

/-- A registry leads to one with more modules that, unless it is ready, has more
fixed categories and may be ready. -/
theorem Registry.LeadsTo.grow {before after : Registry}
    (live : before.held = none) (options : after.options = before.options)
    (modules : ∀ m ∈ before.modules, m ∈ after.modules)
    {fixed : List (Ty × Category)}
    (more : after.fixedCategories = before.fixedCategories ++ fixed)
    (ready : before.wellKnown.isSome → after.wellKnown = before.wellKnown ∧
      after.fixedCategories = before.fixedCategories) :
    before.LeadsTo .growth after where
  options := options
  modules := modules
  sameModules h := absurd (Eq.refl _) h
  live _ := live
  -- A type system that is ready is not made ready again.
  wellKnown types known := by
    rw [(ready (by rw [known]; exact Eq.refl _)).1, known]
  sameWellKnown h := absurd (Eq.refl _) h
  -- Categories are only fixed behind those that are fixed.
  fixed t category known := by
    rw [more, List.lookup_append, known]
    exact Eq.refl _
  sameFixed t unknown isReady := by
    rw [(ready (isReady (Eq.refl _))).2, unknown]

theorem transfers_declaredWellKnown {gap : Gap} {before after : Registry}
    (hm : m ∈ after.modules) (kind : WellKnown) :
    (TypeSystem.declaredWellKnown m kind).Transfers gap before after always
      fun _ => TypeSystem.declaredWellKnown m kind :=
  (Module.transfers_typeNamed hm _ _).bind_required (fun t => .pure t)
    (.throw _) (.throw _)

/-- What is found for a kind is what the module declares. -/
theorem tells_declaredWellKnown {gap : Gap} {before after : Registry}
    (hm : m ∈ after.modules) (kind : WellKnown) :
    (TypeSystem.declaredWellKnown m kind).Tells gap before after
      (m.DeclaresWellKnown kind) := by
  have named : (m.typeNamed WellKnown.home kind.typeName).Tells gap before after
      fun found => ∀ t ∈ found, m.DeclaresWellKnown kind t := by
    intro leads sound memory settled found answer t ht
    obtain ⟨index, memory', run, answer⟩ := bind_eq_ok.mp answer
    cases hindex : m.index with
    | error error =>
      rw [hindex] at run
      cases run
    | ok entries =>
      rw [hindex] at run
      cases run
      -- The names are those of definitions, so that what the token leads to is
      -- declared.
      cases htoken : index.lookup (WellKnown.home, kind.typeName) with
      | none =>
        rw [htoken] at answer
        cases answer
        cases ht
      | some token =>
        rw [htoken] at answer
        have isIn := Module.isIn_of_lookup hindex htoken
        exact ⟨index, token, hindex, htoken,
          Module.tells_type_declares isIn hm leads sound memory settled found
            answer t ht⟩
  refine (Module.transfers_typeNamed hm _ _).tells_bind named
    fun found declares => ?_
  cases found with
  | some t => exact .pure (declares t (Eq.refl _))
  | none => exact (Fails.throw _).tells

/-- The token of a declared type leads to it, if it leads anywhere. -/
theorem Module.tells_type_of_declares {gap : Gap} {before after : Registry}
    (hm : m ∈ after.modules) {token : Token} {t : Ty} (h : m.Declares token t) :
    (m.type token).Tells gap before after (· = some t) := by
  intro leads sound memory settled found answer
  obtain ⟨row, hrow, rfl⟩ := h
  obtain ⟨isIn, hnull⟩ := (sound.proper.rows m hm).isTypeDef hrow
  have there := Module.tells_type_of_isIn isIn hnull leads sound memory settled
    found answer
  obtain ⟨u, rfl⟩ := Option.isSome_iff_exists.mp there
  have told := Module.tells_type_declares isIn hm leads sound memory settled _
    answer u (Eq.refl _)
  obtain ⟨row', hrow', rfl⟩ := told
  rw [hrow, Option.some.injEq] at hrow'
  rw [hrow']

/-- The type that a token declares is found, whatever is remembered. -/
theorem Module.type_eq_ok_of_declares (sound : registry.IsSound)
    (settled : memory.IsSettled registry) (hm : m ∈ registry.modules)
    {token : Token} {t : Ty} (h : m.Declares token t) :
    (m.type token registry memory).1 = .ok (some t) := by
  have declared := h
  obtain ⟨row, hrow, rfl⟩ := h
  obtain ⟨isIn, hnull⟩ := (sound.proper.rows m hm).isTypeDef hrow
  have leads : registry.LeadsTo .none registry := .rfl sound.live
  -- Whatever is found is what the token declares, so that it only has to be
  -- found.
  suffices found : ∃ found, (m.type token registry memory).1 = .ok found by
    obtain ⟨found, answer⟩ := found
    rw [answer, Module.tells_type_of_declares hm declared leads sound memory
      settled found answer]
  obtain ⟨room, run⟩ := m.type_apply token registry memory
  rw [run, Module.typeWithin_succ hnull]
  cases known : memory.facts.get? (.resolved m.name token) with
  | some value => exact ⟨value, by rw [rememberIf_apply_some known]⟩
  | none =>
    have leads := Module.typeWith_of_isIn (m := m) isIn
      (Module.typeWithin room) registry memory
    rw [Module.definition, hrow] at leads
    exact ⟨_, by rw [rememberIf_apply_ok known (Prod.ext leads (Eq.refl _))]⟩

/-- What the system module declares for a kind is found. -/
theorem declaredWellKnown_eq_ok (sound : registry.IsSound)
    (settled : memory.IsSettled registry) (hm : m ∈ registry.modules) {t : Ty}
    (h : m.DeclaresWellKnown kind t) :
    (TypeSystem.declaredWellKnown m kind registry memory).1 = .ok t := by
  obtain ⟨index, token, hindex, htoken, declared⟩ := h
  have found := Module.type_eq_ok_of_declares sound settled hm declared
  have named : m.typeNamed WellKnown.home kind.typeName registry memory
      = (.ok (some t), (m.type token registry memory).2) := by
    have run : (liftM m.index : Query (List (TypeName × Token))) registry memory
        = (.ok index, memory) := by
      rw [hindex]
      exact Eq.refl _
    refine (bind_apply_ok run).trans ?_
    rw [htoken]
    exact Prod.ext found (Eq.refl _)
  exact congrArg Prod.fst (bind_apply_ok named)

end

/-! ### Fixing categories -/

/-- What a type system has after looking for some kinds in a module. -/
structure TypeSystem.Finds (system : TypeSystem) (m : Module)
    (kinds : List WellKnown) (outcome : Except Error (List Ty))
    (later : TypeSystem) (fixed : List (Ty × Category)) :
    Prop where
  registry : later.registry = { system.registry with
    fixedCategories := system.registry.fixedCategories ++ fixed }
  settled : later.memory.IsSettled later.registry
  /-- What was fixed is declared, also where something was not found. -/
  fixes : ∀ t category, fixed.lookup t = some category →
    m.FixesAmong t kinds category
  /-- Where all was found, all that is declared was fixed. -/
  declared : ∀ types, outcome = .ok types →
    List.Forall₂ m.DeclaresWellKnown kinds types ∧
    ∀ t category, m.FixesAmong t kinds category → fixed.lookup t = some category
  /-- What is declared is found. -/
  found : (∀ kind ∈ kinds, ∃ t, m.DeclaresWellKnown kind t) → ∃ types,
    outcome = .ok types

section
variable {system : TypeSystem} {m : Module}

theorem Registry.IsSound.fix {registry : Registry} (sound : registry.IsSound)
    (fixedCategories : List (Ty × Category)) :
    Registry.IsSound { registry with fixedCategories } where
  proper := { sound.proper with }
  live := sound.live
  wellKnown := sound.wellKnown

/-- What is fixed for the type of a kind, and then for those of the others, is
fixed among all. -/
theorem Module.fixesAmong_cons {t : Ty} {kind : WellKnown}
    {kinds : List WellKnown} (declares : m.DeclaresWellKnown kind t) {u : Ty}
    {category : Category} :
    m.FixesAmong u (kind :: kinds) category ↔
      (u = t ∧ kind.fixedCategory? = some category) ∨
        ¬ (u = t ∧ kind.fixedCategory?.isSome) ∧
        m.FixesAmong u kinds category := by
  have same : m.DeclaresWellKnown kind u ↔ u = t :=
    ⟨fun h => h.eq declares, fun h => h ▸ declares⟩
  constructor
  · intro h
    cases h with
    | head declared fixed => exact .inl ⟨same.mp declared, fixed⟩
    | tail other h => exact .inr ⟨by rwa [same] at other, h⟩
  · rintro (⟨h, fixed⟩ | ⟨other, h⟩)
    · exact .head (same.mpr h) fixed
    · exact .tail (by rwa [same]) h

/-- What is found for the type of a kind, and then for those of the others. -/
theorem lookup_first_append {t u : Ty} {first : Option Category}
    {fixed : List (Ty × Category)} {category : Category} :
    ((first.map (t, ·)).toList ++ fixed).lookup u = some category ↔
      (u = t ∧ first = some category) ∨
        ¬ (u = t ∧ first.isSome) ∧ fixed.lookup u = some category := by
  cases first with
  | none => simp
  | some other =>
    by_cases same : u = t
    · simp [same]
    · have : (u == t) = false := beq_false_of_ne same
      simp [List.lookup_cons, this, same]

/-- The category that is fixed for the type of a kind. -/
theorem TypeSystem.fixCategory_eq (t : Ty) (kind : WellKnown) :
    system.fixCategory t kind =
      { system with registry := { system.registry with fixedCategories :=
        system.registry.fixedCategories ++
          (kind.fixedCategory?.map (t, ·)).toList } } := by
  rw [TypeSystem.fixCategory]
  cases kind.fixedCategory? with
  | none => simp
  | some category => exact Eq.refl _

/-- Nothing is looked for. -/
theorem TypeSystem.Finds.nil
    (settled : system.memory.IsSettled system.registry) :
    system.Finds m [] (.ok []) system [] where
  registry := by simp
  settled := settled
  fixes := nofun
  declared := by
    rintro _ ⟨⟩
    exact ⟨.nil, nofun⟩
  found := fun _ => ⟨[], Eq.refl _⟩

/-- A kind is looked for that the module does not declare; the kinds after it
are not looked for. -/
theorem TypeSystem.Finds.failed {kind : WellKnown} {rest : List WellKnown}
    {error : Error} {memory : Memory} (kept : memory.IsSettled system.registry)
    (missing : ¬ ∃ t, m.DeclaresWellKnown kind t) :
    system.Finds m (kind :: rest) (.error error) { system with memory } [] where
  registry := by simp
  settled := kept
  fixes := nofun
  declared := nofun
  found := fun declared => absurd (declared kind List.mem_cons_self) missing

/-- The type of a kind is found and its category fixed, and then those of the
others are looked for. -/
theorem TypeSystem.Finds.cons {kind : WellKnown} {rest : List WellKnown}
    {t : Ty} {memory : Memory} {outcome : Except Error (List Ty)}
    {later : TypeSystem} {fixed : List (Ty × Category)}
    (declares : m.DeclaresWellKnown kind t)
    (finds : Finds (fixCategory { system with memory } t kind) m rest outcome
      later fixed) :
    system.Finds m (kind :: rest) (outcome.map (t :: ·)) later
      ((kind.fixedCategory?.map (t, ·)).toList ++ fixed) where
  registry := by simp [finds.registry, TypeSystem.fixCategory_eq]
  settled := finds.settled
  -- The category of the first kind comes before those of the rest.
  fixes u category known := by
    rw [m.fixesAmong_cons declares]
    exact (lookup_first_append.mp known).imp_right
      (.imp_right (finds.fixes u category))
  -- All kinds are declared if the first is and the rest are.
  declared types answer := by
    cases outcome with
    | error error => cases answer
    | ok found =>
      cases answer
      obtain ⟨each, all⟩ := finds.declared found (Eq.refl _)
      refine ⟨.cons declares each, fun u category h => ?_⟩
      rw [m.fixesAmong_cons declares] at h
      exact lookup_first_append.mpr (h.imp_right (.imp_right (all u category)))
  found declared := by
    obtain ⟨types, others⟩ :=
      finds.found fun kind hkind => declared kind (List.mem_cons_of_mem _ hkind)
    exact ⟨t :: types, by rw [others]; exact Eq.refl _⟩

/-- A kind is looked for: either its type is found, or the module declares
none. -/
theorem TypeSystem.declaredWellKnown_cases (sound : system.registry.IsSound)
    (settled : system.memory.IsSettled system.registry)
    (hm : m ∈ system.registry.modules) (kind : WellKnown) :
    ∃ memory : Memory, memory.IsSettled system.registry ∧
      ((∃ error, system.ask (declaredWellKnown m kind)
        = (.error error, { system with memory }) ∧
          ¬ ∃ t, m.DeclaresWellKnown kind t) ∨
        ∃ t, system.ask (declaredWellKnown m kind)
          = (.ok t, { system with memory }) ∧
          m.DeclaresWellKnown kind t) := by
  have leads : system.registry.LeadsTo .none system.registry := .rfl sound.live
  have kept := (transfers_declaredWellKnown hm kind leads sound _ settled).1
  have told := tells_declaredWellKnown hm kind leads sound _ settled
  rw [TypeSystem.ask]
  rcases hrun : declaredWellKnown m kind system.registry system.memory
    with ⟨error | t, memory⟩
  · rw [hrun] at kept
    refine ⟨memory, kept, .inl ⟨error, Eq.refl _, ?_⟩⟩
    -- What is declared would have been found.
    rintro ⟨t, ht⟩
    have answer := declaredWellKnown_eq_ok sound settled hm ht
    rw [hrun] at answer
    cases answer
  · rw [hrun] at kept
    exact ⟨memory, kept, .inr ⟨t, Eq.refl _, told t (by rw [hrun])⟩⟩

theorem TypeSystem.isSound_fixCategory (sound : system.registry.IsSound)
    (t : Ty) (kind : WellKnown) :
    (system.fixCategory t kind).registry.IsSound := by
  rw [TypeSystem.fixCategory_eq]
  exact sound.fix _

/-- To fix a category lets the type system grow. -/
theorem TypeSystem.leadsTo_fixCategory (live : system.registry.held = none)
    (unready : system.registry.wellKnown = none) (t : Ty) (kind : WellKnown) :
    system.registry.LeadsTo .growth (system.fixCategory t kind).registry := by
  rw [TypeSystem.fixCategory_eq]
  exact .grow live (Eq.refl _) (fun _ => id) (Eq.refl _) (by simp [unready])

/-- What is settled stays so when a category is fixed. -/
theorem TypeSystem.settled_fixCategory (sound : system.registry.IsSound)
    (owns : system.registry.OwnsMembers)
    (settled : system.memory.IsSettled system.registry)
    (unready : system.registry.wellKnown = none) (t : Ty) (kind : WellKnown) :
    (system.fixCategory t kind).memory.IsSettled
      (system.fixCategory t kind).registry := by
  have grown := settled.grow (leadsTo_fixCategory sound.live unready t kind)
    (isSound_fixCategory sound t kind)
    (by rw [TypeSystem.fixCategory_eq]; exact owns)
  rw [TypeSystem.fixCategory_eq] at grown ⊢
  exact grown

/-- What looking for well-known types finds and fixes. -/
theorem TypeSystem.finds_findWellKnown (sound : system.registry.IsSound)
    (owns : system.registry.OwnsMembers)
    (settled : system.memory.IsSettled system.registry)
    (unready : system.registry.wellKnown = none)
    (hm : m ∈ system.registry.modules) (kinds : List WellKnown) :
    ∃ fixed, system.Finds m kinds (system.findWellKnown m kinds).1
      (system.findWellKnown m kinds).2 fixed := by
  induction kinds generalizing system with
  | nil => exact ⟨[], .nil settled⟩
  | cons kind rest ih =>
    rw [TypeSystem.findWellKnown]
    obtain ⟨memory, kept, ⟨error, asked, missing⟩ | ⟨t, asked, declares⟩⟩ :=
      declaredWellKnown_cases sound settled hm kind
    · -- The kind is missing, and the walk ends.
      rw [asked]
      exact ⟨[], .failed kept missing⟩
    · -- The kind is there, and the walk goes on once its category is fixed.
      rw [asked]
      have settled' := @settled_fixCategory { system with memory } sound owns
        kept unready t kind
      have sound' := @isSound_fixCategory { system with memory } sound t kind
      obtain ⟨fixed, finds⟩ :=
        ih sound' (by rw [TypeSystem.fixCategory_eq]; exact owns) settled'
          (by rw [TypeSystem.fixCategory_eq]; exact unready)
          (by rw [TypeSystem.fixCategory_eq]; exact hm)
      exact ⟨_, .cons declares finds⟩

end

/-! ### Getting ready -/

/-- The module that has to declare the well-known types. -/
def Registry.IsSystemModule (registry : Registry) (m : Module) : Prop :=
  m ∈ registry.modules ∧ m.name = registry.options.systemModule

/-- What a registry knows as well known is what its system module declares. -/
structure Registry.KnowsDeclared (registry : Registry) : Prop where
  fixed : ∀ t category, registry.fixedCategories.lookup t = some category →
    ∃ m, registry.IsSystemModule m ∧ m.Fixes t category
  wellKnown : ∀ types, registry.wellKnown = some types → ∃ m,
    registry.IsSystemModule m ∧
    List.Forall₂ m.DeclaresWellKnown WellKnown.all types ∧
      ∀ t category, m.Fixes t category →
      registry.fixedCategories.lookup t = some category

namespace Registry

variable {before after : Registry}

theorem IsSystemModule.eq {registry : Registry} (proper : registry.IsProper)
    {m n : Module} (hm : registry.IsSystemModule m)
    (hn : registry.IsSystemModule n) : m = n :=
  proper.eq_of_name_eq hm.1 hn.1 (hm.2.trans hn.2.symm)

/-- Two ready registries with the same options and modules know the same. -/
theorem KnowsDeclared.leadsTo (known : before.KnowsDeclared)
    (known' : after.KnowsDeclared) (proper : after.IsProper)
    (live : before.held = none) (options : after.options = before.options)
    (modules : ∀ m, m ∈ before.modules ↔ m ∈ after.modules)
    (ready : before.wellKnown.isSome) (ready' : after.wellKnown.isSome) :
    before.LeadsTo .none after := by
  obtain ⟨types, htypes⟩ := Option.isSome_iff_exists.mp ready
  obtain ⟨types', htypes'⟩ := Option.isSome_iff_exists.mp ready'
  obtain ⟨m, hm, declared, fixes⟩ := known.wellKnown types htypes
  obtain ⟨m', hm', declared', fixes'⟩ := known'.wellKnown types' htypes'
  have transfer {n : Module} (hn : before.IsSystemModule n) :
      after.IsSystemModule n :=
    ⟨(modules n).mp hn.1, by rw [options, hn.2]⟩
  -- The system module is one, and declares one type for each kind.
  obtain rfl := (transfer hm).eq proper hm'
  obtain rfl := Module.eq_of_declaresEach declared declared'
  have fixed (t : Ty) (category : Category) :
      before.fixedCategories.lookup t = some category ↔
      after.fixedCategories.lookup t = some category := by
    constructor
    · intro h
      obtain ⟨n, hn, h⟩ := known.fixed t category h
      obtain rfl := (transfer hn).eq proper hm'
      exact fixes' t category h
    · intro h
      obtain ⟨n, hn, h⟩ := known'.fixed t category h
      obtain rfl := hn.eq proper hm'
      exact fixes t category h
  exact {
    options
    modules := fun m => (modules m).mp
    sameModules := fun _ m => (modules m).mpr
    live := fun _ => live
    wellKnown := fun _ h => by rw [htypes', ← htypes, h]
    sameWellKnown := fun _ => by rw [htypes', htypes]
    fixed := fun t category => (fixed t category).mp
    sameFixed := fun t unknown _ => by
      refine Option.eq_none_iff_forall_ne_some.mpr fun category h => ?_
      rw [← fixed, unknown] at h
      cases h }

/-- A module that is added does not change what is known. -/
theorem KnowsDeclared.more (known : before.KnowsDeclared)
    (modules : List Module) :
    Registry.KnowsDeclared { before with modules := before.modules ++
      modules } where
  fixed t category h := by
    obtain ⟨m, hm, h⟩ := known.fixed t category h
    exact ⟨m, ⟨List.mem_append_left _ hm.1, hm.2⟩, h⟩
  wellKnown types h := by
    obtain ⟨m, hm, h⟩ := known.wellKnown types h
    exact ⟨m, ⟨List.mem_append_left _ hm.1, hm.2⟩, h⟩

end Registry

namespace TypeSystem

variable {system : TypeSystem} {m : Module} {outcome : Except Error (List Ty)}
  {later : TypeSystem} {fixed : List (Ty × Category)}

/-- What was found and fixed on the way, and maybe all that was found, may be
known. -/
theorem Finds.knowsDeclared
    (finds : system.Finds m WellKnown.all outcome later fixed)
    (known : system.registry.KnowsDeclared) (proper : system.registry.IsProper)
    (hm : system.registry.IsSystemModule m) {wellKnown : Option (List Ty)}
    (found : ∀ types, wellKnown = some types → outcome = .ok types) :
    Registry.KnowsDeclared { later.registry with wellKnown } := by
  rw [finds.registry]
  have fixes (t : Ty) (category : Category)
      (h : (system.registry.fixedCategories ++ fixed).lookup t
        = some category) :
      m.Fixes t category := by
    rw [List.lookup_append] at h
    rcases Option.or_eq_some_iff.mp h with h | ⟨-, h⟩
    · obtain ⟨n, hn, h⟩ := known.fixed t category h
      obtain rfl := hn.eq proper hm
      exact h
    · exact finds.fixes t category h
  constructor
  · exact fun t category h => ⟨m, hm, fixes t category h⟩
  · intro types h
    obtain ⟨declared, all⟩ := finds.declared types (found types h)
    refine ⟨m, hm, declared, fun t category h => ?_⟩
    -- An earlier attempt may have fixed the category, and then it is the same.
    cases earlier : (system.registry.fixedCategories ++ fixed).lookup t with
    | some other => exact congrArg some ((fixes t other earlier).eq h)
    | none =>
      rw [List.lookup_append, Option.or_eq_none_iff, all t category h]
        at earlier
      cases earlier.2

/-- A type system that is ready, or has no system module, stays as it is. -/
theorem start_eq_self (h : system.isReady = true ∨
    system.registry.module? system.registry.options.systemModule = none) :
    system.start.2 = system := by
  rw [start]
  rcases h with ready | missing
  · simp [ready]
  · split
    · rfl
    · dsimp only
      rw [missing]

/-- Where a type system gets ready, it knows the types that it has found. -/
theorem start_of_module? (unready : system.isReady = false)
    (hm : system.registry.module? system.registry.options.systemModule = some m)
    (unknown : (system.findWellKnown m WellKnown.all).2.registry.wellKnown
      = none) :
    ∃ wellKnown : Option (List Ty),
      (∀ types, wellKnown = some types →
        (system.findWellKnown m WellKnown.all).1 = .ok types) ∧
        system.start.2 = { (system.findWellKnown m WellKnown.all).2 with
          registry := { (system.findWellKnown m WellKnown.all).2.registry
            with wellKnown } } := by
  rw [start, unready, if_neg Bool.false_ne_true]
  dsimp only
  rw [hm]
  dsimp only
  -- The types are known only if all of them were found.
  cases hfound : system.findWellKnown m WellKnown.all with
  | mk outcome later =>
    rw [hfound] at unknown
    cases outcome with
    | error error =>
      refine ⟨none, fun _ same => absurd same (Option.some_ne_none _).symm, ?_⟩
      show later
          = { later with registry := { later.registry with wellKnown := none } }
      rw [← show later.registry.wellKnown = none from unknown]
    | ok types =>
      refine ⟨some types, ?_, rfl⟩
      rintro _ ⟨⟩
      rfl

/-- What adding a module makes of a type system. -/
theorem eq_of_addModule (added : system.addModule m = .ok later) :
    later = { system with registry := { system.registry with
      modules := system.registry.modules ++ [m] } } := by
  rw [addModule] at added
  split at added
  · cases added
  · exact (Except.ok.inj added).symm

/-- A module that is added lets the type system grow. -/
theorem leadsTo_addModule (live : system.registry.held = none)
    (added : system.addModule m = .ok later) :
    system.registry.LeadsTo .growth later.registry := by
  rw [eq_of_addModule added]
  exact .grow live rfl (fun _ => List.mem_append_left _)
    (List.append_nil _).symm
    fun _ => ⟨rfl, rfl⟩

end TypeSystem

end CliMetadata
