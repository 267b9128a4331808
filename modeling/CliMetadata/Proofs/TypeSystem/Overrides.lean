import CliMetadata.Proofs.TypeSystem.Calls
import CliMetadata.Proofs.TypeSystem.Commutation

/-!
# Overrides on definitions and on their applications

The bases of a definition have its own parameters in place of its variables, and
those of an application have the arguments there
(`TypeDefinition.Ancestry.isSeen_own`,
`TypeDefinition.Ancestry.isSeen_through`).  So the methods of a base are seen
alike on both.  But the methods that the definition declares itself are seen
through the arguments on an application, while on the definition they are as
they are declared, with variables.

A call therefore ends on both at methods of one declaration where the arguments
tell signatures apart as the definition does
(`TypeDefinition.Ancestry.dispatch_applied`), as they do where signatures use no
variables.  Where the signature of a base's method tells a parameter of the
definition, a call on the definition passes all methods that the definition
declares (`TypeDefinition.Ancestry.dispatch_passes_own`), even those that take
over on applications (`TypeDefinition.Ancestry.IsSeen.dispatch_takes_over`).
-/

namespace CliMetadata

open Query

variable {registry : Registry} {d : TypeDefinition} {types : List Ty}

/-! ### Bases with variables in them -/

namespace Ty

/-- Where no type variable is used, none is replaced. -/
@[simp]
theorem replaced_of_usesBelow_zero {t : Ty} (h : t.UsesBelow 0) :
    t.replaced types [] = t := by
  calc
    t.replaced types [] = t.replaced [] [] :=
      replaced_congr t fun index hvar => absurd (h index hvar)
        (Nat.not_lt_zero _)
    _ = t := t.replaced_nil

/-- The type is a definition or an application of one, and what it derives from
uses no variables but those that there are arguments for. -/
def DerivesClosed (registry : Registry) : Ty → Prop
  | .definition e =>
    ∀ base, (Ty.definition e).base.Yields registry (some base) →
    base.UsesBelow 0
  | .applied e arguments =>
      ∀ base, e.openBase.Yields registry (some base) →
      base.UsesBelow arguments.length
  | _ => False

theorem DerivesClosed.definition?_replaced {t : Ty}
    (closed : t.DerivesClosed registry) :
    (t.replaced types []).definition? = t.definition? := by
  cases t with
  | definition e => simp
  | applied e arguments =>
    rw [Ty.replaced]
    rfl
  | _ => exact closed.elim

section
variable (sound : registry.IsSound)
  (htypes : AreNodes registry.modules (fun _ => True) types)
include sound htypes

/-- With variables replaced, a type derives from its base with variables
replaced. -/
theorem yields_base_replaced {t : Ty} {found : Option Ty}
    (ht : t.IsNode registry.modules fun _ => True)
    (closed : t.DerivesClosed registry)
    (yields : t.base.Yields registry found) :
    (t.replaced types []).base.Yields registry
      (found.map (Ty.replaced types [])) := by
  cases t with
  | definition e =>
    -- The base of a definition has no variables that could be replaced.
    have same : found.map (Ty.replaced types []) = found := by
      cases found with
      | none => rfl
      | some base =>
        exact congrArg some (replaced_of_usesBelow_zero (closed base yields))
    rw [same, Ty.replaced]
    exact yields
  | applied e arguments =>
    -- The base of an applied type is that of its definition, and changes with
    -- the arguments.
    have hchanged := AreNodes.replaced sound htypes ht.arguments
    obtain ⟨base, hbase, rfl⟩ := exists_yields_openBase sound
      ht.arguments yields
    have changed := yields_base_applied sound hchanged hbase
    rw [Ty.replaced, replacedEach_eq_map]
    cases base with
    | none => exact changed
    | some base =>
      rw [Option.map_some, Option.map_some, replaced_twice (closed base hbase)]
      exact changed
  | _ => exact closed.elim

/-- With variables replaced, a type has its bases with variables replaced. -/
theorem HasBases.replaced {t : Ty} {bases : List Ty}
    (h : t.HasBases registry bases)
    (ht : t.IsNode registry.modules fun _ => True)
    (closed : ∀ u ∈ t :: bases, u.DerivesClosed registry) :
    (t.replaced types []).HasBases registry
      (bases.map (Ty.replaced types [])) := by
  induction h with
  | root ends =>
    exact .root (yields_base_replaced sound htypes ht
      (closed _ List.mem_cons_self) ends)
  | derived derives _ ih =>
    obtain ⟨first, others⟩ := List.forall_mem_cons.mp closed
    have node := derives.areNodes sound fun l => Ty.gives_base ht
    exact .derived (yields_base_replaced sound htypes ht first derives)
      (ih node.head others)

end

end Ty

/-- A definition or one of its bases, as it is seen through arguments of the
definition. -/
def Ty.through (d : TypeDefinition) (arguments : List Ty) (u : Ty) : Ty :=
  if u = .definition d then .applied d arguments else u.replaced arguments []

/-- A signature in which no type variable is used stays as it is. -/
@[simp]
theorem MethodSignature.replaced_of_usesBelow_zero {signature : MethodSignature}
    (h : ∀ t ∈ signature.types, t.UsesBelow 0) :
    signature.replaced types = signature := by
  calc
    signature.replaced types = signature.replaced [] := by
      refine replaced_congr fun t ht => ?_
      simp [Ty.replaced_of_usesBelow_zero (h t ht)]
    _ = signature := signature.replaced_nil

/-! ### Methods as they are seen -/

/-- What is told of a method that a definition declares, as it is seen on the
definition or on an application of it. -/
def MethodEntry.seenOn : Ty → MethodEntry → MethodEntry
  | .applied e arguments, entry => entry.viewedOn e arguments
  | _, entry => entry

namespace MethodEntry

variable (u : Ty) (entry : MethodEntry)

@[simp]
theorem seenOn_name : (entry.seenOn u).name = entry.name := by
  cases u <;> rfl

@[simp]
theorem seenOn_declaration :
    (entry.seenOn u).method.declaration = entry.method.declaration := by
  cases u <;> rfl

@[simp]
theorem seenOn_flags : (entry.seenOn u).method.flags = entry.method.flags := by
  cases u <;> rfl

/-- A signature without variables is the same everywhere. -/
@[simp]
theorem seenOn_signature {entry : MethodEntry}
    (closed : ∀ t ∈ entry.signature.types, t.UsesBelow 0) :
    (entry.seenOn u).signature = entry.signature := by
  cases u with
  | applied e arguments =>
    exact MethodSignature.replaced_of_usesBelow_zero closed
  | _ => rfl

/-- On one type, methods differ as their declarations do. -/
@[simp]
theorem seenOn_method_eq_iff {entry other : MethodEntry} :
    (entry.seenOn u).method = (other.seenOn u).method ↔
    entry.method = other.method := by
  cases u with
  | applied e arguments =>
    show Method.view _ _ = Method.view _ _ ↔ _
    simp
  | _ => exact Iff.rfl

end MethodEntry

theorem Ty.Lists.seenOn {u : Ty} {e : TypeDefinition}
    {entries : List MethodEntry}
    (lists : (Ty.definition e).Lists registry entries)
    (sound : registry.IsSound) (hu : u.definition? = some e)
    (node : u.IsNode registry.modules fun _ => True) :
    u.Lists registry (entries.map (MethodEntry.seenOn u)) := by
  -- A definition is seen as it is.
  cases u with
  | definition e' =>
    cases hu
    have same : MethodEntry.seenOn (.definition e) = id := rfl
    rw [same, List.map_id]
    exact lists
  | applied e' arguments =>
    -- On an applied type every row tells a view.
    cases hu
    cases lists with
    | without none => cases none
    | definition hd hm named hrow told =>
      cases hd
      refine .definition rfl hm named hrow (List.forall₂_map_right_iff.mpr ?_)
      exact told.imp fun token entry tells => tells.view sound node
  | _ => cases hu

/-- Calls on two types end at methods of one declaration, or both at none. -/
def Ty.DispatchAlike (registry : Registry) (t t' : Ty)
    (called called' : Method) : Prop :=
  ∃ found found' : Option Method, (t.dispatch called).Yields registry found ∧
    (t'.dispatch called').Yields registry found' ∧
    found.map Method.declaration = found'.map Method.declaration

/-! ### Ancestries -/

/-- The bases of a definition, up to its root, as the rows say them: with the
variables of the definition in them, unless the row only names the base. -/
inductive TypeDefinition.HasOpenBases (registry : Registry)
    (d : TypeDefinition) :
    List Ty → Prop where
  | root : d.openBase.Yields registry none → HasOpenBases registry d []
  | derived {base : Ty} {bases : List Ty} :
      d.openBase.Yields registry (some base) →
      (d.base.isIn .typeSpec = false → base.UsesBelow 0) →
      base.HasBases registry bases →
        HasOpenBases registry d (base :: bases)

/-- A definition with its bases, not too many, and what is told of the methods
that these declare. -/
structure TypeDefinition.Ancestry (registry : Registry)
    (d : TypeDefinition) where
  bases : List Ty
  entries : TypeDefinition → List MethodEntry
  hasBases : d.HasOpenBases registry bases
  closed : ∀ u ∈ bases, u.DerivesClosed registry
  fits : bases.length ≤ registry.options.maxInheritanceDepth
  lists : ∀ u ∈ .definition d :: bases, ∀ e ∈ u.definition?,
    (Ty.definition e).Lists registry (entries e)

namespace TypeDefinition.Ancestry

variable (line : d.Ancestry registry)

/-- The methods that the definition of a type declares. -/
def methodsOf (u : Ty) :
    List MethodEntry := (u.definition?.map line.entries).getD []

/-- The methods along the ancestry, from the definition up, with the types that
they are met on. -/
def methods : List (Ty × MethodEntry) :=
  (.definition d :: line.bases).flatMap fun u => (line.methodsOf u).map (u, ·)

/-- What is told of a method along the ancestry if types are seen in some
way. -/
def seen (see : Ty → Ty) (met : Ty × MethodEntry) :
    MethodEntry := met.2.seenOn (see met.1)

/-- A way to see the types of an ancestry: definitions stay what they are, and
bases stay bases. -/
structure IsSeen (see : Ty → Ty) : Prop where
  keeps : ∀ u ∈ .definition d :: line.bases, (see u).definition? = u.definition?
  isNode : (see (.definition d)).IsNode registry.modules fun _ => True
  hasBases : (see (.definition d)).HasBases registry (line.bases.map see)

variable {line} {see see' : Ty → Ty}

@[simp]
theorem mem_methods {met : Ty × MethodEntry} :
    met ∈ line.methods ↔ met.1 ∈ .definition d :: line.bases ∧
    met.2 ∈ line.methodsOf met.1 := by
  obtain ⟨u, entry⟩ := met
  simp only [methods, List.mem_flatMap, List.mem_map, Prod.mk.injEq]
  constructor
  · rintro ⟨_, hu, _, hentry, rfl, rfl⟩
    exact ⟨hu, hentry⟩
  · rintro ⟨hu, hentry⟩
    exact ⟨u, hu, entry, hentry, rfl, rfl⟩

section
variable (h : line.IsSeen see)
include h

/-- What the types list as they are seen. -/
theorem IsSeen.flatMap_methodsOf :
    (((.definition d :: line.bases).map see).flatMap fun u =>
      (line.methodsOf u).map (MethodEntry.seenOn u))
        = line.methods.map (seen see) := by
  rw [methods, List.map_flatMap, List.flatMap_map]
  refine List.flatMap_congr fun u hu => ?_
  rw [methodsOf, h.keeps u hu, List.map_map]
  rfl

theorem IsSeen.lists (sound : registry.IsSound) :
    ∀ u ∈ (.definition d :: line.bases).map see,
    u.Lists registry ((line.methodsOf u).map (MethodEntry.seenOn u)) := by
  intro w hw
  have node := h.hasBases.isNode sound h.isNode w hw
  obtain ⟨u, hu, rfl⟩ := List.mem_map.mp hw
  cases found : u.definition? with
  | none =>
    have without := (h.keeps u hu).trans found
    rw [methodsOf, without]
    exact .without without
  | some e =>
    have keeps := (h.keeps u hu).trans found
    rw [methodsOf, keeps]
    exact (line.lists u hu e found).seenOn sound keeps node

/-- A method along the ancestry is listed by the type that it is met on, as it
is seen. -/
theorem IsSeen.seen_mem {met : Ty × MethodEntry} (hmet : met ∈ line.methods) :
    see met.1 ∈ (.definition d :: line.bases).map see ∧
      seen see met ∈ (line.methodsOf (see met.1)).map
        (MethodEntry.seenOn (see met.1)) := by
  obtain ⟨hu, hentry⟩ := mem_methods.mp hmet
  refine ⟨List.mem_map_of_mem hu, ?_⟩
  rw [methodsOf, h.keeps _ hu]
  exact List.mem_map_of_mem hentry

/-- The definition is none of its bases. -/
theorem IsSeen.notMem_bases : .definition d ∉ line.bases := fun hd =>
  (List.nodup_cons.mp h.hasBases.nodup).1 (List.mem_map_of_mem hd)

/-- No two types of the ancestry are seen as one. -/
theorem IsSeen.inj {u v : Ty} (hu : u ∈ .definition d :: line.bases)
    (hv : v ∈ .definition d :: line.bases) (same : see u = see v) : u = v := by
  have distinct : ((.definition d :: line.bases).map see).Nodup :=
    h.hasBases.nodup
  exact List.inj_on_of_nodup_map distinct hu hv same

variable (sound : registry.IsSound)
include sound

/-- A method along the ancestry belongs to the type that it is met on, as it is
seen. -/
theorem IsSeen.owner_eq {met : Ty × MethodEntry} (hmet : met ∈ line.methods) :
    (seen see met).method.owner = see met.1 := by
  obtain ⟨hu, listed⟩ := h.seen_mem hmet
  obtain ⟨_, _, _, _, _, _, tells⟩ := (h.lists sound _ hu).tells listed
  exact tells.owner_eq

/-- A method is told apart from others by where it is met and by its
declaration. -/
theorem IsSeen.method_eq_iff {met other : Ty × MethodEntry}
    (hmet : met ∈ line.methods) (hother : other ∈ line.methods) :
    (seen see other).method = (seen see met).method
      ↔ other.1 = met.1 ∧ other.2.method = met.2.method := by
  constructor
  · intro same
    have owners := congrArg Method.owner same
    rw [h.owner_eq sound hother, h.owner_eq sound hmet] at owners
    have types := h.inj (mem_methods.mp hother).1 (mem_methods.mp hmet).1 owners
    refine ⟨types, ?_⟩
    rw [seen, seen, types] at same
    exact (MethodEntry.seenOn_method_eq_iff _).mp same
  · rintro ⟨types, declarations⟩
    rw [seen, seen, types]
    exact (MethodEntry.seenOn_method_eq_iff _).mpr declarations

/-- Where a call ends that is meant for a method along the ancestry. -/
theorem IsSeen.endsCall_iff {met other : Ty × MethodEntry}
    (hmet : met ∈ line.methods) (hother : other ∈ line.methods) :
    (seen see met).endsCall (seen see other) = true ↔
      (other.1 = met.1 ∧ other.2.method = met.2.method) ∨
        other.2.method.flags.isVirtual = true ∧ other.2.opens = false ∧
          (seen see other).signature = (seen see met).signature := by
  rw [MethodEntry.endsCall, decide_eq_true_iff,
    h.method_eq_iff sound hmet hother, Bool.not_eq_true]
  have flags : (seen see other).method.flags = other.2.method.flags :=
    MethodEntry.seenOn_flags _ other.2
  rw [MethodEntry.opens, MethodEntry.opens, flags]

/-- A call ends at the first method along the ancestry at which it ends as the
methods are seen. -/
theorem IsSeen.yields_dispatch (owns : registry.OwnsMembers)
    {met : Ty × MethodEntry} (hmet : met ∈ line.methods) :
    ((see (.definition d)).dispatch (seen see met).method).Yields registry
      ((line.methods.find? fun other => other.2.name = met.2.name &&
        (seen see met).endsCall (seen see other)).map
          fun other => (seen see other).method) := by
  have fits :
      (line.bases.map see).length ≤ registry.options.maxInheritanceDepth := by
    rw [List.length_map]
    exact line.fits
  obtain ⟨among, listed⟩ := h.seen_mem hmet
  have search := h.hasBases.yields_dispatch sound owns h.isNode fits
    (h.lists sound) among listed
  have searched := h.flatMap_methodsOf
  rw [List.map_cons] at searched
  rw [searched, List.find?_map, Option.map_map] at search
  simpa only [Function.comp_def, seen, MethodEntry.seenOn_name] using search

/-- A method that the definition declares takes over where it has the name and
the signature. -/
theorem IsSeen.dispatch_takes_over (owns : registry.OwnsMembers)
    {met : Ty × MethodEntry} (hmet : met ∈ line.methods) {entry : MethodEntry}
    (hentry : entry ∈ line.entries d) (name : entry.name = met.2.name)
    (isVirtual : entry.method.flags.isVirtual = true)
    (reuses : entry.opens = false)
    (signature :
      (seen see (.definition d, entry)).signature = (seen see met).signature) :
    ∃ found : Method,
      ((see (.definition d)).dispatch (seen see met).method).Yields registry
        (some found) ∧
      found.owner = see (.definition d) := by
  have dispatched := h.yields_dispatch sound owns hmet
  have declared : (.definition d, entry) ∈ line.methods :=
    mem_methods.mpr ⟨List.mem_cons_self, hentry⟩
  have ends := (h.endsCall_iff sound hmet declared).mpr
    (.inr ⟨isVirtual, reuses, signature⟩)
  -- The methods of the definition are the first that are searched.
  have own :
      (((line.methodsOf (.definition d)).map
        fun other => (Ty.definition d, other)).find?
      fun other => other.2.name = met.2.name &&
        (seen see met).endsCall (seen see other)).isSome = true :=
    List.find?_isSome.mpr ⟨_, List.mem_map_of_mem hentry, by simp [name, ends]⟩
  obtain ⟨other, found⟩ := Option.isSome_iff_exists.mp own
  rw [methods, List.flatMap_cons, List.find?_append, found] at dispatched
  refine ⟨_, dispatched, ?_⟩
  obtain ⟨_, hother, rfl⟩ := List.mem_map.mp (List.mem_of_find?_eq_some found)
  exact h.owner_eq sound (mem_methods.mpr ⟨List.mem_cons_self, hother⟩)

/-- A call ends at methods of one declaration where the signatures of methods of
its name are told apart alike. -/
theorem IsSeen.dispatch_alike (owns : registry.OwnsMembers)
    (h' : line.IsSeen see') {met : Ty × MethodEntry} (hmet : met ∈ line.methods)
    (alike : ∀ other ∈ line.methods, other.2.name = met.2.name →
      other.2.method.flags.isVirtual = true → other.2.opens = false →
      ((seen see other).signature = (seen see met).signature ↔
        (seen see' other).signature = (seen see' met).signature)) :
    Ty.DispatchAlike registry (see (.definition d)) (see' (.definition d))
      (seen see met).method
      (seen see' met).method := by
  refine ⟨_, _, h.yields_dispatch sound owns hmet,
    h'.yields_dispatch sound owns hmet, ?_⟩
  -- Both searches end at the same row.
  have same : (line.methods.find? fun other => other.2.name = met.2.name &&
      (seen see met).endsCall (seen see other))
        = line.methods.find? fun other =>
        other.2.name = met.2.name && (seen see' met).endsCall
          (seen see' other) := by
    refine List.find?_congr fun other hother => ?_
    by_cases name : other.2.name = met.2.name
    · congr 1
      rw [Bool.eq_iff_iff, h.endsCall_iff sound hmet hother,
        h'.endsCall_iff sound hmet hother]
      have signatures := alike other hother name
      tauto
    · rw [decide_eq_false name, Bool.false_and, Bool.false_and]
  rw [same, Option.map_map, Option.map_map]
  congr 1
  funext other
  simp [seen]

end

/-! ### A definition and its applications -/

section
variable {parameters arguments : List Ty}
  (own : d.parameters.Yields registry parameters) (sound : registry.IsSound)
include own sound

theorem areNodes_parameters :
    AreNodes registry.modules (fun _ => True) parameters :=
  own.areNodes sound fun _ => d.ensures_parameters.imp fun _ _ told => told.1

/-- Seen from the definition itself, variables are its parameters. -/
theorem isSeen_own (line : d.Ancestry registry)
    (node : (Ty.definition d).IsNode registry.modules fun _ => True) :
    line.IsSeen (Ty.replaced parameters []) := by
  have nodes := areNodes_parameters own sound
  -- A definition does not change with its parameters.
  have same : (Ty.definition d).replaced parameters [] = .definition d := by
    simp
  refine ⟨List.forall_mem_cons.mpr ⟨by rw [same], ?_⟩, by rwa [same], ?_⟩
  · intro u hu
    exact (line.closed u hu).definition?_replaced
  · rw [same]
    cases line with
    | mk bases _ hasBases closed =>
      -- There is no base to be seen.
      cases hasBases with
      | root ends =>
        exact .root (.remember (fun _ => rfl) trivial (ends.bind (.pure _)))
      | @derived base bases derives named rest =>
        -- The base is seen with the parameters of the definition in it.
        have told := derives.areNodes sound fun l => d.gives_openBase
        have derives' : (Ty.definition d).base.Yields registry
            (some (base.replaced parameters [])) := by
          refine .remember (fun _ => rfl) trivial
            (derives.bind (.ite (fun _ => ?_) fun other => ?_))
          · exact own.bind
              ((Ty.yields_substituted sound told.head nodes .nil).bind
                (.pure _))
          · rw [Ty.replaced_of_usesBelow_zero
              (named (Bool.eq_false_of_not_eq_true other))]
            exact .pure _
        exact .derived derives' (rest.replaced sound nodes told.head closed)

/-- Seen from an application, variables are the arguments. -/
theorem isSeen_through (line : d.Ancestry registry)
    (node : (Ty.applied d arguments).IsNode registry.modules fun _ => True) :
    line.IsSeen (Ty.through d arguments) := by
  cases node with
  | applied definition nodes positive parameters shared =>
    have alone := isSeen_own own sound line definition
    -- The definition is not among its bases, so that these are seen with
    -- arguments in them.
    have other : ∀ u ∈ line.bases,
        u.through d arguments = u.replaced arguments [] := by
      intro u hu
      refine if_neg ?_
      rintro rfl
      exact alone.notMem_bases hu
    have same : (Ty.definition d).through d arguments = .applied d arguments :=
      if_pos rfl
    refine ⟨List.forall_mem_cons.mpr ⟨by rw [same]; rfl, ?_⟩, ?_, ?_⟩
    · intro u hu
      rw [other u hu]
      exact (line.closed u hu).definition?_replaced
    · rw [same]
      exact .applied definition nodes positive parameters shared
    · rw [same, List.map_congr_left other]
      cases line with
      | mk bases _ hasBases closed =>
        cases hasBases with
        | root ends => exact .root (Ty.yields_base_applied sound nodes ends)
        | @derived base bases derives _ rest =>
          have told := derives.areNodes sound fun l => d.gives_openBase
          exact .derived (Ty.yields_base_applied sound nodes derives)
            (rest.replaced sound nodes told.head closed)

variable {met : Ty × MethodEntry}

/-- A call on a definition and a call on an application of it end at methods of
one declaration where the arguments tell the signatures of the name apart as the
definition itself does. -/
theorem dispatch_applied (owns : registry.OwnsMembers)
    {line : d.Ancestry registry} (hmet : met ∈ line.methods)
    (node : (Ty.applied d arguments).IsNode registry.modules fun _ => True)
    (alike : ∀ other ∈ line.methods, other.2.name = met.2.name →
      other.2.method.flags.isVirtual = true → other.2.opens = false →
      ((seen (Ty.replaced parameters []) other).signature
        = (seen (Ty.replaced parameters []) met).signature ↔
        (seen (Ty.through d arguments) other).signature
          = (seen (Ty.through d arguments) met).signature)) :
    Ty.DispatchAlike registry (.definition d) (.applied d arguments)
      (seen (Ty.replaced parameters []) met).method
        (seen (Ty.through d arguments) met).method := by
  -- Both see the same line, one through the parameters and one through the
  -- arguments.
  have through := isSeen_through own sound line node
  cases node with
  | applied definition =>
    have alone := isSeen_own own sound line definition
    have ends := alone.dispatch_alike sound owns through hmet alike
    have same : (Ty.definition d).through d arguments = .applied d arguments :=
      if_pos rfl
    rw [same, Ty.replaced] at ends
    exact ends

/-- Where signatures use no variables, a definition is as good as its
applications. -/
theorem dispatch_applied_of_closed (owns : registry.OwnsMembers)
    {line : d.Ancestry registry} (hmet : met ∈ line.methods)
    (node : (Ty.applied d arguments).IsNode registry.modules fun _ => True)
    (closed : ∀ other ∈ line.methods, other.2.name = met.2.name →
      ∀ t ∈ other.2.signature.types, t.UsesBelow 0) :
    Ty.DispatchAlike registry (.definition d) (.applied d arguments)
      (seen (Ty.replaced parameters []) met).method
        (seen (Ty.through d arguments) met).method := by
  refine dispatch_applied own sound owns hmet node
    fun other hother name _ _ => ?_
  have unchanged := fun u => MethodEntry.seenOn_signature u
    (closed other hother name)
  have unchanged' := fun u => MethodEntry.seenOn_signature u
    (closed met hmet rfl)
  simp only [seen, unchanged, unchanged']

/-- On a definition, none of its own methods is what a call of a method ends at
whose signature tells a parameter of the definition: their signatures have
variables where the other has parameters. -/
theorem dispatch_passes_own (owns : registry.OwnsMembers)
    {line : d.Ancestry registry} (hmet : met ∈ line.methods)
    (node : (Ty.definition d).IsNode registry.modules fun _ => True)
    (inherited : met.1 ∈ line.bases) {parameter : Ty}
    (told : parameter
      ∈ (seen (Ty.replaced parameters []) met).signature.types.flatMap Ty.parts)
    (untold : ∀ entry ∈ line.entries d,
      parameter ∉ entry.signature.types.flatMap Ty.parts) :
    ∃ found : Method,
      ((Ty.definition d).dispatch
        (seen (Ty.replaced parameters []) met).method).Yields registry
        (some found) ∧
      found.owner ≠ .definition d := by
  have h := isSeen_own own sound line node
  have same : (Ty.definition d).replaced parameters [] = .definition d := by
    simp
  have dispatched := h.yields_dispatch sound owns hmet
  rw [same] at dispatched
  cases search : line.methods.find? fun other => other.2.name = met.2.name &&
      (seen (Ty.replaced parameters []) met).endsCall
        (seen (Ty.replaced parameters []) other) with
  | none =>
    -- The method itself would be found.
    have missed := List.find?_eq_none.mp search met hmet
    simp [MethodEntry.endsCall] at missed
  | some other =>
    rw [search] at dispatched
    refine ⟨_, dispatched, fun owner => ?_⟩
    have hother := List.mem_of_find?_eq_some search
    have found := List.find?_some search
    obtain ⟨-, ends⟩ := Bool.and_eq_true_iff.mp found
    obtain ⟨among, declared⟩ := mem_methods.mp hother
    rw [h.owner_eq sound hother, ← same] at owner
    have here : other.1 = .definition d := h.inj among List.mem_cons_self owner
    rcases (h.endsCall_iff sound hmet hother).mp ends
      with ⟨types, -⟩ | ⟨-, -, signatures⟩
    · -- The method is declared by a base.
      rw [here] at types
      exact h.notMem_bases (types ▸ inherited)
    · -- On the definition, the signature of its own method is as it is declared.
      rw [← signatures, seen, here, same] at told
      rw [here] at declared
      exact untold other.2 declared told

end

end TypeDefinition.Ancestry

end CliMetadata
