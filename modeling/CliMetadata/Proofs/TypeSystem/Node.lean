import CliMetadata.Proofs.Table.Steps
import Mathlib.Data.List.Pairwise

/-!
# Types as nodes

A type carries the columns of the rows it was made from.  What identifies it is
less: the module and token of a definition or parameter, and how it is built
from other types (`Ty.form`).  A *node* is a type that says what its modules
say, that is built as the constructors allow, and that was shared, as were the
types in it (`Ty.IsNode`).  Nodes of one form are equal
(`Ty.IsNode.eq_of_form_eq`): there is one node for each form.
-/

namespace CliMetadata

/-! ### What identifies a type -/

/-- What a type is, apart from the columns of rows. -/
inductive Form where
  | definition (module : String) (token : Token)
  | applied (module : String) (token : Token) (arguments : List Form)
  | parameter (module : String) (token : Token)
  | var (index : UInt32) (isMethod : Bool)
  | shaped (shape : Shape) (element : Form)

mutual

/-- The form of a type. -/
@[simp]
def Ty.form : Ty → Form
  | .definition d => .definition d.module d.token
  | .applied d arguments => .applied d.module d.token (Ty.forms arguments)
  | .parameter p => .parameter p.module p.token
  | .var index isMethod => .var index isMethod
  | .shaped shape element => .shaped shape element.form

/-- The forms of several types. -/
@[simp]
def Ty.forms : List Ty → List Form
  | [] => []
  | t :: rest => t.form :: Ty.forms rest

end

/-! ### What modules say -/

/-- The modules have different names, and their rows are found under their own
tokens. -/
structure Registry.IsProper (registry : Registry) : Prop where
  rows : ∀ m ∈ registry.modules, m.image.FindsOwnRows
  names : registry.modules.Pairwise fun m n => m.name ≠ n.name

namespace Registry

theorem mem_of_module? {registry : Registry} {name : String} {m : Module}
    (h : registry.module? name = some m) :
    m ∈ registry.modules ∧ m.name = name :=
  ⟨List.mem_of_find?_eq_some h, by simpa using List.find?_some h⟩

/-- Modules of one name are one module. -/
theorem IsProper.eq_of_name_eq {registry : Registry} (h : registry.IsProper)
    {m n : Module} (hm : m ∈ registry.modules) (hn : n ∈ registry.modules)
    (same : m.name = n.name) : m = n := by
  by_contra different
  have : Std.Symm fun m n : Module => m.name ≠ n.name := ⟨fun _ _ => Ne.symm⟩
  exact h.names.forall hm hn different same

/-- A module is found by its name. -/
theorem IsProper.module?_eq_some {registry : Registry}
    (proper : registry.IsProper) {m : Module} (hm : m ∈ registry.modules) :
    registry.module? m.name = some m := by
  cases found : registry.module? m.name with
  | none => simpa using List.find?_eq_none.mp found m hm
  | some n =>
    obtain ⟨hn, same⟩ := mem_of_module? found
    rw [proper.eq_of_name_eq hn hm same]

@[simp]
theorem reaches_of_live {registry : Registry} (live : registry.held = none)
    (name : String) :
    registry.reaches name = true := by
  rw [reaches, live]

end Registry

/-- The definition is what a row of one of the modules says. -/
def TypeDefinition.IsDeclared (d : TypeDefinition) (modules : List Module) :
    Prop :=
  ∃ m ∈ modules, ∃ row, m.image.typeDef? d.token = some row ∧
  m.definitionOfRow row = d

/-- The parameter is what a row of one of the modules says. -/
def GenericParameter.IsDeclared (p : GenericParameter) (modules : List Module) :
    Prop :=
  ∃ m ∈ modules, ∃ row, m.image.genericParam? p.token = some row ∧
  m.parameterOfRow row = p

/-- The number of generic parameters that a module declares for a definition. -/
def TypeDefinition.HasArity (d : TypeDefinition) (modules : List Module)
    (arity : Nat) : Prop :=
  ∃ m ∈ modules, m.name = d.module ∧
  (m.image.genericParamsOf d.token).length = arity

/-- The definition has that many generic parameters, and each of them has a
row. -/
def TypeDefinition.HasParameters (d : TypeDefinition) (modules : List Module)
    (count : Nat) : Prop :=
  ∃ m ∈ modules, m.name = d.module ∧
    (m.image.genericParamsOf d.token).length = count ∧
      ∀ token ∈ m.image.genericParamsOf d.token,
        (m.image.genericParam? token).isSome

theorem TypeDefinition.HasParameters.hasArity {d : TypeDefinition}
    {modules : List Module} {count : Nat} (h : d.HasParameters modules count) :
    d.HasArity modules count := by
  obtain ⟨m, hm, named, length, -⟩ := h
  exact ⟨m, hm, named, length⟩

/-- Arrays have at least one dimension, and at most as many as are allowed. -/
def Shape.IsAllowed : Shape → Prop
  | .array rank => 1 ≤ rank ∧ rank ≤ maxRank
  | _ => True

/-! ### Nodes -/

/-- A type that says what its modules say and is built as is allowed, all parts
of which are among the shared ones. -/
inductive Ty.IsNode (modules : List Module) (shared : Ty → Prop) :
    Ty → Prop where
  | definition {d : TypeDefinition} : d.IsDeclared modules →
      shared (.definition d) →
      IsNode modules shared (.definition d)
  | applied {d : TypeDefinition} {arguments : List Ty} :
      IsNode modules shared (.definition d) →
      (∀ t ∈ arguments, IsNode modules shared t) → 1 ≤ arguments.length →
      d.HasParameters modules arguments.length → shared (.applied d arguments) →
      IsNode modules shared (.applied d arguments)
  | parameter {p : GenericParameter} : p.IsDeclared modules →
      shared (.parameter p) →
      IsNode modules shared (.parameter p)
  | var {index : UInt32} {isMethod : Bool} : shared (.var index isMethod) →
      IsNode modules shared (.var index isMethod)
  | shaped {shape : Shape} {element : Ty} : IsNode modules shared element →
      shape.IsAllowed →
      shared (.shaped shape element) →
      IsNode modules shared (.shaped shape element)

namespace Ty

variable {modules modules' : List Module} {shared shared' : Ty → Prop} {t : Ty}

theorem IsNode.isShared (h : t.IsNode modules shared) : shared t := by
  cases h
  all_goals assumption

/-- The types that a node is built from are shared. -/
theorem IsNode.shared_of_mem_components {u : Ty}
    (h : t.IsNode modules shared) (hu : u ∈ t.components) : shared u := by
  cases h with
  | applied definition arguments =>
    rcases List.mem_cons.mp hu with rfl | hu
    exacts [definition.isShared, (arguments u hu).isShared]
  | shaped element =>
    obtain rfl := List.mem_singleton.mp hu
    exact element.isShared
  | definition | parameter | var => cases hu

/-- Nodes stay nodes when modules are added and types are shared. -/
theorem IsNode.mono (h : t.IsNode modules shared)
    (more : ∀ m ∈ modules, m ∈ modules') (le : ∀ t, shared t → shared' t) :
    t.IsNode modules' shared' := by
  induction h with
  | definition declared hshared =>
    obtain ⟨m, hm, row⟩ := declared
    exact .definition ⟨m, more m hm, row⟩ (le _ hshared)
  | applied _ _ positive parameters hshared ih ihs =>
    obtain ⟨m, hm, rows⟩ := parameters
    exact .applied ih ihs positive ⟨m, more m hm, rows⟩ (le _ hshared)
  | parameter declared hshared =>
    obtain ⟨m, hm, row⟩ := declared
    exact .parameter ⟨m, more m hm, row⟩ (le _ hshared)
  | var hshared => exact .var (le _ hshared)
  | shaped _ allowed hshared ih => exact .shaped ih allowed (le _ hshared)

/-- As long as the modules stay, sharing more types keeps nodes. -/
theorem IsNode.le (h : t.IsNode modules shared)
    (le : ∀ t, shared t → shared' t) :
    t.IsNode modules shared' :=
  h.mono (fun _ => id) le

end Ty

/-- A definition is determined by its module and token. -/
theorem TypeDefinition.IsDeclared.eq {registry : Registry}
    (proper : registry.IsProper) {d e : TypeDefinition}
    (hd : d.IsDeclared registry.modules) (he : e.IsDeclared registry.modules)
    (module : d.module = e.module) (token : d.token = e.token) : d = e := by
  obtain ⟨m, hm, row, hrow, rfl⟩ := hd
  obtain ⟨n, hn, row', hrow', rfl⟩ := he
  obtain rfl := proper.eq_of_name_eq hm hn module
  rw [token, hrow', Option.some.injEq] at hrow
  rw [hrow]

/-- A parameter is determined by its module and token. -/
theorem GenericParameter.IsDeclared.eq {registry : Registry}
    (proper : registry.IsProper) {p q : GenericParameter}
    (hp : p.IsDeclared registry.modules) (hq : q.IsDeclared registry.modules)
    (module : p.module = q.module) (token : p.token = q.token) : p = q := by
  obtain ⟨m, hm, row, hrow, rfl⟩ := hp
  obtain ⟨n, hn, row', hrow', rfl⟩ := hq
  obtain rfl := proper.eq_of_name_eq hm hn module
  rw [token, hrow', Option.some.injEq] at hrow
  rw [hrow]

/-! ### One node for each form -/

section
variable {registry : Registry} {shared : Ty → Prop}

mutual

/-- Nodes of one form are equal. -/
theorem Ty.IsNode.eq_of_form_eq (proper : registry.IsProper) : (t u : Ty) →
    t.IsNode registry.modules shared → u.IsNode registry.modules shared →
      t.form = u.form → t = u
  -- A definition is told by its module and its token.
  | .definition d, .definition e, .definition hd _, .definition he _, same => by
    rw [form, form, Form.definition.injEq] at same
    rw [hd.eq proper he same.1 same.2]
  | .applied d ts, .applied e us, .applied hd hts _ _ _,
    .applied he hus _ _ _, same => by
    rw [form, form, Form.applied.injEq] at same
    cases hd with | definition hd _ =>
    cases he with | definition he _ =>
    rw [hd.eq proper he same.1 same.2.1,
      Ty.IsNode.eq_of_forms_eq proper ts us hts hus same.2.2]
  | .parameter p, .parameter q, .parameter hp _, .parameter hq _, same => by
    rw [form, form, Form.parameter.injEq] at same
    rw [hp.eq proper hq same.1 same.2]
  -- A variable is all form.
  | .var .., .var .., _, _, same => by
    rw [form, form, Form.var.injEq] at same
    rw [same.1, same.2]
  | .shaped a t, .shaped b u, .shaped ht _ _, .shaped hu _ _, same => by
    rw [form, form, Form.shaped.injEq] at same
    rw [same.1, Ty.IsNode.eq_of_form_eq proper t u ht hu same.2]

/-- Nodes of the same forms are equal one by one. -/
theorem Ty.IsNode.eq_of_forms_eq (proper : registry.IsProper) :
    (ts us : List Ty) →
    (∀ t ∈ ts, t.IsNode registry.modules shared) →
    (∀ u ∈ us, u.IsNode registry.modules shared) →
      Ty.forms ts = Ty.forms us → ts = us
  | [], [], _, _, _ => rfl
  | t :: ts, u :: us, hts, hus, same => by
    rw [forms, forms, List.cons.injEq] at same
    rw [Ty.IsNode.eq_of_form_eq proper t u (hts t List.mem_cons_self)
        (hus u List.mem_cons_self) same.1, Ty.IsNode.eq_of_forms_eq proper ts us
        (fun t h => hts t (List.mem_cons_of_mem _ h))
        (fun u h => hus u (List.mem_cons_of_mem _ h)) same.2]
  | [], _ :: _, _, _, same => by simp [forms] at same
  | _ :: _, [], _, _, same => by simp [forms] at same

end

end

/-! ### Parts of nodes -/

theorem Ty.mem_parts (t : Ty) : t ∈ t.parts := by
  cases t with
  | _ =>
    rw [parts]
    exact List.mem_cons_self

section
variable {modules : List Module} {shared : Ty → Prop}

mutual

/-- The types that a node is built from are nodes. -/
theorem Ty.IsNode.of_mem_parts : (t : Ty) → t.IsNode modules shared →
    ∀ u ∈ t.parts, u.IsNode modules shared
  | .definition d, h => by
    rw [parts]
    exact List.forall_mem_singleton.mpr h
  | .applied d ts, .applied hd hts positive parameters hshared => by
    rw [parts]
    exact List.forall_mem_cons.mpr ⟨.applied hd hts positive parameters hshared,
      List.forall_mem_cons.mpr ⟨hd, Ty.IsNode.of_mem_partsOfEach ts hts⟩⟩
  -- These have no parts but themselves.
  | .parameter p, h => by
    rw [parts]
    exact List.forall_mem_singleton.mpr h
  | .var .., h => by
    rw [parts]
    exact List.forall_mem_singleton.mpr h
  | .shaped shape element, .shaped helement allowed hshared => by
    rw [parts]
    exact List.forall_mem_cons.mpr ⟨.shaped helement allowed hshared,
      Ty.IsNode.of_mem_parts element helement⟩

/-- The types that nodes are built from are nodes. -/
theorem Ty.IsNode.of_mem_partsOfEach :
    (ts : List Ty) → (∀ t ∈ ts, t.IsNode modules shared) →
    ∀ u ∈ Ty.partsOfEach ts, u.IsNode modules shared
  | [], _ => by
    rw [partsOfEach]
    exact nofun
  | t :: ts, h => by
    rw [partsOfEach]
    exact List.forall_mem_append.mpr
      ⟨Ty.IsNode.of_mem_parts t (h t List.mem_cons_self),
      Ty.IsNode.of_mem_partsOfEach ts fun u hu => h u
        (List.mem_cons_of_mem t hu)⟩

end

end

end CliMetadata
