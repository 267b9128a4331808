import CliMetadata.Text.Quoted
import CliMetadata.TypeSystem.Classification
import CliMetadata.TypeSystem.Description
import CliMetadata.TypeSystem.Entity
import CliMetadata.TypeSystem.Hashing

/-!
# The life of a type system

A `TypeSystem` is made with its options, is given modules, and is started once
the module that declares the well-known types is there; queries are asked of it
at any time.  When it is released, those who hold a module keep that module, and
whoever holds a type or member can still ask what was established before.
-/

namespace CliMetadata

/-- A type system. -/
structure TypeSystem where
  registry : Registry := {}
  memory : Memory := {}

namespace TypeSystem

/-- A type system without modules. -/
def new (options : Options) : TypeSystem := { registry := { options } }

/-- The answer to a query, and the type system with the traces that it
leaves. -/
def ask {α : Type} (system : TypeSystem) (query : Query α) :
    Except Error α × TypeSystem :=
  let (answer, memory) := query system.registry system.memory
  (answer, { system with memory })

/-- Registers a module, unless one of its name is there already. -/
def addModule (system : TypeSystem) (m : Module) : Except Error TypeSystem :=
  match system.registry.module? m.name with
  | some _ => .error (.duplicateModule m.name)
  | none =>
      let modules := system.registry.modules ++ [m]
      .ok { system with registry := { system.registry with modules } }

/-! ### Starting -/

/-- The type that the system module declares for a kind. -/
def declaredWellKnown (m : Module) (kind : WellKnown) : Query Ty := do
  match ← m.typeNamed WellKnown.home kind.typeName with
  | some t => return t
  | none => throw (.missingWellKnown kind)

/-- The type system in which the category of a well-known type is fixed, if it
has one by being well known. -/
def fixCategory (system : TypeSystem) (t : Ty) (kind : WellKnown) :
    TypeSystem :=
  match kind.fixedCategory? with
  | none => system
  | some category =>
      let fixedCategories := system.registry.fixedCategories ++ [(t, category)]
      { system with registry := { system.registry with fixedCategories } }

/-- Looks for well-known types one after the other.  The categories of those
found are fixed even if a later one is missing. -/
def findWellKnown (system : TypeSystem) (m : Module) :
    List WellKnown → Except Error (List Ty) × TypeSystem
  | [] => (.ok [], system)
  | kind :: rest =>
      match system.ask (declaredWellKnown m kind) with
      | (.error error, system) => (.error error, system)
      | (.ok t, system) =>
          let (found, system) :=
            (system.fixCategory t kind).findWellKnown m rest
          (found.map (t :: ·), system)

/-- Whether the type system knows the well-known types. -/
def isReady (system : TypeSystem) : Bool := system.registry.wellKnown.isSome

/-- Makes the type system ready, unless it is. -/
def start (system : TypeSystem) : Except Error Unit × TypeSystem :=
  if system.isReady then (.ok (), system)
  else
    let name := system.registry.options.systemModule
    match system.registry.module? name with
    | none => (.error (.missingModule name), system)
    | some m =>
        match system.findWellKnown m WellKnown.all with
        | (.error error, system) => (.error error, system)
        | (.ok types, system) =>
            (.ok (), { system with registry :=
              { system.registry with wellKnown := some types } })

/-! ### Release -/

/-- Releases the type system; only the given modules are still held. -/
def release (system : TypeSystem) (held : List String) : TypeSystem :=
  { system with registry := { system.registry with held := some held } }

/-! ### What a type system shows of itself -/

/-- The number of tokens of a module that are known to lead to types. -/
def resolvedCount (system : TypeSystem) (m : Module) : Nat :=
  system.memory.facts.keys.countP fun
    | .resolved name _ => name == m.name
    | _ => false

/-- A one-line description. -/
def describe (system : TypeSystem) : String :=
  describeRecord "TypeSystemContext"
    [("system_module", Quoted.encode system.registry.options.systemModule),
      ("modules", toString system.registry.modules.length),
      ("initialized", toString system.isReady)]

/-- A one-line description of a module. -/
def describeModule (system : TypeSystem) (m : Module) : String :=
  describeRecord "ModuleDesc"
    [("name", Quoted.encode m.name),
      ("types", toString (system.resolvedCount m))]

end TypeSystem

end CliMetadata
