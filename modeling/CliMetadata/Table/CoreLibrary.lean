import CliMetadata.Table.Builder
import CliMetadata.Table.Marker

/-!
# A minimal core library

`ModuleBuilder.coreLibrary` starts a module from the types that every program
knows: the root of all classes with its methods, the bases of value types,
enumerations, delegates and attributes, the other well-known types, and the
attributes that mark types for the compiler.
-/

namespace CliMetadata.ModuleBuilder

/-- The flags and the base of a well-known type, given the types that can be
bases. -/
def wellKnownShape (object valueType delegate : Token) :
    WellKnown → TypeFlags × Token
  | .string | .exception => (⟨0x101⟩, object)
  | .array => (⟨0x81⟩, object)
  | .multicastDelegate => (⟨0x81⟩, delegate)
  | _ => (⟨0x109⟩, valueType)

/-- Adds a well-known type unless a type of its name is there. -/
def addWellKnown (object valueType delegate : Token) (kind : WellKnown) :
    Build Unit := do
  if ((← get).findTypeDef? WellKnown.home kind.typeName).isNone then
    let (flags, base) := wellKnownShape object valueType delegate kind
    let token ← typeDef WellKnown.home kind.typeName flags base
    if kind = .nullable then
      let _ ← genericParam token "T" ⟨0⟩

/-- Adds the content of the core library. -/
def addCoreTypes : Build Unit := do
  let home := WellKnown.home
  let object ← typeDef home "Object" ⟨0x1⟩ .null
  let valueType ← typeDef home "ValueType" ⟨0x81⟩ object
  let enumType ← typeDef home "Enum" ⟨0x81⟩ valueType
  let delegate ← typeDef home "Delegate" ⟨0x81⟩ object
  let attributeBase ← typeDef home "Attribute" ⟨0x81⟩ object
  WellKnown.all.forM (addWellKnown object valueType delegate)
  -- Constructors are public, hidden by signature, and of a name special to the
  -- runtime.
  let constructor : MethodFlags := ⟨0x1886⟩
  let void : TypeSig := .primitive .void
  let plain := MethodSig.instance_ void []
  let _ ← methodDef object ".ctor" constructor plain
  let _ ← methodDef object "ToString" ⟨0x1C6⟩
      (.instance_ (.primitive .string) [])
  let _ ← methodDef object "Finalize" ⟨0x1C4⟩ plain
  let _ ← methodDef attributeBase ".ctor" constructor plain
  let _ ← methodDef enumType ".ctor" constructor plain
  let marker : TypeFlags := ⟨0x100101⟩
  for name in ["IsByRefLikeAttribute", "IntrinsicAttribute"] do
    let token ← typeDef compilerServices name marker attributeBase
    let _ ← methodDef token ".ctor" constructor plain
  let inlineArray ← typeDef compilerServices inlineArrayAttribute marker
      attributeBase
  let _ ← methodDef inlineArray ".ctor"
      constructor (.instance_ void [.primitive .i4])
  let _ ← field inlineArray "<Length>k__BackingField" ⟨0x21⟩
      ⟨[], .primitive .i4⟩

/-- A core library of the given name. -/
def coreLibrary (assembly : String) : Except Error ModuleBuilder := do
  let (_, b) ← addCoreTypes.run (new assembly)
  return b

end CliMetadata.ModuleBuilder
