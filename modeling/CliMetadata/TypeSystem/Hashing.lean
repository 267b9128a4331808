import CliMetadata.NameHash
import CliMetadata.TypeSystem.Resolution

/-!
# Hashes of types

The hash of a type follows its full name and structure: a definition is hashed
by its name in its namespace or in the type around it, a parameter by its name,
and a type built from others by the hashes of these.  A hash that is not zero is
kept once it is known: a definition whose enclosing type cannot be found yet is
hashed as if there were none, and stays with that hash.
-/

namespace CliMetadata

mutual

/-- The hash of a type, given those of definitions. -/
def Ty.hashFrom (hashOf : TypeDefinition → Query UInt32) : Ty → Query UInt32
  | .definition d => hashOf d
  | .applied d arguments => remembered (.applied d arguments) do
      let definition ← hashOf d
      return NameHash.generic definition (← Ty.hashesFrom hashOf arguments)
  | .parameter p =>
    remembered (.parameter p) do return NameHash.ofName (← p.simpleName)
  | .var index isMethod => return NameHash.signatureVariable index isMethod
  | .shaped shape element => remembered (.shaped shape element) do
      let hash ← Ty.hashFrom hashOf element
      match shape with
      | .vector => return NameHash.array hash none
      | .array rank => return NameHash.array hash (some rank)
      | .byRef => return NameHash.byRef hash
      | .pointer => return NameHash.pointer hash
where
  /-- Establishes a hash, unless it is zero. -/
  remembered (t : Ty) (query : Query UInt32) : Query UInt32 :=
    Query.rememberIf (.ofType t .hash) (· ≠ 0) query

/-- The hashes of several types. -/
def Ty.hashesFrom (hashOf : TypeDefinition → Query UInt32) :
    List Ty → Query (List UInt32)
  | [] => return []
  | t :: rest => do
      let hash ← Ty.hashFrom hashOf t
      return hash :: (← Ty.hashesFrom hashOf rest)

end

/-- The hash of a name in its namespace. -/
def NameHash.ofQualified (namespaceText name : String) : UInt32 :=
  let hash := NameHash.start namespaceText
  let hash := if namespaceText.isEmpty then hash else hash.append "."
  (hash.append name).finish

/-- The hash of a definition, given those of the definitions around it. -/
def TypeDefinition.hashWith (hashOf : TypeDefinition → Query UInt32)
    (d : TypeDefinition) :
    Query UInt32 := do
  let name ← d.simpleName
  match ← d.containing with
  | some outer =>
      let enclosing ← outer.hashFrom hashOf
      return NameHash.nested enclosing (NameHash.ofName name)
  | none => return NameHash.ofQualified (← d.namespaceText) name

/-- The hash of a definition that at most `room` types are around. -/
def TypeDefinition.hashWithin : (room : Nat) → TypeDefinition → Query UInt32
  | 0, d => throw (.circular d.module d.token)
  | room + 1, d => Query.rememberIf (.ofType (.definition d) .hash) (· ≠ 0)
      (d.hashWith (TypeDefinition.hashWithin room))

/-- The hash of a type. -/
def Ty.hash (t : Ty) : Query UInt32 := do
  t.hashFrom (TypeDefinition.hashWithin (← read).nestingBound)

end CliMetadata
