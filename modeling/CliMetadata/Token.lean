import CliMetadata.Text.Hexadecimal

/-!
# Metadata tokens

A token names a row of a module's metadata: its high byte selects a table and
its low 24 bits give the row number, counted from one.  Row zero of any table is
the null token.  Not every byte selects a table, so `Token.kind?` is partial,
while `Token.isIn` compares the byte itself.
-/

namespace CliMetadata

/-- The tables that tokens and coded indices of this library can name. -/
inductive TableKind where
  | module
  | typeRef
  | typeDef
  | field
  | methodDef
  | param
  | memberRef
  | customAttribute
  | classLayout
  | moduleRef
  | typeSpec
  | assembly
  | assemblyRef
  | nestedClass
  | genericParam
  | methodSpec
deriving DecidableEq, Repr

namespace TableKind

/-- Every table, in the order of their codes. -/
def all : List TableKind :=
  [module, typeRef, typeDef, field, methodDef, param, memberRef,
    customAttribute, classLayout,
    moduleRef, typeSpec, assembly, assemblyRef, nestedClass,
    genericParam, methodSpec]

/-- The byte that selects a table. -/
def code : TableKind → UInt8
  | module => 0x00
  | typeRef => 0x01
  | typeDef => 0x02
  | field => 0x04
  | methodDef => 0x06
  | param => 0x08
  | memberRef => 0x0A
  | customAttribute => 0x0C
  | classLayout => 0x0F
  | moduleRef => 0x1A
  | typeSpec => 0x1B
  | assembly => 0x20
  | assemblyRef => 0x23
  | nestedClass => 0x29
  | genericParam => 0x2A
  | methodSpec => 0x2B

/-- The table that a byte selects, if any. -/
def ofCode? (code : UInt8) :
    Option TableKind := all.find? fun kind => kind.code == code

/-- The name that the metadata standard gives to a table. -/
def name : TableKind → String
  | module => "Module"
  | typeRef => "TypeRef"
  | typeDef => "TypeDef"
  | field => "Field"
  | methodDef => "MethodDef"
  | param => "Param"
  | memberRef => "MemberRef"
  | customAttribute => "CustomAttribute"
  | classLayout => "ClassLayout"
  | moduleRef => "ModuleRef"
  | typeSpec => "TypeSpec"
  | assembly => "Assembly"
  | assemblyRef => "AssemblyRef"
  | nestedClass => "NestedClass"
  | genericParam => "GenericParam"
  | methodSpec => "MethodSpec"

end TableKind

/-- A reference to a row of a metadata table. -/
structure Token where
  /-- The table code in the high byte and the row number in the other three. -/
  value : UInt32
deriving DecidableEq, Hashable, Repr, Inhabited

namespace Token

/-- The token that names no row. -/
def null : Token := ⟨0⟩

/-- The token of a row; row numbers keep their low 24 bits. -/
def ofParts (kind : TableKind) (row : UInt32) : Token :=
  ⟨(kind.code.toUInt32 <<< 24) ||| (row &&& 0xFFFFFF)⟩

/-- The byte that selects the table. -/
def table (token : Token) : UInt8 := (token.value >>> 24).toUInt8

/-- The row number. -/
def row (token : Token) : UInt32 := token.value &&& 0xFFFFFF

/-- The table, if the high byte selects one. -/
def kind? (token : Token) : Option TableKind := TableKind.ofCode? token.table

/-- Whether the token names a row of the given table (or its row zero). -/
def isIn (token : Token) (kind : TableKind) : Bool := token.table == kind.code

/-- Whether the token names no row. -/
def isNull (token : Token) : Bool := token.row == 0

/-- How a token is written: `0x` and eight digits. -/
def text (token : Token) :
    String := "0x" ++ Hexadecimal.lower 8 token.value.toNat

/-- How a token is written where its parts are of interest. -/
def describe (token : Token) : String :=
  "Token(" ++ token.text ++ ", table: 0x" ++
    Hexadecimal.lower 2 token.table.toNat ++ ", row: "
    ++ toString token.row.toNat ++ ")"

end Token

namespace TableKind

@[simp]
theorem mem_all (kind : TableKind) : kind ∈ all := by cases kind <;> decide

/-- Distinct tables have distinct codes, so a code leads back to its table. -/
@[simp]
theorem ofCode?_code (kind : TableKind) : ofCode? kind.code = some kind := by
  cases kind <;> decide

theorem code_of_ofCode? {code : UInt8} {kind : TableKind}
    (h : ofCode? code = some kind) :
    kind.code = code := by
  have := List.find?_some h
  simpa using this

end TableKind

end CliMetadata
