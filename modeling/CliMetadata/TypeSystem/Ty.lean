import CliMetadata.Table.Row

/-!
# Types

A `Ty` is a resolved type: a definition of some module, a generic definition
applied to arguments, a generic parameter, a variable that stands for a
parameter until arguments are known, or an array, reference or pointer over
another type.  Definitions and parameters carry the columns of their rows, so a
type says by itself where it comes from and two types are the same exactly when
they are equal.
-/

namespace CliMetadata

/-- A type declared by a module, with the columns that its answers depend on. -/
structure TypeDefinition where
  /-- The assembly name of the declaring module. -/
  module : String
  token : Token
  flags : TypeFlags
  name : UInt32
  namespaceName : UInt32
  /-- The base type; the null token where there is none. -/
  base : Token
deriving DecidableEq, Hashable, Repr

/-- A generic parameter of a type or method. -/
structure GenericParameter where
  /-- The assembly name of the declaring module. -/
  module : String
  token : Token
  owner : Token
  position : UInt32
  flags : GenericParamFlags
  name : UInt32
deriving DecidableEq, Hashable, Repr

/-- Whether the parameter belongs to a method; it belongs to a type
otherwise. -/
def GenericParameter.isOfMethod (p : GenericParameter) :
    Bool := p.owner.isIn .methodDef

/-- What is built over another type. -/
inductive Shape where
  /-- An array of one dimension that starts at zero. -/
  | vector
  /-- An array of any number of dimensions, one included. -/
  | array (rank : UInt32)
  | byRef
  | pointer
deriving DecidableEq, Hashable, Repr

namespace Shape

/-- What a shape appends to the name of the type it is built over. -/
def suffix : Shape → String
  | vector => "[]"
  | array rank =>
      if rank = 1 then "[*]"
      else "[" ++ String.ofList (List.replicate (rank.toNat - 1) ',') ++ "]"
  | byRef => "&"
  | pointer => "*"

/-- The number of dimensions of an array. -/
def rank? : Shape → Option UInt32
  | vector => some 1
  | array rank => some rank
  | byRef | pointer => none

/-- Whether the shape is an array of either sort. -/
def isArray : Shape → Bool
  | vector | array _ => true
  | byRef | pointer => false

end Shape

/-- A resolved type. -/
inductive Ty where
  | definition (definition : TypeDefinition)
  /-- A generic definition with an argument for each of its parameters. -/
  | applied (definition : TypeDefinition) (arguments : List Ty)
  | parameter (parameter : GenericParameter)
  /-- The parameter of that number of whatever type or method the signature is
  seen from. -/
  | var (index : UInt32) (isMethod : Bool)
  | shaped (shape : Shape) (element : Ty)
deriving Repr

instance : Inhabited Ty := ⟨.var 0 false⟩

/-! ### Types are equal exactly when they look equal

Types are built from types, over and over from the same ones, so that a type may
be written out only at a length that doubles with each level.  A comparison
therefore stops where both sides are one object, and a hash follows two paths to
the innermost types instead of looking at all of them. -/

mutual

/-- Decides whether two types are equal. -/
def Ty.decideEq (s t : Ty) : Decidable (s = t) :=
  withPtrEqDecEq s t fun _ =>
    match s, t with
    | .definition d, .definition e => decidable_of_iff (d = e) (by simp)
    | .applied d ss, .applied e ts =>
        haveI := Ty.decideEqEach ss ts
        decidable_of_iff (d = e ∧ ss = ts) (by simp)
    | .parameter p, .parameter q => decidable_of_iff (p = q) (by simp)
    | .var i a, .var j b => decidable_of_iff (i = j ∧ a = b) (by simp)
    | .shaped a s, .shaped b t =>
        haveI := Ty.decideEq s t
        decidable_of_iff (a = b ∧ s = t) (by simp)
    | .definition _, .applied .. | .definition _,
      .parameter _ | .definition _, .var ..
    | .definition _, .shaped .. | .applied .., .definition _ | .applied ..,
      .parameter _
    | .applied .., .var .. | .applied .., .shaped .. | .parameter _,
      .definition _
    | .parameter _, .applied .. | .parameter _,
      .var .. | .parameter _, .shaped ..
    | .var .., .definition _ | .var .., .applied .. | .var .., .parameter _
    | .var .., .shaped .. | .shaped .., .definition _ | .shaped .., .applied ..
    | .shaped .., .parameter _ | .shaped .., .var .. =>
      isFalse (by intro h; cases h)

/-- Decides whether two lists of types are equal. -/
def Ty.decideEqEach (ss ts : List Ty) : Decidable (ss = ts) :=
  withPtrEqDecEq ss ts fun _ =>
    match ss, ts with
    | [], [] => isTrue rfl
    | s :: ss, t :: ts =>
        haveI := Ty.decideEq s t
        haveI := Ty.decideEqEach ss ts
        decidable_of_iff (s = t ∧ ss = ts) (by simp)
    | [], _ :: _ | _ :: _, [] => isFalse (by intro h; cases h)

end

instance : DecidableEq Ty := Ty.decideEq

/-- A hash of what a type is built with, whatever it is built from. -/
def Ty.headHash : Ty → UInt64
  | .definition d => mixHash 1 (hash d.token)
  | .applied d arguments => mixHash (hash d.token) (hash arguments.length)
  | .parameter p => mixHash 3 (hash p.token)
  | .var index isMethod => mixHash (hash index) (hash isMethod)
  | .shaped shape _ => hash shape

mutual

/-- A hash of a type that follows first arguments and elements. -/
def Ty.firstHash : Ty → UInt64
  | .applied d arguments => mixHash (hash d.token) (Ty.firstHashOf arguments)
  | .shaped shape element => mixHash (hash shape) element.firstHash
  | t => t.headHash

/-- A hash of several types that follows the first. -/
def Ty.firstHashOf : List Ty → UInt64
  | [] => 5
  | t :: rest =>
    rest.foldl (fun h other => mixHash h other.headHash) t.firstHash

end

mutual

/-- A hash of a type that follows last arguments and elements. -/
def Ty.lastHash : Ty → UInt64
  | .applied d arguments => mixHash (hash d.token) (Ty.lastHashOf arguments)
  | .shaped shape element => mixHash (hash shape) element.lastHash
  | t => t.headHash

/-- A hash of several types that follows the last. -/
def Ty.lastHashOf : List Ty → UInt64
  | [] => 7
  | [t] => t.lastHash
  | _ :: t :: rest => Ty.lastHashOf (t :: rest)

end

instance : Hashable Ty := ⟨fun t => mixHash t.firstHash t.lastHash⟩

namespace Ty

/-- The definition behind a definition or an application of it. -/
@[simp]
def definition? : Ty → Option TypeDefinition
  | .definition d | .applied d _ => some d
  | _ => none

/-- Whether the type can be the base of another: only definitions and their
applications can. -/
def canBeBase (t : Ty) : Bool := t.definition?.isSome

/-- The shape and what it is built over. -/
def shape? : Ty → Option Shape
  | .shaped shape _ => some shape
  | _ => none

/-- Whether the type is an array of either sort. -/
def isArray (t : Ty) : Bool := t.shape?.any Shape.isArray

/-- How a variable is written: `!n`, or `!!n` for those of methods. -/
def variableText (index : UInt32) (isMethod : Bool) : String :=
  (if isMethod then "!!" else "!") ++ toString index.toNat

/-- The flags of the definition behind the type, and no flags where there is
none. -/
def flags (t : Ty) : TypeFlags := (t.definition?.map (·.flags)).getD ⟨0⟩

/-- Whether the type holds the global members of its module. -/
def isModuleType : Ty → Bool
  | .definition d => d.token == Token.ofParts .typeDef 1
  | _ => false

/-- How the type's methods pass strings to native code. -/
def stringFormat? (t : Ty) :
    Option StringFormat := t.definition?.map (·.flags.stringFormat)

end Ty

end CliMetadata
