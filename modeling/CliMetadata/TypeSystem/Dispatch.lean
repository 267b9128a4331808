import CliMetadata.TypeSystem.Signatures

/-!
# Finding methods

A method of a type is found by its name and, if one is given, its signature.  A
virtual call is dispatched along the bases of the instance's type: the
declaration itself ends the search, and so does a virtual method with its name
and signature that takes over a slot; a method that opens a slot of its own is
passed by.  The finalizer is what a call of the root's `Finalize` is dispatched
to.
-/

namespace CliMetadata

namespace Ty

/-- The first method of a name whose signature, with type variables replaced,
relates to the wanted one as asked.  Without a wanted signature, the name is
enough. -/
def findMethod (t : Ty) (name : String) (wanted : Option MethodSignature)
    (substitution : List Ty)
    (relates : MethodSignature → MethodSignature → Bool) :
    Query (Option Method) := do
  (← t.methods (.named name)).find fun method => do
    let some wanted := wanted | return true
    let candidate ← (← method.signature).substituted substitution
    return relates wanted candidate

/-- The first method of a name with exactly the wanted signature. -/
def method (t : Ty) (name : String) (wanted : Option MethodSignature)
    (substitution : List Ty) :
    Query (Option Method) :=
  t.findMethod name wanted substitution fun a b => a = b

/-- The first method of a name with a signature that is equivalent to the wanted
one. -/
def equivalentMethod (t : Ty) (name : String) (wanted : Option MethodSignature)
    (substitution : List Ty) : Query (Option Method) :=
  t.findMethod name wanted substitution MethodSignature.isEquivalent

/-! ### Constructors -/

/-- The method that sets the type up. -/
def staticConstructor (t : Ty) : Query (Option Method) := do
  (← t.methods (.named ".cctor")).find fun method =>
    return method.flags.isRuntimeSpecial

/-- Whether a method can make an instance without being told anything. -/
def isDefaultConstructor (method : Method) : Query Bool := do
  if ¬ method.flags.isRuntimeSpecial ∨ ¬ method.flags.isPublic then return false
  let signature ← method.signature
  return signature.parameters.isEmpty ∧ ¬ signature.flags.isVararg

/-- The public constructor without parameters; abstract types have none. -/
def defaultConstructor (t : Ty) : Query (Option Method) := do
  if t.flags.isAbstract then return none
  (← t.methods (.named ".ctor")).find isDefaultConstructor

/-! ### Virtual dispatch -/

/-- Whether a virtual call of a declaration ends at a method. -/
def answersCall (declaration : Method) (signature : MethodSignature)
    (method : Method) :
    Query Bool := do
  if method = declaration then return true
  if ¬ method.flags.isVirtual ∨ method.flags.isNewSlot then return false
  return (← method.signature) = signature

/-- The method that a virtual call of a declaration reaches on instances of a
type. -/
def dispatch (t : Ty) (declaration : Method) : Query (Option Method) := do
  let name ← declaration.name
  let signature ← declaration.signature
  requireTypeSystem
  alongBases (fun candidate => do
    (← candidate.methods (.named name)).find
      (answersCall declaration signature)) t

/-- The name of the method that runs before an instance is given up. -/
def finalizerName : String := "Finalize"

/-- The method that runs before an instance is given up, unless it is the root's
own, which does nothing.  A type without a base has none. -/
def finalizer (t : Ty) : Query (Option Method) := do
  unless ← t.hasBase do return none
  requireTypeSystem
  let root ← wellKnown .object
  let some declaration ← root.method finalizerName none [] | return none
  let some target ← t.dispatch declaration | throw (.typeLoad
      (← t.subject) .unrooted)
  if target.owner = root then return none
  return some target

end Ty

end CliMetadata
