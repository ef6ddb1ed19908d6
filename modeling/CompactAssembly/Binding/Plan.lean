import CompactAssembly.Bytes.Word
import CompactAssembly.Naming.MethodName

/-!
# Binding plans

A plan says for each type which of its methods are native and under which identifier each is bound.
Everything that the generator writes follows one plan. The slots of a plan are its methods in order,
each with its handler if it is native; the checksum covers them.
-/

namespace CompactAssembly

structure NativeMethod where
  identifier : String
  signature : MethodSignature
  deriving DecidableEq, Repr

structure MethodPlan where
  record : MethodDef
  native? : Option NativeMethod
  deriving DecidableEq, Repr

structure TypePlan where
  index : Nat
  record : TypeDef
  className : String
  methods : List MethodPlan
  deriving DecidableEq, Repr

namespace TypePlan

def eligible (plan : TypePlan) : Bool := plan.record.isEligible

def natives (plan : TypePlan) : List (MethodDef × NativeMethod) :=
  plan.methods.filterMap fun m => m.native?.map fun native => (m.record, native)

end TypePlan

namespace Image

/-- The native method of a record, if it is one, and the namer after it. -/
def planNative (image : Image) (policy : NamingPolicy) (eligible : Bool) (namer : Namer)
    (m : MethodDef) : Except Fault (Option NativeMethod × Namer) :=
  if eligible && m.isEligible then do
    let signature ← image.readSignature SignatureReader.method m.sig
    let base ← image.methodIdentifier policy m signature
    let (identifier, namer) := namer.next base
    return (some { identifier, signature }, namer)
  else .ok (none, namer)

def planMethods (image : Image) (policy : NamingPolicy) (eligible : Bool) (namer : Namer) :
    List Nat → Except Fault (List MethodPlan)
  | [] => .ok []
  | index :: indices => do
    let record ← image.get MethodDef index
    let (native?, namer) ← image.planNative policy eligible namer record
    let plans ← image.planMethods policy eligible namer indices
    return { record, native? } :: plans

/-- The plan of a type. Identifiers are distinct within it. -/
def planType (image : Image) (policy : NamingPolicy) (index : Nat) : Except Fault TypePlan := do
  let record ← image.get TypeDef index
  let className ← image.className .identifier index
  let methods ← image.planMethods policy record.isEligible .empty record.methods.toList
  return { index, record, className, methods }

def plan (image : Image) (policy : NamingPolicy) : Except Fault (List TypePlan) :=
  (List.range image.typeCount).mapM (image.planType policy)

end Image

structure Handler where
  className : String
  identifier : String
  deriving DecidableEq, Repr

/-- The handlers of methods in order; a method that is not native has none. -/
def slots (plans : List TypePlan) : List (Option Handler) :=
  plans.flatMap fun plan => plan.methods.map fun m =>
    m.native?.map fun native => ⟨plan.className, native.identifier⟩

/-- The texts that the checksum covers for a slot. -/
def slotTexts (assemblyName : String) : Option Handler → List String
  | some handler => [assemblyName, handler.className, handler.identifier]
  | none => ["NULL"]

def nativeChecksum (plans : List TypePlan) (assemblyName : String) : UInt32 :=
  ((slots plans).flatMap (slotTexts assemblyName)).foldl Checksum.updateText 0

end CompactAssembly
