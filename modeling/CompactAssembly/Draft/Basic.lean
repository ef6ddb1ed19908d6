import CompactAssembly.Draft.Declaration
import CompactAssembly.Draft.Pool
import CompactAssembly.Record.Attachment
import CompactAssembly.Record.Reference
import CompactAssembly.Signature.Encoding

/-!
# Drafts

A draft collects the records and heaps of an image to be. Each operation returns the reference of what
it added. Nothing is taken back: an operation that fails leaves what it had added before it failed. A
position that no reference can name is remembered as an overflow, and the draft gives no image then.
-/

namespace CompactAssembly

structure Draft where
  name : String
  version : Version
  strings : Pool String
  signatures : Pool (List UInt8)
  assemblyRefs : Array AssemblyRef
  typeRefs : Array TypeRef
  fieldRefs : Array FieldRef
  methodRefs : Array MethodRef
  typeDefs : Array TypeDef
  fieldDefs : Array FieldDef
  methodDefs : Array MethodDef
  attributes : Array Attribute
  typeSpecs : Array TypeSpec
  resources : Array Resource
  resourcesData : Bytes
  byteCode : Bytes
  resourceFiles : Array ResourceFile
  overflow : Bool

def Draft.named (name : String) (version : Version) : Draft where
  name
  version
  strings := .empty
  signatures := .empty
  assemblyRefs := #[]
  typeRefs := #[]
  fieldRefs := #[]
  methodRefs := #[]
  typeDefs := #[]
  fieldDefs := #[]
  methodDefs := #[]
  attributes := #[]
  typeSpecs := #[]
  resources := #[]
  resourcesData := #[]
  byteCode := #[]
  resourceFiles := #[]
  overflow := false

abbrev Drafting := EStateM Fault Draft

namespace Drafting

/-- Remembers that a position could not be stored. -/
def overflowed : Drafting Unit := modify fun d => { d with overflow := true }

def reference (position : Nat) : Drafting UInt16 :=
  match narrowReference position with
  | .ok index => pure index
  | .error _ => do
    overflowed
    return noReference

def count (n : Nat) : Drafting UInt8 :=
  if n < 256 then pure (UInt8.ofNat n) else throw .outOfBounds

def ofExcept {α : Type} (result : Except Fault α) : Drafting α :=
  match result with
  | .ok value => pure value
  | .error fault => throw fault

/-- Interns a text. The empty text is the reference that names nothing. -/
def text (value : String) : Drafting UInt16 := do
  if value.isEmpty then return noReference
  match (← get).strings.find? value with
  | some index => return index
  | none =>
    let index ← reference (← get).strings.heap.size
    let stored := value.toUTF8.data.toList ++ [0]
    modify fun d => { d with strings := d.strings.insert value stored index }
    return index

def blob (value : List UInt8) : Drafting UInt16 := do
  match (← get).signatures.find? value with
  | some index => return index
  | none =>
    let index ← reference (← get).signatures.heap.size
    modify fun d => { d with signatures := d.signatures.insert value value index }
    return index

def body (code : List UInt8) : Drafting UInt16 := do
  let rva ← reference (← get).byteCode.size
  modify fun d => { d with byteCode := d.byteCode ++ code }
  return rva

def assemblyRef (name : String) (version : Version) : Drafting UInt16 := do
  let name ← text name
  modify fun d => { d with assemblyRefs := d.assemblyRefs.push { name, version } }
  reference ((← get).assemblyRefs.size - 1)

def typeRef (nameSpace name : String) (scope : UInt16) : Drafting UInt16 := do
  let name ← text name
  let nameSpace ← text nameSpace
  modify fun d => { d with typeRefs := d.typeRefs.push { name, nameSpace, scope } }
  reference ((← get).typeRefs.size - 1)

def fieldRef (container : UInt16) (name : String) (type : Element) : Drafting UInt16 := do
  let sig ← blob (← ofExcept (encodeField type))
  let name ← text name
  modify fun d => { d with fieldRefs := d.fieldRefs.push { name, container, sig } }
  reference ((← get).fieldRefs.size - 1)

def methodRef (container : UInt16) (name : String) (signature : MethodSignature) :
    Drafting UInt16 := do
  let sig ← blob (← ofExcept signature.encode)
  let name ← text name
  modify fun d => { d with methodRefs := d.methodRefs.push { name, container, sig } }
  reference ((← get).methodRefs.size - 1)

def typeSpec (type : Element) : Drafting UInt16 := do
  let sig ← blob (← ofExcept type.encode)
  modify fun d => { d with typeSpecs := d.typeSpecs.push { sig } }
  reference ((← get).typeSpecs.size - 1)

def attach (owner : TableKind) (ownerIndex constructor : UInt16) (data : List UInt8) :
    Drafting UInt16 := do
  let data ← blob data
  modify fun d => { d with
    attributes := d.attributes.push {
      ownerType := UInt16.ofNat owner.id, ownerIndex, constructor, data } }
  reference ((← get).attributes.size - 1)

def resourceOffset : Drafting UInt32 := do
  match narrowOffset (← get).resourcesData.size with
  | .ok offset => return offset
  | .error _ =>
    overflowed
    return 0

def resource (id : Int16) (kind : UInt8) (data : List UInt8) : Drafting UInt16 := do
  let offset ← resourceOffset
  modify fun d => { d with
    resourcesData := d.resourcesData ++ data
    resources := d.resources.push { id, kind, flags := 0, offset } }
  reference ((← get).resources.size - 1)

def resourceFile (name : String) (resourceCount : UInt32) : Drafting UInt16 := do
  let name ← text name
  modify fun d => { d with resourceFiles := d.resourceFiles.push { name, resourceCount } }
  reference ((← get).resourceFiles.size - 1)

def fieldDef (f : FieldDraft) : Drafting Unit := do
  let sig ← blob (← ofExcept (encodeField f.type))
  let name ← text f.name
  modify fun d => { d with
    fieldDefs := d.fieldDefs.push { name, sig, defaultValue := noReference, flags := f.flags } }

/-- Adds a method definition. The object a method is called on counts as an argument. -/
def methodDef (m : MethodDraft) : Drafting Unit := do
  let sig ← blob (← ofExcept m.signature.encode)
  let name ← text m.name
  let argCount ← count (m.signature.params.length + if m.signature.hasThis then 1 else 0)
  modify fun d => { d with
    methodDefs := d.methodDefs.push {
      name, rva := m.rva, flags := m.flags, resultOpcode := m.signature.result.opcode, argCount
      localCount := 0, evalStackLength := 0, locals := noReference, sig } }

/-- Adds a type definition with its members: static fields, instance fields, methods in table order.
The record itself comes last, so a failure leaves the members without a type. -/
def typeDef (t : TypeDraft) : Drafting UInt16 := do
  let staticFieldsFirst ← reference (← get).fieldDefs.size
  t.staticFields.forM fieldDef
  let instanceFieldsFirst ← reference (← get).fieldDefs.size
  t.instanceFields.forM fieldDef
  let methodsFirst ← reference (← get).methodDefs.size
  t.orderedMethods.forM methodDef
  let name ← text t.name
  let nameSpace ← text t.nameSpace
  let virtualMethodCount ← count (t.methods.countP MethodDraft.isVirtual)
  let instanceMethodCount ← count (t.methods.countP MethodDraft.isInstance)
  let staticMethodCount ← count (t.methods.countP MethodDraft.isStatic)
  let staticFieldCount ← count t.staticFields.length
  let instanceFieldCount ← count t.instanceFields.length
  modify fun d => { d with
    typeDefs := d.typeDefs.push {
      name, nameSpace, base := t.base, enclosing := t.enclosing, flags := t.flags
      interfaces := noReference, methodsFirst, virtualMethodCount, instanceMethodCount
      staticMethodCount, dataType := t.dataType, staticFieldsFirst, instanceFieldsFirst
      staticFieldCount, instanceFieldCount } }
  reference ((← get).typeDefs.size - 1)

end Drafting

/-- One addition to a draft. -/
inductive Draft.Step where
  | text (value : String)
  | blob (value : List UInt8)
  | body (code : List UInt8)
  | assemblyRef (name : String) (version : Version)
  | typeRef (nameSpace name : String) (scope : UInt16)
  | fieldRef (container : UInt16) (name : String) (type : Element)
  | methodRef (container : UInt16) (name : String) (signature : MethodSignature)
  | typeSpec (type : Element)
  | attach (owner : TableKind) (ownerIndex constructor : UInt16) (data : List UInt8)
  | resource (id : Int16) (kind : UInt8) (data : List UInt8)
  | resourceFile (name : String) (resourceCount : UInt32)
  | typeDef (type : TypeDraft)
  deriving DecidableEq, Repr

namespace Draft

def Step.perform : Step → Drafting UInt16
  | text value => Drafting.text value
  | blob value => Drafting.blob value
  | body code => Drafting.body code
  | assemblyRef name version => Drafting.assemblyRef name version
  | typeRef nameSpace name scope => Drafting.typeRef nameSpace name scope
  | fieldRef container name type => Drafting.fieldRef container name type
  | methodRef container name signature => Drafting.methodRef container name signature
  | typeSpec type => Drafting.typeSpec type
  | attach owner ownerIndex constructor data => Drafting.attach owner ownerIndex constructor data
  | resource id kind data => Drafting.resource id kind data
  | resourceFile name resourceCount => Drafting.resourceFile name resourceCount
  | typeDef type => Drafting.typeDef type

def apply (d : Draft) (step : Step) : Except Fault UInt16 × Draft :=
  match step.perform d with
  | .ok index d => (.ok index, d)
  | .error fault d => (.error fault, d)

/-- Results of steps in order, and the draft after them; a failed step does not stop the run. -/
def applyAll (d : Draft) : List Step → List (Except Fault UInt16) × Draft
  | [] => ([], d)
  | step :: steps =>
    let (result, d) := d.apply step
    let (results, d) := d.applyAll steps
    (result :: results, d)

end Draft

end CompactAssembly
