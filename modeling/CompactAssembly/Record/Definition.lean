import CompactAssembly.Record.Basic
import CompactAssembly.Record.Flags

/-!
# Records of definitions

A type definition owns consecutive methods (virtual, instance, static), consecutive static fields and
consecutive instance fields.
-/

namespace CompactAssembly

structure TypeDef where
  name : UInt16
  nameSpace : UInt16
  /-- The type it extends. -/
  base : UInt16
  enclosing : UInt16
  flags : TypeFlags
  interfaces : UInt16
  methodsFirst : UInt16
  virtualMethodCount : UInt8
  instanceMethodCount : UInt8
  staticMethodCount : UInt8
  dataType : UInt8
  staticFieldsFirst : UInt16
  instanceFieldsFirst : UInt16
  staticFieldCount : UInt8
  instanceFieldCount : UInt8
  deriving DecidableEq, Repr

namespace TypeDef

def methodCount (t : TypeDef) : Nat :=
  t.virtualMethodCount.toNat + t.instanceMethodCount.toNat + t.staticMethodCount.toNat

def methods (t : TypeDef) : IndexRange := ⟨t.methodsFirst.toNat, t.methodCount⟩

def virtualMethods (t : TypeDef) : IndexRange :=
  ⟨t.methodsFirst.toNat, t.virtualMethodCount.toNat⟩

def instanceMethods (t : TypeDef) : IndexRange :=
  ⟨t.virtualMethods.stop, t.instanceMethodCount.toNat⟩

def staticMethods (t : TypeDef) : IndexRange :=
  ⟨t.instanceMethods.stop, t.staticMethodCount.toNat⟩

def staticFields (t : TypeDef) : IndexRange :=
  ⟨t.staticFieldsFirst.toNat, t.staticFieldCount.toNat⟩

def instanceFields (t : TypeDef) : IndexRange :=
  ⟨t.instanceFieldsFirst.toNat, t.instanceFieldCount.toNat⟩

def semantics (t : TypeDef) : TypeSemantics := t.flags.semantics

def isDelegate (t : TypeDef) : Bool := t.flags.isDelegate

def base? (t : TypeDef) : Option Origin := Origin.ofField? t.base

def enclosing? (t : TypeDef) : Option UInt16 :=
  if t.enclosing = noReference then none else some t.enclosing

/-- Native methods are bound for classes and value types; a delegate is neither. -/
def isEligible (t : TypeDef) : Bool :=
  !t.isDelegate && (t.semantics = .classType || t.semantics = .valueType)

instance : Row TypeDef where
  kind := .typeDef
  encode t :=
    Word.bytes t.name ++ Word.bytes t.nameSpace ++ Word.bytes t.base ++ Word.bytes t.enclosing ++
      Word.bytes t.flags.bits ++ Word.bytes t.interfaces ++ Word.bytes t.methodsFirst ++
      Word.bytes t.virtualMethodCount ++ Word.bytes t.instanceMethodCount ++
      Word.bytes t.staticMethodCount ++ Word.bytes t.dataType ++ Word.bytes t.staticFieldsFirst ++
      Word.bytes t.instanceFieldsFirst ++ Word.bytes t.staticFieldCount ++
      Word.bytes t.instanceFieldCount
  read := do
    let name ← Reader.word
    let nameSpace ← Reader.word
    let base ← Reader.word
    let enclosing ← Reader.word
    let flags ← Reader.word
    let interfaces ← Reader.word
    let methodsFirst ← Reader.word
    let virtualMethodCount ← Reader.word
    let instanceMethodCount ← Reader.word
    let staticMethodCount ← Reader.word
    let dataType ← Reader.word
    let staticFieldsFirst ← Reader.word
    let instanceFieldsFirst ← Reader.word
    let staticFieldCount ← Reader.word
    let instanceFieldCount ← Reader.word
    return {
      name, nameSpace, base, enclosing, flags := ⟨flags⟩, interfaces, methodsFirst
      virtualMethodCount, instanceMethodCount, staticMethodCount, dataType, staticFieldsFirst
      instanceFieldsFirst, staticFieldCount, instanceFieldCount }

end TypeDef

structure FieldDef where
  name : UInt16
  sig : UInt16
  defaultValue : UInt16
  flags : FieldFlags
  deriving DecidableEq, Repr

instance : Row FieldDef where
  kind := .fieldDef
  encode f :=
    Word.bytes f.name ++ Word.bytes f.sig ++ Word.bytes f.defaultValue ++ Word.bytes f.flags.bits
  read := do
    let name ← Reader.word
    let sig ← Reader.word
    let defaultValue ← Reader.word
    let flags ← Reader.word
    return { name, sig, defaultValue, flags := ⟨flags⟩ }

structure MethodDef where
  name : UInt16
  /-- Position of the body. -/
  rva : UInt16
  flags : MethodFlags
  resultOpcode : UInt8
  argCount : UInt8
  localCount : UInt8
  evalStackLength : UInt8
  locals : UInt16
  sig : UInt16
  deriving DecidableEq, Repr

namespace MethodDef

def hasBody (m : MethodDef) : Bool := m.rva != noReference

def isStatic (m : MethodDef) : Bool := m.flags.isStatic

def isAbstract (m : MethodDef) : Bool := m.flags.isAbstract

/-- A method without body that is not abstract is implemented natively. -/
def isEligible (m : MethodDef) : Bool := !m.hasBody && !m.isAbstract

instance : Row MethodDef where
  kind := .methodDef
  encode m :=
    Word.bytes m.name ++ Word.bytes m.rva ++ Word.bytes m.flags.bits ++
      Word.bytes m.resultOpcode ++ Word.bytes m.argCount ++ Word.bytes m.localCount ++
      Word.bytes m.evalStackLength ++ Word.bytes m.locals ++ Word.bytes m.sig
  read := do
    let name ← Reader.word
    let rva ← Reader.word
    let flags ← Reader.word
    let resultOpcode ← Reader.word
    let argCount ← Reader.word
    let localCount ← Reader.word
    let evalStackLength ← Reader.word
    let locals ← Reader.word
    let sig ← Reader.word
    return {
      name, rva, flags := ⟨flags⟩, resultOpcode, argCount, localCount, evalStackLength, locals
      sig }

end MethodDef

end CompactAssembly
