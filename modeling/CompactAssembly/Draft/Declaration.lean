import CompactAssembly.Record.Definition
import CompactAssembly.Signature.Basic

/-!
# Declarations

What a new type definition is made of: its names and flags, its fields and its methods.
-/

namespace CompactAssembly

structure FieldDraft where
  name : String
  type : Element
  flags : FieldFlags
  deriving DecidableEq, Repr

def FieldDraft.withFlags (f : FieldDraft) (flags : FieldFlags) : FieldDraft :=
  { f with flags := f.flags.union flags }

structure MethodDraft where
  name : String
  signature : MethodSignature
  flags : MethodFlags
  rva : UInt16
  deriving DecidableEq, Repr

namespace MethodDraft

/-- A method with a body at `rva`. One that is not called on an object is static. -/
def managed (name : String) (signature : MethodSignature) (rva : UInt16) : MethodDraft :=
  ⟨name, signature, ⟨if signature.hasThis then 0 else MethodFlags.static⟩, rva⟩

def native (name : String) (signature : MethodSignature) : MethodDraft :=
  managed name signature noReference

def withFlags (m : MethodDraft) (flags : MethodFlags) : MethodDraft :=
  { m with flags := m.flags.union flags }

def isStatic (m : MethodDraft) : Bool := m.flags.isStatic

def isVirtual (m : MethodDraft) : Bool := !m.isStatic && m.flags.isVirtual

def isInstance (m : MethodDraft) : Bool := !m.isStatic && !m.flags.isVirtual

end MethodDraft

structure TypeDraft where
  nameSpace : String
  name : String
  flags : TypeFlags
  base : UInt16
  enclosing : UInt16
  dataType : UInt8
  staticFields : List FieldDraft
  instanceFields : List FieldDraft
  methods : List MethodDraft
  deriving DecidableEq, Repr

namespace TypeDraft

/-- A class without flags, base, enclosing type or members. -/
def named (nameSpace name : String) : TypeDraft where
  nameSpace
  name
  flags := ⟨0⟩
  base := noReference
  enclosing := noReference
  dataType := DataType.classType.code
  staticFields := []
  instanceFields := []
  methods := []

/-- The type with further flags. Flags that make it a value type set its data type too. -/
def withFlags (t : TypeDraft) (flags : TypeFlags) : TypeDraft :=
  let flags := t.flags.union flags
  if flags.semantics = .valueType then
    { t with flags, dataType := DataType.valueType.code }
  else { t with flags }

def withDataType (t : TypeDraft) (dataType : DataType) : TypeDraft :=
  { t with dataType := dataType.code }

def withBase (t : TypeDraft) (base : UInt16) : TypeDraft := { t with base }

def withEnclosing (t : TypeDraft) (enclosing : UInt16) : TypeDraft := { t with enclosing }

def withStaticFields (t : TypeDraft) (fields : List FieldDraft) : TypeDraft :=
  { t with staticFields := t.staticFields ++ fields.map (·.withFlags ⟨FieldFlags.static⟩) }

def withInstanceFields (t : TypeDraft) (fields : List FieldDraft) : TypeDraft :=
  { t with instanceFields := t.instanceFields ++ fields }

def withMethods (t : TypeDraft) (methods : List MethodDraft) : TypeDraft :=
  { t with methods := t.methods ++ methods }

/-- Methods in table order: virtual, instance, static. -/
def orderedMethods (t : TypeDraft) : List MethodDraft :=
  t.methods.filter MethodDraft.isVirtual ++ t.methods.filter MethodDraft.isInstance ++
    t.methods.filter MethodDraft.isStatic

end TypeDraft

end CompactAssembly
