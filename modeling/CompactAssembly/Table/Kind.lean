/-!
# The sixteen regions of an image

An image is a header followed by sixteen consecutive regions in a fixed order. Eleven of them are
tables of records of one size, four are heaps of bytes, and the last one is empty and marks the end.
-/

namespace CompactAssembly

/-- The region kinds, in image order. -/
inductive TableKind where
  | assemblyRef
  | typeRef
  | fieldRef
  | methodRef
  | typeDef
  | fieldDef
  | methodDef
  | attributes
  | typeSpec
  | resources
  | resourcesData
  | strings
  | signatures
  | byteCode
  | resourcesFiles
  | endOfAssembly
  deriving DecidableEq, Repr

namespace TableKind

def all : List TableKind :=
  [assemblyRef, typeRef, fieldRef, methodRef, typeDef, fieldDef, methodDef, attributes, typeSpec,
    resources, resourcesData, strings, signatures, byteCode, resourcesFiles, endOfAssembly]

def slot : TableKind → Fin 16
  | assemblyRef => 0
  | typeRef => 1
  | fieldRef => 2
  | methodRef => 3
  | typeDef => 4
  | fieldDef => 5
  | methodDef => 6
  | attributes => 7
  | typeSpec => 8
  | resources => 9
  | resourcesData => 10
  | strings => 11
  | signatures => 12
  | byteCode => 13
  | resourcesFiles => 14
  | endOfAssembly => 15

/-- The number that stands for a kind in tokens and records. -/
def id (kind : TableKind) : Nat := kind.slot.val

def ofId? (id : Nat) : Option TableKind := all[id]?

def next? (kind : TableKind) : Option TableKind := ofId? (kind.id + 1)

def name : TableKind → String
  | assemblyRef => "AssemblyRef"
  | typeRef => "TypeRef"
  | fieldRef => "FieldRef"
  | methodRef => "MethodRef"
  | typeDef => "TypeDef"
  | fieldDef => "FieldDef"
  | methodDef => "MethodDef"
  | attributes => "Attributes"
  | typeSpec => "TypeSpec"
  | resources => "Resources"
  | resourcesData => "ResourcesData"
  | strings => "Strings"
  | signatures => "Signatures"
  | byteCode => "ByteCode"
  | resourcesFiles => "ResourcesFiles"
  | endOfAssembly => "EndOfAssembly"

/-- Bytes per record; heaps and the end marker hold no records. -/
def recordSize? : TableKind → Option Nat
  | assemblyRef => some 12
  | typeRef | fieldRef | methodRef | fieldDef | attributes | resources | resourcesFiles => some 8
  | typeDef => some 24
  | methodDef => some 16
  | typeSpec => some 4
  | resourcesData | strings | signatures | byteCode | endOfAssembly => none

theorem ofId?_id (kind : TableKind) : ofId? kind.id = some kind := by
  cases kind <;> rfl

theorem id_lt (kind : TableKind) : kind.id < 16 := kind.slot.isLt

theorem id_inj {a b : TableKind} (h : a.id = b.id) : a = b :=
  Option.some.inj (by rw [← ofId?_id a, ← ofId?_id b, h])

theorem mem_all (kind : TableKind) : kind ∈ all := by
  cases kind <;> simp [all]

end TableKind

end CompactAssembly
