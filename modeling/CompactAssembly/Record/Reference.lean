import CompactAssembly.Record.Basic
import CompactAssembly.Image.Version

/-!
# Records of references

Assemblies, types and members that are defined elsewhere, and specifications of types. Names and
signatures are positions in the heaps.
-/

namespace CompactAssembly

structure AssemblyRef where
  name : UInt16
  version : Version
  deriving DecidableEq, Repr

instance : Row AssemblyRef where
  kind := .assemblyRef
  encode r := Word.bytes r.name ++ Word.bytes filler ++ r.version.encode
  read := do
    let name ← Reader.word
    Reader.filler
    let version ← Version.read
    return { name, version }

structure TypeRef where
  name : UInt16
  nameSpace : UInt16
  scope : UInt16
  deriving DecidableEq, Repr

/-- The enclosing type reference, or the assembly reference that holds the type. -/
def TypeRef.resolutionScope? (r : TypeRef) : Option Origin := Origin.ofField? r.scope

instance : Row TypeRef where
  kind := .typeRef
  encode r :=
    Word.bytes r.name ++ Word.bytes r.nameSpace ++ Word.bytes r.scope ++ Word.bytes filler
  read := do
    let name ← Reader.word
    let nameSpace ← Reader.word
    let scope ← Reader.word
    Reader.filler
    return { name, nameSpace, scope }

structure FieldRef where
  name : UInt16
  container : UInt16
  sig : UInt16
  deriving DecidableEq, Repr

instance : Row FieldRef where
  kind := .fieldRef
  encode r :=
    Word.bytes r.name ++ Word.bytes r.container ++ Word.bytes r.sig ++ Word.bytes filler
  read := do
    let name ← Reader.word
    let container ← Reader.word
    let sig ← Reader.word
    Reader.filler
    return { name, container, sig }

structure MethodRef where
  name : UInt16
  container : UInt16
  sig : UInt16
  deriving DecidableEq, Repr

instance : Row MethodRef where
  kind := .methodRef
  encode r :=
    Word.bytes r.name ++ Word.bytes r.container ++ Word.bytes r.sig ++ Word.bytes filler
  read := do
    let name ← Reader.word
    let container ← Reader.word
    let sig ← Reader.word
    Reader.filler
    return { name, container, sig }

structure TypeSpec where
  sig : UInt16
  deriving DecidableEq, Repr

instance : Row TypeSpec where
  kind := .typeSpec
  encode r := Word.bytes r.sig ++ Word.bytes filler
  read := do
    let sig ← Reader.word
    Reader.filler
    return { sig }

end CompactAssembly
