import CompactAssembly.Record.Basic

/-!
# Records of attachments

Attributes, resources and the files that resources come from.
-/

namespace CompactAssembly

structure Attribute where
  ownerType : UInt16
  ownerIndex : UInt16
  constructor : UInt16
  data : UInt16
  deriving DecidableEq, Repr

instance : Row Attribute where
  kind := .attributes
  encode a :=
    Word.bytes a.ownerType ++ Word.bytes a.ownerIndex ++ Word.bytes a.constructor ++
      Word.bytes a.data
  read := do
    let ownerType ← Reader.word
    let ownerIndex ← Reader.word
    let constructor ← Reader.word
    let data ← Reader.word
    return { ownerType, ownerIndex, constructor, data }

/-- A payload in the resource heap; it reaches to the offset of the next record. -/
structure Resource where
  id : Int16
  kind : UInt8
  flags : UInt8
  offset : UInt32
  deriving DecidableEq, Repr

instance : Row Resource where
  kind := .resources
  encode r :=
    Word.bytes r.id ++ Word.bytes r.kind ++ Word.bytes r.flags ++ Word.bytes r.offset
  read := do
    let id ← Reader.word
    let kind ← Reader.word
    let flags ← Reader.word
    let offset ← Reader.word
    return { id, kind, flags, offset }

structure ResourceFile where
  name : UInt16
  resourceCount : UInt32
  deriving DecidableEq, Repr

instance : Row ResourceFile where
  kind := .resourcesFiles
  encode r := Word.bytes r.name ++ Word.bytes filler ++ Word.bytes r.resourceCount
  read := do
    let name ← Reader.word
    Reader.filler
    let resourceCount ← Reader.word
    return { name, resourceCount }

end CompactAssembly
