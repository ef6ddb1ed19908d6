import CompactAssembly.Bytes.Reader

/-!
# Versions

Four numbers, compared from the first one on.
-/

namespace CompactAssembly

structure Version where
  major : UInt16
  minor : UInt16
  build : UInt16
  revision : UInt16
  deriving DecidableEq, Repr

namespace Version

def zero : Version := ⟨0, 0, 0, 0⟩

def parts (v : Version) : List Nat :=
  [v.major.toNat, v.minor.toNat, v.build.toNat, v.revision.toNat]

def compare (a b : Version) : Ordering := compareOfLessAndEq a.parts b.parts

def text (v : Version) : String := ".".intercalate (v.parts.map fun n => s!"{n}")

def encode (v : Version) : List UInt8 :=
  Word.bytes v.major ++ Word.bytes v.minor ++ Word.bytes v.build ++ Word.bytes v.revision

def read : Reader Version := do
  let major ← Reader.word
  let minor ← Reader.word
  let build ← Reader.word
  let revision ← Reader.word
  return { major, minor, build, revision }

end Version

end CompactAssembly
