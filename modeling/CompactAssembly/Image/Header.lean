import CompactAssembly.Image.Version

/-!
# The header of an image

The first 124 bytes: a marker, two checksums, the version and name of the assembly, and for each region
its start and the number of padding bytes at its end. A region reaches to the start of the next one, so
its size is what lies between less the padding.
-/

namespace CompactAssembly

structure Header where
  headerCrc : UInt32
  assemblyCrc : UInt32
  flags : UInt32
  nativeChecksum : UInt32
  patchEntryOffset : UInt32
  version : Version
  assemblyName : UInt16
  stringTableVersion : UInt16
  starts : Vector UInt32 16
  patchedMethodCount : UInt32
  paddings : Vector UInt8 16
  deriving DecidableEq, Repr

namespace Header

def marker : List UInt8 := [0x4E, 0x46, 0x4D, 0x52, 0x4B, 0x31, 0, 0]

/-- The part of the marker that is checked. -/
def signature : List UInt8 := marker.take 6

def size : Nat := 124

def headerCrcOffset : Nat := 8

def assemblyCrcOffset : Nat := 12

def nativeChecksumOffset : Nat := 20

def readFields : Reader Header := do
  let headerCrc ← Reader.word
  let assemblyCrc ← Reader.word
  let flags ← Reader.word
  let nativeChecksum ← Reader.word
  let patchEntryOffset ← Reader.word
  let version ← Version.read
  let assemblyName ← Reader.word
  let stringTableVersion ← Reader.word
  let starts ← Reader.words 16
  let patchedMethodCount ← Reader.word
  let paddings ← Reader.words 16
  return {
    headerCrc, assemblyCrc, flags, nativeChecksum, patchEntryOffset, version, assemblyName
    stringTableVersion, starts, patchedMethodCount, paddings }

def read (data : Bytes) : Except Fault Header :=
  if data.size = 0 then .error .empty
  else if data.size < marker.length ∨ (data.extract 0 signature.length).toList ≠ signature then
    .error .notSupported
  else if data.size < size then .error .outOfBounds
  else readFields.value data marker.length

def encode (h : Header) : List UInt8 :=
  marker ++ Word.bytes h.headerCrc ++ Word.bytes h.assemblyCrc ++ Word.bytes h.flags ++
    Word.bytes h.nativeChecksum ++ Word.bytes h.patchEntryOffset ++ h.version.encode ++
    Word.bytes h.assemblyName ++ Word.bytes h.stringTableVersion ++
    h.starts.toList.flatMap Word.bytes ++ Word.bytes h.patchedMethodCount ++
    h.paddings.toList.flatMap Word.bytes

def start (h : Header) (kind : TableKind) : Nat := h.starts[kind.slot].toNat

def padding (h : Header) (kind : TableKind) : Nat := h.paddings[kind.slot].toNat

/-- Bytes of a region without padding. The end marker has none. -/
def regionSize (h : Header) (kind : TableKind) : Except Fault Nat :=
  match kind.next? with
  | none => .ok 0
  | some next =>
    if h.start kind + h.padding kind ≤ h.start next then
      .ok (h.start next - h.start kind - h.padding kind)
    else .error (.regionExtent kind (h.start kind) (h.start next) (h.padding kind))

def totalSize (h : Header) : Nat := h.start .endOfAssembly

/-- Checks that the described image holds a header, lies within `available` bytes, and that every
region has an extent. -/
def checkExtents (h : Header) (available : Nat) : Except Fault Unit :=
  if available < h.totalSize ∨ h.totalSize < size then .error .outOfBounds
  else TableKind.all.forM fun kind => do
    let _ ← h.regionSize kind

end Header

def assemblyChecksum (image : Bytes) (totalSize : Nat) : Except Fault UInt32 :=
  if Header.size ≤ totalSize ∧ totalSize ≤ image.size then
    .ok (Checksum.ofBytes (image.extract Header.size totalSize) 0)
  else .error .outOfBounds

/-- Checksum of the header: the bytes before its own field, four zeros, the bytes behind it. -/
def headerChecksum (image : Bytes) : Except Fault UInt32 :=
  if Header.size ≤ image.size then
    let before := Checksum.ofBytes (image.extract 0 Header.headerCrcOffset) 0
    let field := Checksum.update before (Word.bytes (0 : UInt32))
    .ok (Checksum.ofBytes (image.extract Header.assemblyCrcOffset Header.size) field)
  else .error .outOfBounds

/-! ## Sealing

The checksum of the header covers that of what follows it, so they are written in this order. -/
structure Sealed where
  assemblyCrc : UInt32
  headerCrc : UInt32
  image : Bytes
  deriving DecidableEq, Repr

def Bytes.putField (image : Bytes) (offset : Nat) (value : UInt32) : Bytes :=
  Bytes.overwrite image offset (Word.bytes value)

def Bytes.seal (image : Bytes) (totalSize : Nat) : Except Fault Sealed := do
  let assemblyCrc ← assemblyChecksum image totalSize
  let image := Bytes.putField image Header.assemblyCrcOffset assemblyCrc
  let headerCrc ← headerChecksum image
  return ⟨assemblyCrc, headerCrc, Bytes.putField image Header.headerCrcOffset headerCrc⟩

end CompactAssembly
