import CompactAssembly.Heap.Strings
import CompactAssembly.Image.Header
import CompactAssembly.Record.Attachment
import CompactAssembly.Record.Definition
import CompactAssembly.Record.Reference
import CompactAssembly.Signature.Decoding

/-!
# Images

The bytes of an image beside its header. Regions and records are read from the bytes as they are now:
a region may start before the end of the header, so that writing a header field can change a record.
-/

namespace CompactAssembly

structure Image where
  data : Bytes
  header : Header
  /-- The string heap. -/
  strings : Bytes
  /-- The signature heap. -/
  signatures : Bytes
  deriving DecidableEq, Repr

def Header.cut (header : Header) (data : Bytes) (kind : TableKind) : Except Fault Bytes := do
  let size ← header.regionSize kind
  let start := header.start kind
  if start + size ≤ data.size then return data.extract start (start + size)
  else throw .outOfBounds

namespace Image

/-- The image of bytes under a header. A heap without an extent counts as empty. -/
def view (data : Bytes) (header : Header) : Image where
  data
  header
  strings := (header.cut data .strings).toOption.getD #[]
  signatures := (header.cut data .signatures).toOption.getD #[]

def ofBytes (data : Bytes) : Except Fault Image := do
  let header ← Header.read data
  header.checkExtents data.size
  return view data header

/-- Number of records of a table, or of bytes of a heap. -/
def count (image : Image) (kind : TableKind) : Nat :=
  match image.header.regionSize kind with
  | .ok size => size / kind.recordSize?.getD 1
  | .error _ => 0

def region (image : Image) (kind : TableKind) : Except Fault Bytes :=
  image.header.cut image.data kind

def recordOffset (image : Image) (kind : TableKind) (index : Nat) : Except Fault Nat :=
  match kind.recordSize? with
  | none => .error (.notRecordTable kind)
  | some size =>
    if index < image.count kind then .ok (image.header.start kind + index * size)
    else .error .outOfBounds

def get (ρ : Type) [Row ρ] (image : Image) (index : Nat) : Except Fault ρ := do
  let offset ← image.recordOffset (Row.kind ρ) index
  (Row.read : Reader ρ).value image.data offset

def records (ρ : Type) [Row ρ] (image : Image) : Except Fault (List ρ) :=
  (List.range (image.count (Row.kind ρ))).mapM (image.get ρ)

def text (image : Image) (index : UInt16) : Except Fault String := image.strings.text index

def blob (image : Image) (index : UInt16) : Except Fault Bytes := image.signatures.blob index

def readSignature {α : Type} (image : Image) (reader : SignatureReader α) (index : UInt16) :
    Except Fault α :=
  if index.toNat < image.signatures.size then reader.value image.signatures index.toNat
  else .error .outOfBounds

def name? (image : Image) : Option String := (image.text image.header.assemblyName).toOption

def typeCount (image : Image) : Nat := image.count .typeDef

def fieldCount (image : Image) : Nat := image.count .fieldDef

def methodCount (image : Image) : Nat := image.count .methodDef

def wordAt (image : Image) (pos : Nat) : Except Fault UInt32 := Reader.word.value image.data pos

end Image

end CompactAssembly
