import CompactAssembly.Image.FieldOffsets
import CompactAssembly.Image.Owners
import CompactAssembly.Image.Header

/-!
# Loaded assemblies

An image with the owners of its members and the storage offsets of its instance fields, both resolved
once. The header fields that the generator sets can be written back; what was resolved stays.
-/

namespace CompactAssembly

structure Assembly extends Image where
  owners : Image.MemberOwners
  fieldOffsets : FieldOffsets
  deriving DecidableEq, Repr

namespace Assembly

/-- Loads an image under a layout of the referenced base types. -/
def load (layout : BaseLayout) (data : Bytes) : Except Fault Assembly := do
  let image ← Image.ofBytes data
  let owners ← image.resolveOwners
  let fieldOffsets ← image.resolveOffsets layout
  return { image with owners, fieldOffsets }

def fieldOwner? (a : Assembly) (field : Nat) : Option UInt16 := a.owners.fields.owner? field

def methodOwner? (a : Assembly) (method : Nat) : Option UInt16 := a.owners.methods.owner? method

def fieldOffset? (a : Assembly) (field : Nat) : Option UInt16 := a.fieldOffsets[field]?.join

def withImage (a : Assembly) (data : Bytes) (header : Header) : Assembly :=
  { a with toImage := Image.view data header }

@[simp] theorem withImage_data (a : Assembly) (data : Bytes) (header : Header) :
    (a.withImage data header).data = data := rfl

@[simp] theorem withImage_header (a : Assembly) (data : Bytes) (header : Header) :
    (a.withImage data header).header = header := rfl

@[simp] theorem withImage_withImage (a : Assembly) (data data' : Bytes) (header header' : Header) :
    (a.withImage data header).withImage data' header' = a.withImage data' header' := rfl

def setNativeChecksum (a : Assembly) (checksum : UInt32) : Assembly :=
  a.withImage (a.data.putField Header.nativeChecksumOffset checksum)
    { a.header with nativeChecksum := checksum }

def updateCrcs (a : Assembly) : Except Fault Assembly := do
  let sealed ← a.data.seal a.header.totalSize
  return a.withImage sealed.image
    { a.header with assemblyCrc := sealed.assemblyCrc, headerCrc := sealed.headerCrc }

end Assembly

end CompactAssembly
