import CompactAssembly.Draft.Basic
import CompactAssembly.Image.Header

/-!
# From a draft to an image

The regions follow the header in the order of their kinds, each padded with zeros to a multiple of four
bytes. A draft with resources gets one more resource record, whose offset closes the last payload.
-/

namespace CompactAssembly

def paddingFor (size : Nat) : Nat := (4 - size % 4) % 4

def encodeRows {ρ : Type} [Row ρ] (rows : Array ρ) : Bytes :=
  rows.foldl (fun out row => out ++ Row.encode row) #[]

namespace Draft

def region (d : Draft) : TableKind → Bytes
  | .assemblyRef => encodeRows d.assemblyRefs
  | .typeRef => encodeRows d.typeRefs
  | .fieldRef => encodeRows d.fieldRefs
  | .methodRef => encodeRows d.methodRefs
  | .typeDef => encodeRows d.typeDefs
  | .fieldDef => encodeRows d.fieldDefs
  | .methodDef => encodeRows d.methodDefs
  | .attributes => encodeRows d.attributes
  | .typeSpec => encodeRows d.typeSpecs
  | .resources => encodeRows d.resources
  | .resourcesData => d.resourcesData
  | .strings => d.strings.heap
  | .signatures => d.signatures.heap
  | .byteCode => d.byteCode
  | .resourcesFiles => encodeRows d.resourceFiles
  | .endOfAssembly => #[]

/-- Interns the name of the assembly and closes the resources. -/
def close : Drafting UInt16 := do
  let name ← Drafting.text (← get).name
  if (← get).resources.isEmpty then return name
  let offset ← Drafting.ofExcept (narrowOffset (← get).resourcesData.size)
  modify fun d => { d with
    resources := d.resources.push { id := 0, kind := 0, flags := 0, offset } }
  return name

/-- Start of each region when regions of these sizes follow from `start` on, padding included. -/
def regionStarts (start : Nat) : List Nat → List Nat
  | [] => []
  | size :: sizes => start :: regionStarts (start + size + paddingFor size) sizes

def layRegions (regions : List Bytes) : Bytes :=
  regions.foldl (fun out region => out ++ region ++ Array.replicate (paddingFor region.size) 0) #[]

/-- The header of an image with regions of given sizes, checksums not yet computed. -/
def headerFor (d : Draft) (name : UInt16) (sizes : List Nat) : Header where
  headerCrc := 0
  assemblyCrc := 0
  flags := 0
  nativeChecksum := 0
  patchEntryOffset := 0xFFFFFFFF
  version := d.version
  assemblyName := name
  stringTableVersion := 1
  starts := Vector.ofFn fun slot =>
    UInt32.ofNat ((regionStarts Header.size sizes)[slot.val]?.getD 0)
  patchedMethodCount := 0
  paddings := Vector.ofFn fun slot => UInt8.ofNat (paddingFor (sizes[slot.val]?.getD 0))

def image (d : Draft) : Except Fault Bytes :=
  match close d with
  | .error fault _ => .error fault
  | .ok name d =>
    if d.overflow then .error .outOfBounds
    else do
      let regions := TableKind.all.map d.region
      let body := layRegions regions
      let _ ← narrowOffset (Header.size + body.size)
      let header := d.headerFor name (regions.map Array.size)
      let unsealed := header.encode.toArray ++ body
      let sealed ← Bytes.seal unsealed unsealed.size
      return sealed.image

end Draft

end CompactAssembly
