import CompactAssembly.Image.Assembly
import CompactAssembly.Naming.Identifier
import CompactAssembly.Naming.TypeName

/-!
# Listings

A readable text of an assembly: a line with its name, the sizes of its regions, then one entry per
record, table by table. The text is made chunk by chunk. A chunk that cannot be made ends the listing;
the chunks before it have been written by then.
-/

namespace CompactAssembly

abbrev Listing := List (Except Fault String)

namespace Listing

/-- The chunks before the first that could not be made. -/
def sound : Listing → List String
  | [] => []
  | .ok text :: chunks => text :: sound chunks
  | .error _ :: _ => []

def written (listing : Listing) : String := String.join listing.sound

def fault? : Listing → Option Fault
  | [] => none
  | .ok _ :: chunks => fault? chunks
  | .error fault :: _ => some fault

/-- Writing to a receiver that takes no more than `room` bytes. -/
def fits (room : Nat) : Listing → Except Fault Unit
  | [] => .ok ()
  | .ok text :: chunks =>
    if text.utf8ByteSize ≤ room then fits (room - text.utf8ByteSize) chunks
    else .error .listingRejected
  | .error fault :: _ => .error fault

end Listing

namespace Assembly

def place (a : Assembly) (kind : TableKind) (index : Nat) : Except Fault String := do
  let offset ← a.recordOffset kind index
  return Text.hex 4 index ++ "[" ++ Text.hex 8 offset ++ "]"

def hex4 (x : UInt16) : String := Text.hex 4 x.toNat

def signatureText (a : Assembly) (index : UInt16) : Except Fault String := do
  return (← a.readSignature SignatureReader.signature index).text

/-- The name of an owner; nothing for a member without one. -/
def ownerText (a : Assembly) : Option UInt16 → Except Fault String
  | some index => a.listedTypeName index.toNat
  | none => .ok ""

def assemblyRefEntry (a : Assembly) (index : Nat) : Except Fault String := do
  let r ← a.get AssemblyRef index
  return "AssemblyRef: " ++ (← a.place .assemblyRef index) ++ " " ++ (← a.text r.name) ++
    s!" ({r.version.text})\n"

def typeRefEntry (a : Assembly) (index : Nat) : Except Fault String := do
  let r ← a.get TypeRef index
  return "TypeRef " ++ (← a.place .typeRef index) ++ " [Scope: " ++ hex4 r.scope ++ "] " ++
    (← a.text r.nameSpace) ++ " " ++ (← a.text r.name) ++ "\n"

def fieldRefEntry (a : Assembly) (index : Nat) : Except Fault String := do
  let r ← a.get FieldRef index
  return "FieldRef " ++ (← a.place .fieldRef index) ++ " [Type: " ++ hex4 r.container ++ "] " ++
    (← a.text r.name) ++ " [" ++ (← a.signatureText r.sig) ++ "]\n"

def methodRefEntry (a : Assembly) (index : Nat) : Except Fault String := do
  let r ← a.get MethodRef index
  return "MethodRef " ++ (← a.place .methodRef index) ++ " [Type: " ++ hex4 r.container ++ "] " ++
    (← a.text r.name) ++ " [" ++ (← a.signatureText r.sig) ++ "]\n"

def typeDefEntry (a : Assembly) (index : Nat) : Except Fault String := do
  let t ← a.get TypeDef index
  return "TypeDef " ++ (← a.place .typeDef index) ++ " [Extends: " ++ hex4 t.base ++
    "] [Enclosed: " ++ hex4 t.enclosing ++ "] [Flags: " ++ Text.hex 8 t.flags.bits.toNat ++ "] " ++
    (← a.text t.nameSpace) ++ " " ++ (← a.text t.name) ++ "\n"

def methodDefEntry (a : Assembly) (index : Nat) : Except Fault String := do
  let m ← a.get MethodDef index
  return "MethodDef " ++ (← a.place .methodDef index) ++ " [Flags: " ++
    Text.hex 8 m.flags.bits.toNat ++ "] [RVA: " ++ hex4 m.rva ++ "] " ++
    (← a.ownerText (a.methodOwner? index)) ++ "::" ++ (← a.text m.name) ++ " [" ++
    (← a.signatureText m.sig) ++ "]\n"

def attributeEntry (a : Assembly) (index : Nat) : Except Fault String := do
  let r ← a.get Attribute index
  return "Attribute " ++ (← a.place .attributes index) ++ " [" ++ hex4 r.ownerType ++ ":" ++
    hex4 r.ownerIndex ++ "] " ++ hex4 r.constructor ++ " " ++ hex4 r.data ++ "\n"

def typeSpecEntry (a : Assembly) (index : Nat) : Except Fault String := do
  let r ← a.get TypeSpec index
  let type ← a.readSignature SignatureReader.typeSpec r.sig
  return "TypeSpec " ++ (← a.place .typeSpec index) ++ " [" ++ type.text ++ "]\n"

def resourceFileEntry (a : Assembly) (index : Nat) : Except Fault String := do
  let r ← a.get ResourceFile index
  return "ResourceFile " ++ (← a.place .resourcesFiles index) ++ " " ++ (← a.text r.name) ++
    s!" [Resources: {r.resourceCount.toNat}]\n"

/-- A resource reaches to the offset of the next record; its size is shown in 16 bits. -/
def resourceEntry (a : Assembly) (index : Nat) : Except Fault String := do
  let r ← a.get Resource index
  let next ← a.get Resource (index + 1)
  let size := (next.offset - r.offset).toUInt16
  let start := a.header.start .resourcesData + r.offset.toNat
  return "Resource " ++ (← a.place .resources index) ++ " [" ++
    Text.hex 8 r.id.toInt32.toUInt32.toNat ++ s!":{r.kind.toNat}] " ++ hex4 size ++ " " ++
    Text.hex 8 r.offset.toNat ++ "[" ++ Text.hex 8 start ++ "]\n"

/-- What stands between owner and signature of a field: a comment first if the name is reserved. -/
def fieldDefEntry (a : Assembly) (index : Nat) : Listing :=
  let opening := do
    let f ← a.get FieldDef index
    return (f, "FieldDef " ++ (← a.place .fieldDef index) ++ " [Flags: " ++
      Text.hex 8 f.flags.bits.toNat ++ "] " ++ (← a.ownerText (a.fieldOwner? index)))
  match opening with
  | .error fault => [.error fault]
  | .ok (f, opening) =>
    match a.text f.name with
    | .error fault => [.ok opening, .error fault]
    | .ok name =>
      let closing (label : String) : Except Fault String := do
        return "::" ++ label ++ " [" ++ (← a.signatureText f.sig) ++ "]\n"
      if Naming.isReserved name then
        [.ok opening, .ok (Naming.reservedComment "    " name), closing Naming.unlistedField]
      else [.ok opening, closing name]

def tableChunks (entry : Nat → Except Fault String) (count : Nat) : Listing :=
  (List.range count).map entry ++ if count = 0 then [] else [.ok "\n"]

def fieldDefChunks (a : Assembly) : Listing :=
  (List.range a.fieldCount).flatMap a.fieldDefEntry ++ if a.fieldCount = 0 then [] else [.ok "\n"]

def tableSizeLine (a : Assembly) (label : String) (kind : TableKind) : String :=
  let count := a.count kind
  let bytes := count * kind.recordSize?.getD 1
  s!"Size: {label} " ++ Text.flushRight 6 bytes ++ " byte(s) " ++ Text.flushRight 6 count ++
    " item(s)\n"

def heapSizeLine (a : Assembly) (label : String) (kind : TableKind) : String :=
  s!"Size: {label} " ++ Text.flushRight 6 (a.count kind) ++ " byte(s)\n"

def sizeLines (a : Assembly) : List String :=
  [a.tableSizeLine "AssemblyRef    " .assemblyRef,
    a.tableSizeLine "TypeRef        " .typeRef,
    a.tableSizeLine "FieldRef       " .fieldRef,
    a.tableSizeLine "MethodRef      " .methodRef,
    a.tableSizeLine "TypeDef        " .typeDef,
    a.tableSizeLine "FieldDef       " .fieldDef,
    a.tableSizeLine "MethodDef      " .methodDef,
    a.tableSizeLine "Attributes     " .attributes,
    a.tableSizeLine "TypeSpec       " .typeSpec,
    a.tableSizeLine "Resources Files" .resourcesFiles,
    a.tableSizeLine "Resources      " .resources,
    a.heapSizeLine "ResourcesData  " .resourcesData,
    a.heapSizeLine "Strings        " .strings,
    a.heapSizeLine "Signatures     " .signatures,
    a.heapSizeLine "ByteCode       " .byteCode,
    "\n\n"]

/-- The listing of an assembly. No empty line follows the methods; the last resource record only closes
the payload before it and has no entry. -/
def listing (a : Assembly) : Listing :=
  .ok ("Assembly: " ++ a.name?.getD "" ++ s!" ({a.header.version.text})\n\n") ::
    a.sizeLines.map .ok ++
    tableChunks a.assemblyRefEntry (a.count .assemblyRef) ++
    tableChunks a.typeRefEntry (a.count .typeRef) ++
    tableChunks a.fieldRefEntry (a.count .fieldRef) ++
    tableChunks a.methodRefEntry (a.count .methodRef) ++
    tableChunks a.typeDefEntry a.typeCount ++
    a.fieldDefChunks ++
    (List.range a.methodCount).map a.methodDefEntry ++
    tableChunks a.attributeEntry (a.count .attributes) ++
    tableChunks a.typeSpecEntry (a.count .typeSpec) ++
    tableChunks a.resourceFileEntry (a.count .resourcesFiles) ++
    tableChunks a.resourceEntry (a.count .resources - 1)

end Assembly

end CompactAssembly
