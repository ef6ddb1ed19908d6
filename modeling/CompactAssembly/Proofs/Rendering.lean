import CompactAssembly.Artifact.Generation
import CompactAssembly.Proofs.Extents
import CompactAssembly.Proofs.Offsets

/-!
# What a rendering reads of an image

`Image.Alike`: two images with equal regions, and equal headers but for marks and checksums. Whatever the
loader or the generator asks of them they answer alike, so that owners, offsets, plans and artifacts of one
are those of the other (`load_congr`, `render_congr`).
-/

namespace CompactAssembly

namespace Image
variable {image image' : Image}

theorem text_congr (h : image'.strings = image.strings) : image'.text = image.text := by
  funext index
  rw [text, h, text]

theorem name?_congr (h : image'.strings = image.strings)
    (hname : image'.header.assemblyName = image.header.assemblyName) : image'.name? = image.name? := by
  rw [name?, text_congr h, hname, name?]

theorem blob_congr (h : image'.signatures = image.signatures) : image'.blob = image.blob := by
  funext index
  rw [blob, h, blob]

theorem readSignature_congr (h : image'.signatures = image.signatures) {α : Type} (reader : SignatureReader α) :
    image'.readSignature reader = image.readSignature reader := by
  funext index
  rw [readSignature, h, readSignature]

/-- The same types and references to types, and the same texts. -/
structure SameNames (image image' : Image) : Prop where
  typeDef : image'.get TypeDef = image.get TypeDef
  typeRef : image'.get TypeRef = image.get TypeRef
  assemblyRef : image'.get AssemblyRef = image.get AssemblyRef
  text : image'.text = image.text

namespace SameNames

theorem enclosingFrom (h : image.SameNames image') (room : Nat) :
    image'.enclosingFrom room = image.enclosingFrom room := by
  induction room with
  | zero =>
    funext index inner
    unfold Image.enclosingFrom
    simp only [h.typeDef]
  | succ room ih =>
    funext index inner
    unfold Image.enclosingFrom
    simp only [h.typeDef, ih]

theorem typeTexts (h : image.SameNames image') : image'.typeTexts = image.typeTexts := by
  funext t
  simp only [Image.typeTexts, h.text]

theorem className (h : image.SameNames image') : image'.className = image.className := by
  funext style index
  simp only [Image.className, enclosingChain, h.enclosingFrom, h.typeTexts]

theorem typeName (h : image.SameNames image') : image'.typeName = image.typeName := by
  funext index
  simp only [Image.typeName, enclosingChain, h.enclosingFrom, h.typeTexts]

theorem resolutionFrom (h : image.SameNames image') (room : Nat) :
    image'.resolutionFrom room = image.resolutionFrom room := by
  induction room with
  | zero =>
    funext index inner
    unfold Image.resolutionFrom
    simp only [h.typeRef, h.assemblyRef]
  | succ room ih =>
    funext index inner
    unfold Image.resolutionFrom
    simp only [h.typeRef, h.assemblyRef, ih]

theorem typeRefClassName (h : image.SameNames image') : image'.typeRefClassName = image.typeRefClassName := by
  have htexts : image'.typeRefTexts = image.typeRefTexts := by
    funext r
    simp only [typeRefTexts, h.text]
  funext style index
  simp only [Image.typeRefClassName, h.resolutionFrom, h.text, htexts]

theorem elementIdentifier (h : image.SameNames image') : image'.elementIdentifier = image.elementIdentifier := by
  have htoken : image'.tokenClass = image.tokenClass := by
    funext token
    simp only [tokenClass, h.className, h.typeRefClassName]
  funext element
  induction element with
  | byRef inner ih => simp only [Image.elementIdentifier, ih]
  | szArray inner ih => simp only [Image.elementIdentifier, ih]
  | _ => simp only [Image.elementIdentifier, htoken]

theorem methodIdentifier (h : image.SameNames image') : image'.methodIdentifier = image.methodIdentifier := by
  funext policy m signature
  simp only [Image.methodIdentifier, h.text, h.elementIdentifier]

end SameNames

/-- The same regions in the same places, and the same name and version. -/
structure Alike (image image' : Image) : Prop where
  start : ∀ kind, image'.header.start kind = image.header.start kind
  regionSize : ∀ kind, image'.header.regionSize kind = image.header.regionSize kind
  region : ∀ kind, ∃ bytes, image.region kind = .ok bytes ∧ image'.region kind = .ok bytes
  strings : image'.strings = image.strings
  signatures : image'.signatures = image.signatures
  assemblyName : image'.header.assemblyName = image.header.assemblyName
  version : image'.header.version = image.header.version

namespace Alike

theorem count (h : image.Alike image') : image'.count = image.count :=
  funext fun kind => count_congr (h.regionSize kind)

theorem get (h : image.Alike image') (ρ : Type) [Row ρ] [LawfulRow ρ] : image'.get ρ = image.get ρ := by
  obtain ⟨bytes, hbytes, hbytes'⟩ := h.region (Row.kind ρ)
  exact get_congr (h.start _) (h.regionSize _) hbytes hbytes'

theorem text (h : image.Alike image') : image'.text = image.text := text_congr h.strings

theorem readSignature (h : image.Alike image') {α : Type} (reader : SignatureReader α) :
    image'.readSignature reader = image.readSignature reader := readSignature_congr h.signatures reader

theorem name? (h : image.Alike image') : image'.name? = image.name? := name?_congr h.strings h.assemblyName

theorem sameNames (h : image.Alike image') : image.SameNames image' :=
  ⟨h.get TypeDef, h.get TypeRef, h.get AssemblyRef, h.text⟩

/-! ### Plans -/

theorem planNative (h : image.Alike image') : image'.planNative = image.planNative := by
  funext policy eligible namer m
  simp only [Image.planNative, h.readSignature, h.sameNames.methodIdentifier]

theorem planMethods (h : image.Alike image') (policy : NamingPolicy) (eligible : Bool) (namer : Namer)
    (indices : List Nat) :
    image'.planMethods policy eligible namer indices = image.planMethods policy eligible namer indices := by
  induction indices generalizing namer with
  | nil => rfl
  | cons index indices ih => simp only [Image.planMethods, h.get, h.planNative, ih]

theorem plan (h : image.Alike image') : image'.plan = image.plan := by
  have htype : image'.planType = image.planType := by
    funext policy index
    simp only [planType, h.get, h.sameNames.className, h.planMethods]
  funext policy
  simp only [Image.plan, typeCount, h.count, htype]

/-! ### Stubs -/

theorem marshaled (h : image.Alike image') : image'.marshaled = image.marshaled := by
  have hscalar : image'.scalarType = image.scalarType := by
    funext element
    cases element <;> simp only [scalarType, h.get]
  funext element
  cases element <;> simp only [Image.marshaled, hscalar]

theorem stub (h : image.Alike image') : image'.stub = image.stub := by
  funext policy m signature
  simp only [Image.stub, h.text, h.marshaled]

theorem stubScope (h : image.Alike image') : image'.stubScope = image.stubScope := by
  funext index
  simp only [Image.stubScope, h.sameNames.typeName]

end Alike

end Image

namespace Assembly
variable {a a' : Assembly}

/-- What was resolved of an image holds of every image alike. -/
theorem load_congr {layout : BaseLayout} {data data' : Bytes} (h : a.Alike a'.toImage)
    (howners : a'.owners = a.owners) (hoffsets : a'.fieldOffsets = a.fieldOffsets)
    (himage : Image.ofBytes data' = .ok a'.toImage) (hload : Assembly.load layout data = .ok a) :
    Assembly.load layout data' = .ok a' := by
  obtain ⟨-, hresolved, hplaced⟩ := load_ok hload
  refine load_of himage ?_ ?_
  · rw [Image.resolveOwners_congr h.count (h.get TypeDef), howners, hresolved]
  · rw [Image.resolveOffsets_congr h.count (h.get TypeDef), hoffsets, hplaced]

theorem fieldLabel_congr (h : a.Alike a'.toImage) : a'.fieldLabel = a.fieldLabel := by
  funext field
  simp only [fieldLabel, h.get, h.text]

theorem headerBlock_congr (h : a.Alike a'.toImage) (hoffsets : a'.fieldOffsets = a.fieldOffsets) :
    a'.headerBlock = a.headerBlock := by
  have hstatic : a'.staticConstant = a.staticConstant := by
    funext field number
    simp only [staticConstant, fieldLabel_congr h]
  have hinstance : a'.instanceConstant = a.instanceConstant := by
    funext field
    simp only [instanceConstant, fieldLabel_congr h, fieldOffset?, hoffsets]
  funext plan staticBase
  simp only [headerBlock, hstatic, hinstance]

theorem headerBlocks_congr (h : a.Alike a'.toImage) (hoffsets : a'.fieldOffsets = a.fieldOffsets)
    (staticBase : Nat) (plans : List TypePlan) :
    a'.headerBlocks staticBase plans = a.headerBlocks staticBase plans := by
  induction plans generalizing staticBase with
  | nil => rfl
  | cons plan plans ih => simp only [headerBlocks, headerBlock_congr h hoffsets, ih]

theorem libraryArtifacts_congr (h : a.Alike a'.toImage) : a'.libraryArtifacts = a.libraryArtifacts := by
  have haccessor : a'.fieldAccessor = a.fieldAccessor := by
    funext field
    simp only [fieldAccessor, h.get, h.readSignature, h.marshaled, fieldLabel_congr h]
  have hunit : a'.stubUnit = a.stubUnit := by
    funext policy plan
    simp only [stubUnit, h.stubScope, h.stub, haccessor]
  funext policy fileName assemblyName stem lookup plans
  simp only [libraryArtifacts, hunit]

theorem render_congr (h : a.Alike a'.toImage) (hoffsets : a'.fieldOffsets = a.fieldOffsets) :
    a'.render = a.render := by
  funext options
  simp only [render, headerText, h.name?, h.plan, h.version, headerBlocks_congr h hoffsets,
    libraryArtifacts_congr h]

end Assembly

end CompactAssembly
