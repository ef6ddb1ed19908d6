import CompactAssembly.Image.Basic
import CompactAssembly.Proofs.DraftRun
import CompactAssembly.Proofs.Extents
import CompactAssembly.Proofs.Regions
import CompactAssembly.Proofs.Seal
import CompactAssembly.Proofs.Traversal
import Mathlib

/-!
# Builder and reader agree on the image

`Draft.Laid c header image`: the image is a header and the regions of `c` behind it, where the header
says. The image of a draft is laid out so (`closes_of_image`), with `c` the draft after the name of the
assembly and the closing resource were added. What a reader makes of an image follows from `Laid` alone:
the header, the extents, the records (`Laid.stores`) and the heaps (`Laid.cut`).
-/

namespace CompactAssembly

namespace Header

/-- The image has exactly these records in their table. -/
structure Stores (header : Header) (image : Bytes) {ρ : Type} [Row ρ] (rows : Array ρ) : Prop where
  recordSize : (Row.kind ρ).recordSize? = some (Row.size ρ)
  count : (header.regionSize (Row.kind ρ)).map (· / Row.size ρ) = .ok rows.size
  read : ∀ (i : Nat) (hi : i < rows.size),
    (Row.read : Reader ρ).value image (header.start (Row.kind ρ) + i * Row.size ρ) = .ok rows[i]

end Header

namespace Draft
variable {c : Draft} {header : Header} {image : Bytes}

/-- The image is the header and the regions of the draft behind it. -/
structure Laid (c : Draft) (header : Header) (image : Bytes) : Prop where
  start : ∀ kind, header.start kind = c.startOf kind
  padding : ∀ kind, header.padding kind = paddingFor (c.region kind).size
  toList : image.toList = header.encode ++ c.body.toList

namespace Laid

theorem size (h : c.Laid header image) : image.size = Header.size + c.body.size := by
  rw [← Array.length_toList, h.toList, List.length_append, Header.length_encode, Array.length_toList]

theorem totalSize (h : c.Laid header image) : header.totalSize = image.size := by
  rw [Header.totalSize, h.start, startOf_endOfAssembly, h.size]

theorem toList_eq (h : c.Laid header image) :
    image.toList = Header.marker ++ (header.fields ++ c.body.toList) := by
  rw [h.toList, Header.encode_eq, List.append_assoc]

theorem read (h : c.Laid header image) : Header.read image = .ok header :=
  Header.read_of_holdsAt ⟨[], c.body.toList, h.toList, rfl⟩

theorem holdsAt (h : c.Laid header image) (kind : TableKind) :
    image.HoldsAt (header.start kind) (c.region kind).toList := by
  rw [h.start]
  exact c.body_holdsAt kind ⟨header.encode, [], by rw [h.toList, List.append_nil], header.length_encode⟩

theorem regionSize (h : c.Laid header image) (kind : TableKind) :
    header.regionSize kind = .ok (c.region kind).size := by
  unfold Header.regionSize
  split
  · next hnext =>
    obtain rfl : kind = .endOfAssembly := by cases kind <;> first | rfl | cases hnext
    rfl
  · next next hnext =>
    have hn := c.startOf_next hnext
    simp only [h.start, h.padding, hn]
    rw [if_pos (by omega)]
    congr 1
    omega

theorem extents (h : c.Laid header image) : header.Extents image.size where
  available := Nat.le_of_eq h.totalSize
  size := by
    rw [h.totalSize, h.size]
    exact Nat.le_add_right ..
  region kind := ⟨_, h.regionSize kind⟩

theorem checkExtents (h : c.Laid header image) : header.checkExtents image.size = .ok () :=
  Header.checkExtents_iff.2 h.extents

theorem cut (h : c.Laid header image) (kind : TableKind) : header.cut image kind = .ok (c.region kind) := by
  have hcut := (h.holdsAt kind).extract
  rw [Array.length_toList] at hcut
  rw [h.extents.cut (h.regionSize kind), hcut]

theorem stores (h : c.Laid header image) {ρ : Type} [Row ρ] [LawfulRow ρ] {rows : Array ρ}
    (hrows : c.region (Row.kind ρ) = encodeRows rows) : header.Stores image rows where
  recordSize := LawfulRow.recordSize
  count := by
    rw [h.regionSize, hrows, size_encodeRows]
    exact congrArg Except.ok (Nat.mul_div_cancel _ LawfulRow.size_pos)
  read i hi := (LawfulRow.reads _).value ((hrows ▸ h.holdsAt (Row.kind ρ)).row hi)

/-! Each field of the header that is written back later leaves the image laid out. -/

theorem putNativeChecksum (h : c.Laid header image) (checksum : UInt32) :
    c.Laid { header with nativeChecksum := checksum } (image.putField Header.nativeChecksumOffset checksum) where
  start := h.start
  padding := h.padding
  toList := by
    rw [Header.encode_eq, List.append_assoc]
    exact Header.toList_putField_nativeChecksum h.toList_eq rfl checksum

theorem putAssemblyCrc (h : c.Laid header image) (crc : UInt32) :
    c.Laid { header with assemblyCrc := crc } (image.putField Header.assemblyCrcOffset crc) where
  start := h.start
  padding := h.padding
  toList := by
    rw [Header.encode_eq, List.append_assoc]
    exact Header.toList_putField_assemblyCrc h.toList_eq rfl crc

theorem putHeaderCrc (h : c.Laid header image) (crc : UInt32) :
    c.Laid { header with headerCrc := crc } (image.putField Header.headerCrcOffset crc) where
  start := h.start
  padding := h.padding
  toList := by
    rw [Header.encode_eq, List.append_assoc]
    exact Header.toList_putField_headerCrc h.toList_eq rfl crc

end Laid

/-- The string heap once the name of the assembly is in it. -/
def closedStrings (d : Draft) : Bytes := (d.withText d.name).strings.heap

/-- The resources, with one more record behind them that closes the last payload. -/
def closedResources (d : Draft) : Array Resource :=
  if d.resources.isEmpty then #[]
  else d.resources.push { id := 0, kind := 0, flags := 0, offset := UInt32.ofNat d.resourcesData.size }

def closed (d : Draft) : Draft := { d.withText d.name with resources := d.closedResources }

theorem extends_closed (d : Draft) : d.Extends d.closed := by
  have hresources : d.resources.toList <+: d.closedResources.toList := by
    unfold closedResources
    split
    · next he =>
      have hnone : d.resources = #[] := Array.isEmpty_iff.1 he
      exact hnone ▸ List.prefix_rfl
    · exact prefix_push ..
  exact { Extends.withText d d.name with resources := hresources }

/-- Closing fails only if the payloads of the resources are not addressable. -/
theorem wp_close (d : Draft) :
    Drafting.wp close (fun name c => name = d.textReference d.name ∧ c = d.closed ∧
      (d.resources.isEmpty = false → d.resourcesData.size < 0x100000000))
      (fun _ => 0x100000000 ≤ d.resourcesData.size) d := by
  obtain ⟨strings, overflow, hd⟩ := d.withText_eq d.name
  unfold close closed closedResources
  simp only [Drafting.wp_bind, Drafting.wp_get, Drafting.wp_text, hd]
  by_cases he : d.resources.isEmpty = true
  · have h0 : d.resources = #[] := Array.isEmpty_iff.1 he
    simp only [he, ↓reduceIte, Drafting.wp_pure, Bool.true_eq_false, false_implies, and_true, true_and]
    rw [← h0]
  · simp only [he, Bool.false_eq_true, ↓reduceIte, Drafting.wp_bind, Drafting.wp_get,
      Drafting.wp_ofExcept, Drafting.wp_modify, Drafting.wp_pure]
    refine ⟨fun offset hoffset => ?_, fun fault hfault => ?_⟩
    · unfold narrowOffset at hoffset
      split at hoffset
      · next hlt =>
        cases hoffset
        exact ⟨trivial, rfl, fun _ => hlt⟩
      · cases hoffset
    · unfold narrowOffset at hfault
      split at hfault
      · cases hfault
      · next hge => exact Nat.le_of_not_lt hge

theorem close_ok {d : Draft} (h : d.resourcesData.size < 0x100000000) :
    close d = .ok (d.textReference d.name) d.closed := by
  have hw := d.wp_close
  unfold Drafting.wp at hw
  split at hw
  · next hclose =>
    obtain ⟨rfl, rfl, -⟩ := hw
    exact hclose
  · exact absurd h (Nat.not_lt.2 hw)

/-- What a draft gives an image of, and what the image is. -/
structure Closes (d : Draft) (header : Header) (image : Bytes) : Prop where
  laid : d.closed.Laid header image
  overflow : d.closed.overflow = false
  resourcesData : d.resources.isEmpty = false → d.resourcesData.size < 0x100000000
  name : header.assemblyName = d.textReference d.name
  version : header.version = d.version
  assemblyCrc : assemblyChecksum image image.size = .ok header.assemblyCrc
  headerCrc : headerChecksum image = .ok header.headerCrc

def unsealed (c : Draft) (name : UInt16) : Bytes :=
  (c.headerFor name (c.regions.map Array.size)).encode.toArray ++ c.body

theorem laid_unsealed (c : Draft) (hlt : Header.size + c.body.size < 0x100000000) (name : UInt16) :
    c.Laid (c.headerFor name (c.regions.map Array.size)) (c.unsealed name) where
  start := c.start_headerFor name hlt
  padding := c.padding_headerFor name
  toList := by rw [unsealed, Array.toList_append]

theorem image_eq_seal {d : Draft} {name : UInt16} (hclose : close d = .ok name d.closed)
    (hov : d.closed.overflow = false) (hlt : Header.size + d.closed.body.size < 0x100000000) :
    d.image = (Bytes.seal (d.closed.unsealed name) (d.closed.unsealed name).size).map Sealed.image := by
  have hnarrow : narrowOffset (Header.size + (layRegions (TableKind.all.map d.closed.region)).size) =
      .ok (UInt32.ofNat (Header.size + d.closed.body.size)) := if_pos hlt
  unfold image
  simp only [hclose, hov, Bool.false_eq_true, ↓reduceIte, hnarrow, bind, Except.bind]
  rfl

theorem image_closes {d : Draft} {name : UInt16} (hclose : close d = .ok name d.closed)
    (hov : d.closed.overflow = false) (hlt : Header.size + d.closed.body.size < 0x100000000) :
    ∃ image header, d.image = .ok image ∧ d.Closes header image := by
  obtain ⟨rfl, -, hres⟩ := Drafting.wp_ok d.wp_close hclose
  let base := d.closed.headerFor (d.textReference d.name) (d.closed.regions.map Array.size)
  have hraw : d.closed.Laid base (d.closed.unsealed (d.textReference d.name)) := d.closed.laid_unsealed hlt _
  have hsize : Header.size ≤ (d.closed.unsealed (d.textReference d.name)).size := by
    rw [hraw.size]
    exact Nat.le_add_right ..
  obtain ⟨s, hseal, himage, hassembly, hheader⟩ := Bytes.seal_spec hsize (Nat.le_refl _)
  have hlaid := (hraw.putAssemblyCrc s.assemblyCrc).putHeaderCrc s.headerCrc
  rw [← himage] at hlaid
  have hsame : s.image.size = (d.closed.unsealed (d.textReference d.name)).size := by
    rw [himage, Bytes.size_putField, Bytes.size_putField]
  refine ⟨s.image, { base with assemblyCrc := s.assemblyCrc, headerCrc := s.headerCrc }, ?_, ?_⟩
  · rw [image_eq_seal hclose hov hlt, hseal]
    rfl
  · exact {
      laid := hlaid
      overflow := hov
      resourcesData := hres
      name := rfl
      version := by
        obtain ⟨strings, overflow, hd⟩ := d.withText_eq d.name
        show d.closed.version = d.version
        rw [closed, hd]
      assemblyCrc := by rw [hsame]; exact hassembly
      headerCrc := hheader }

theorem closes_of_image {d : Draft} (h : d.image = .ok image) : ∃ header, d.Closes header image := by
  have h' := h
  unfold Draft.image at h
  split at h
  · cases h
  next name c hclose =>
  obtain ⟨-, rfl, -⟩ := Drafting.wp_ok d.wp_close hclose
  split at h
  · cases h
  next hov =>
  have hlt : Header.size + d.closed.body.size < 0x100000000 := by
    refine Nat.lt_of_not_le fun hge => ?_
    have : narrowOffset (Header.size + d.closed.body.size) = .error .wideOffset :=
      if_neg (Nat.not_lt.2 hge)
    simp only [body, regions] at this
    simp only [this, bind, Except.bind] at h
    cases h
  obtain ⟨image', header, himage, hcloses⟩ := image_closes hclose (by simpa using hov) hlt
  cases h'.symm.trans himage
  exact ⟨header, hcloses⟩

/-- What an image holds of a draft: each record in its place, and each heap. -/
structure Holds (d : Draft) (header : Header) (image : Bytes) : Prop where
  assemblyRefs : header.Stores image d.assemblyRefs
  typeRefs : header.Stores image d.typeRefs
  fieldRefs : header.Stores image d.fieldRefs
  methodRefs : header.Stores image d.methodRefs
  typeDefs : header.Stores image d.typeDefs
  fieldDefs : header.Stores image d.fieldDefs
  methodDefs : header.Stores image d.methodDefs
  attributes : header.Stores image d.attributes
  typeSpecs : header.Stores image d.typeSpecs
  resources : header.Stores image d.closedResources
  resourceFiles : header.Stores image d.resourceFiles
  resourcesData : header.cut image .resourcesData = .ok d.resourcesData
  strings : header.cut image .strings = .ok d.closedStrings
  signatures : header.cut image .signatures = .ok d.signatures.heap
  byteCode : header.cut image .byteCode = .ok d.byteCode

theorem region_closed (d : Draft) {kind : TableKind} (hs : kind ≠ .strings) (hr : kind ≠ .resources) :
    d.closed.region kind = d.region kind := by
  obtain ⟨strings, overflow, hd⟩ := d.withText_eq d.name
  rw [closed, hd]
  cases kind <;> first | rfl | exact absurd rfl hs | exact absurd rfl hr

theorem Closes.holds {d : Draft} (h : d.Closes header image) : d.Holds header image where
  assemblyRefs := h.laid.stores (d.region_closed nofun nofun)
  typeRefs := h.laid.stores (d.region_closed nofun nofun)
  fieldRefs := h.laid.stores (d.region_closed nofun nofun)
  methodRefs := h.laid.stores (d.region_closed nofun nofun)
  typeDefs := h.laid.stores (d.region_closed nofun nofun)
  fieldDefs := h.laid.stores (d.region_closed nofun nofun)
  methodDefs := h.laid.stores (d.region_closed nofun nofun)
  attributes := h.laid.stores (d.region_closed nofun nofun)
  typeSpecs := h.laid.stores (d.region_closed nofun nofun)
  resources := h.laid.stores rfl
  resourceFiles := h.laid.stores (d.region_closed nofun nofun)
  resourcesData := (h.laid.cut _).trans (congrArg _ (d.region_closed nofun nofun))
  strings := h.laid.cut .strings
  signatures := (h.laid.cut _).trans (congrArg _ (d.region_closed nofun nofun))
  byteCode := (h.laid.cut _).trans (congrArg _ (d.region_closed nofun nofun))

def lampSteps : List Step :=
  [.body [9], .resource 7 1 [1, 2, 3], .typeSpec (.classType ⟨0x06000003⟩),
    .typeDef ((TypeDraft.named "" "Lamp").withInstanceFields [⟨"on", .primitive .boolean, ⟨0⟩⟩])]

/-- Whatever steps led to a draft, failed ones included: its image reads back as what the steps added,
in their order. -/
theorem built_image_reads_back {name : String} {version : Version} {steps : List Step} {image : Bytes}
    (h : (built name version steps).image = .ok image) :
    ∃ header, Header.read image = .ok header ∧ header.checkExtents image.size = .ok () ∧
      header.totalSize = image.size ∧
      (∀ kind, 4 ∣ header.start kind) ∧
      (∀ kind kind' : TableKind, kind.id ≤ kind'.id → header.start kind ≤ header.start kind') ∧
      (built name version steps).Holds header image ∧
      (∀ before after, steps = before ++ after →
        (built name version before).Extends (built name version steps)) ∧
      assemblyChecksum image header.totalSize = .ok header.assemblyCrc ∧
      headerChecksum image = .ok header.headerCrc := by
  obtain ⟨header, hc⟩ := closes_of_image h
  refine ⟨header, hc.laid.read, hc.laid.checkExtents, hc.laid.totalSize, fun kind => ?_,
    fun kind kind' hle => ?_, hc.holds, ?_, ?_, hc.headerCrc⟩
  · rw [hc.laid.start]
    exact dvd_startOf _ kind
  · rw [hc.laid.start, hc.laid.start]
    exact startOf_mono _ hle
  · rintro before after rfl
    exact extends_built name version before after
  · rw [hc.laid.totalSize]
    exact hc.assemblyCrc

/-- The field, the resource with the record that closes it, and two heaps. -/
theorem built_image_reads_back_lamp :
    ∃ image header, (built "Home" ⟨1, 0, 0, 0⟩ lampSteps).image = .ok image ∧
      Header.read image = .ok header ∧ header.totalSize = image.size ∧
      (Row.read : Reader FieldDef).value image (header.start .fieldDef) = .ok ⟨0, 0, 0xFFFF, ⟨0⟩⟩ ∧
      (Row.read : Reader Resource).value image (header.start .resources) = .ok ⟨7, 1, 0, 0⟩ ∧
      (Row.read : Reader Resource).value image (header.start .resources + 8) = .ok ⟨0, 0, 0, 3⟩ ∧
      header.cut image .resourcesData = .ok #[1, 2, 3] ∧ header.cut image .byteCode = .ok #[9] := by
  obtain ⟨image, -, h, -⟩ := image_closes (close_ok (d := built "Home" ⟨1, 0, 0, 0⟩ lampSteps) (by cbv))
    (by cbv) (by cbv)
  obtain ⟨header, hread, -, htotal, -, -, hholds, -⟩ := built_image_reads_back h
  have hfields : (built "Home" ⟨1, 0, 0, 0⟩ lampSteps).fieldDefs = #[⟨0, 0, 0xFFFF, ⟨0⟩⟩] := by cbv
  have hresources : (built "Home" ⟨1, 0, 0, 0⟩ lampSteps).closedResources = #[⟨7, 1, 0, 0⟩, ⟨0, 0, 0, 3⟩] := by cbv
  have hheaps : (built "Home" ⟨1, 0, 0, 0⟩ lampSteps).resourcesData = #[1, 2, 3] ∧
      (built "Home" ⟨1, 0, 0, 0⟩ lampSteps).byteCode = #[9] := ⟨by cbv, by cbv⟩
  obtain ⟨hdata, hcode⟩ := hheaps
  have hfield := hholds.fieldDefs
  have hresource := hholds.resources
  rw [hfields] at hfield
  rw [hresources] at hresource
  exact ⟨image, header, h, hread, htotal, hfield.read 0 (Nat.zero_lt_succ 0), hresource.read 0 (Nat.zero_lt_succ 1),
    hresource.read 1 (Nat.lt_succ_self 1), hdata ▸ hholds.resourcesData, hcode ▸ hholds.byteCode⟩

end Draft

/-! ## Images of drafts, as a reader holds them -/
namespace Header.Stores
variable {header : Header} {data : Bytes} {ρ : Type} [Row ρ] {rows : Array ρ}

theorem count_view (h : header.Stores data rows) : (Image.view data header).count (Row.kind ρ) = rows.size := by
  have hc := h.count
  unfold Image.count
  simp only [Image.view, h.recordSize, Option.getD_some]
  cases hr : header.regionSize (Row.kind ρ) with
  | error fault => rw [hr] at hc; cases hc
  | ok size =>
    rw [hr] at hc
    exact Except.ok.inj hc

theorem get_view (h : header.Stores data rows) {i : Nat} (hi : i < rows.size) :
    (Image.view data header).get ρ i = .ok rows[i] := by
  unfold Image.get Image.recordOffset
  simp only [h.recordSize, h.count_view, hi, ↓reduceIte]
  exact h.read i hi

theorem records_view (h : header.Stores data rows) : (Image.view data header).records ρ = .ok rows.toList := by
  unfold Image.records
  rw [mapM_range_eq_ok, h.count_view]
  refine ⟨Array.length_toList, fun i hi => ?_⟩
  rw [Array.getElem_toList]
  exact h.get_view (Array.length_toList ▸ hi)

end Header.Stores

theorem Draft.Laid.ofBytes {c : Draft} {header : Header} {data : Bytes} (h : c.Laid header data) :
    Image.ofBytes data = .ok (Image.view data header) :=
  Image.ofBytes_ok_iff.2 ⟨header, h.read, h.extents, rfl⟩

end CompactAssembly
