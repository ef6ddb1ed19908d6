import CompactAssembly.Proofs.Indexing
import CompactAssembly.Proofs.Rendering
import CompactAssembly.Proofs.Seal

/-!
# What writing the header back changes

The checksum of the native methods and the two of the image are written into the bytes that the tables are
read from, and nothing keeps a region from starting within the header. What a region that covers none of the
twelve bytes holds stays as it was (`Header.Spares.region`), and with the types so do their owners and offsets.
-/

namespace CompactAssembly

namespace Header
variable {h : Header} {data : Bytes} {kind : TableKind}

def MarkedAt (pos : Nat) : Prop :=
  (headerCrcOffset ≤ pos ∧ pos < assemblyCrcOffset + 4) ∨
    (nativeChecksumOffset ≤ pos ∧ pos < nativeChecksumOffset + 4)

/-- A region holds none of the bytes that are written back. -/
def Spares (h : Header) (kind : TableKind) : Prop := ∀ pos, h.Covers kind pos → ¬ MarkedAt pos

theorem spares_of_le (hstart : nativeChecksumOffset + 4 ≤ h.start kind) : h.Spares kind := by
  rintro pos ⟨size, -, hlow, -⟩ hmarked
  simp only [MarkedAt, headerCrcOffset, assemblyCrcOffset, nativeChecksumOffset] at hmarked hstart
  omega

def marked (h : Header) (checksum assemblyCrc headerCrc : UInt32) : Header :=
  { h with nativeChecksum := checksum, assemblyCrc := assemblyCrc, headerCrc := headerCrc }

section
variable (h) (kind) (checksum assemblyCrc headerCrc : UInt32)

@[simp] theorem start_marked : (h.marked checksum assemblyCrc headerCrc).start kind = h.start kind := rfl

@[simp] theorem padding_marked : (h.marked checksum assemblyCrc headerCrc).padding kind = h.padding kind := rfl

@[simp] theorem regionSize_marked :
    (h.marked checksum assemblyCrc headerCrc).regionSize kind = h.regionSize kind :=
  regionSize_congr (fun kind => h.start_marked kind ..) (fun kind => h.padding_marked kind ..) kind

end

end Header

/-- The three checksums in the bytes of an image. -/
def Bytes.marked (data : Bytes) (checksum assemblyCrc headerCrc : UInt32) : Bytes :=
  ((data.putField Header.nativeChecksumOffset checksum).putField Header.assemblyCrcOffset assemblyCrc).putField
    Header.headerCrcOffset headerCrc

section
variable {h : Header} {data : Bytes} {kind : TableKind} {checksum assemblyCrc headerCrc : UInt32}

@[simp] theorem Bytes.size_marked : (data.marked checksum assemblyCrc headerCrc).size = data.size := by
  simp only [marked, size_putField]

theorem Bytes.getElem?_marked {i : Nat} (hi : ¬ Header.MarkedAt i) :
    (data.marked checksum assemblyCrc headerCrc)[i]? = data[i]? := by
  simp only [Header.MarkedAt, Header.headerCrcOffset, Header.assemblyCrcOffset, Header.nativeChecksumOffset] at hi
  have hheader : i < Header.headerCrcOffset ∨ Header.headerCrcOffset + 4 ≤ i := by
    simp only [Header.headerCrcOffset]
    omega
  have hassembly : i < Header.assemblyCrcOffset ∨ Header.assemblyCrcOffset + 4 ≤ i := by
    simp only [Header.assemblyCrcOffset]
    omega
  have hnative : i < Header.nativeChecksumOffset ∨ Header.nativeChecksumOffset + 4 ≤ i := by
    simp only [Header.nativeChecksumOffset]
    omega
  rw [marked, getElem?_putField _ _ hheader, getElem?_putField _ _ hassembly, getElem?_putField _ _ hnative]

namespace Header

theorem Extents.marked {available : Nat} (he : h.Extents available) :
    (h.marked checksum assemblyCrc headerCrc).Extents available where
  available := by
    rw [totalSize, start_marked]
    exact he.available
  size := by
    rw [totalSize, start_marked]
    exact he.size
  region kind := by
    rw [regionSize_marked]
    exact he.region kind

theorem read_marked (hread : Header.read data = .ok h) :
    Header.read (data.marked checksum assemblyCrc headerCrc) = .ok (h.marked checksum assemblyCrc headerCrc) := by
  rw [read_ok_iff] at hread ⊢
  obtain ⟨hsize, hsignature, before, after, hdata, hbefore⟩ := hread
  refine ⟨?_, ?_, ?_⟩
  · rwa [Bytes.size_marked]
  · rw [Bytes.marked, Bytes.extract_putField _ _ (.inl (by decide)), Bytes.extract_putField _ _ (.inl (by decide)),
      Bytes.extract_putField _ _ (.inl (by decide)), hsignature]
  · have hnative := toList_putField_nativeChecksum hdata hbefore checksum
    have hassembly := toList_putField_assemblyCrc hnative hbefore assemblyCrc
    have hheader := toList_putField_headerCrc hassembly hbefore headerCrc
    exact ⟨before, after, hheader, hbefore⟩

theorem Spares.cut (hspares : h.Spares kind) :
    (h.marked checksum assemblyCrc headerCrc).cut (data.marked checksum assemblyCrc headerCrc) kind =
      h.cut data kind := by
  unfold Header.cut
  rw [regionSize_marked, start_marked, Bytes.size_marked]
  cases hsize : h.regionSize kind with
  | error fault => simp only [bind, Except.bind]
  | ok size =>
    have hsame : (data.marked checksum assemblyCrc headerCrc).extract (h.start kind) (h.start kind + size) =
        data.extract (h.start kind) (h.start kind + size) := by
      apply Array.ext_getElem?
      intro i
      simp only [Array.getElem?_extract, Bytes.size_marked]
      split
      · next hi =>
        have hcovers : h.Covers kind (h.start kind + i) := ⟨size, hsize, by omega, by omega⟩
        rw [Bytes.getElem?_marked (hspares _ hcovers)]
      · rfl
    simp only [bind, Except.bind, hsame]

end Header

end

namespace Assembly

@[simp] theorem withImage_owners (a : Assembly) (data : Bytes) (header : Header) :
    (a.withImage data header).owners = a.owners := rfl

@[simp] theorem withImage_fieldOffsets (a : Assembly) (data : Bytes) (header : Header) :
    (a.withImage data header).fieldOffsets = a.fieldOffsets := rfl

@[simp] theorem withImage_toImage (a : Assembly) (data : Bytes) (header : Header) :
    (a.withImage data header).toImage = Image.view data header := rfl

variable {a done : Assembly} {layout : BaseLayout} {data : Bytes} {kind : TableKind}
  {checksum assemblyCrc headerCrc : UInt32}

/-- An assembly with the three checksums in its header and its bytes. -/
def marked (a : Assembly) (checksum assemblyCrc headerCrc : UInt32) : Assembly :=
  a.withImage (a.data.marked checksum assemblyCrc headerCrc) (a.header.marked checksum assemblyCrc headerCrc)

/-- Writing back succeeds on whatever holds a header and the stated size, and both checksums of the image are
then right. -/
theorem exists_marked (hlow : Header.size ≤ a.header.totalSize) (hhigh : a.header.totalSize ≤ a.data.size)
    (checksum : UInt32) :
    ∃ assemblyCrc headerCrc,
      (a.setNativeChecksum checksum).updateCrcs = .ok (a.marked checksum assemblyCrc headerCrc) ∧
      assemblyChecksum (a.data.marked checksum assemblyCrc headerCrc) a.header.totalSize = .ok assemblyCrc ∧
      headerChecksum (a.data.marked checksum assemblyCrc headerCrc) = .ok headerCrc := by
  have hsize : a.header.totalSize ≤ (a.data.putField Header.nativeChecksumOffset checksum).size := by
    rwa [Bytes.size_putField]
  obtain ⟨s, hseal, himage, hassembly, hheader⟩ := Bytes.seal_spec hlow hsize
  have himage : s.image = a.data.marked checksum s.assemblyCrc s.headerCrc := himage
  rw [himage] at hassembly hheader
  refine ⟨s.assemblyCrc, s.headerCrc, ?_, hassembly, hheader⟩
  rw [marked, ← himage]
  simp only [updateCrcs, setNativeChecksum, withImage_data, withImage_header, withImage_withImage]
  exact bind_eq_ok.2 ⟨s, hseal, rfl⟩

section
variable (a) (checksum) (assemblyCrc) (headerCrc)

@[simp] theorem data_marked :
    (a.marked checksum assemblyCrc headerCrc).data = a.data.marked checksum assemblyCrc headerCrc := by
  rw [marked, withImage_data]

@[simp] theorem header_marked :
    (a.marked checksum assemblyCrc headerCrc).header = a.header.marked checksum assemblyCrc headerCrc := by
  rw [marked, withImage_header]

@[simp] theorem owners_marked : (a.marked checksum assemblyCrc headerCrc).owners = a.owners := by
  rw [marked, withImage_owners]

@[simp] theorem fieldOffsets_marked : (a.marked checksum assemblyCrc headerCrc).fieldOffsets = a.fieldOffsets := by
  rw [marked, withImage_fieldOffsets]

theorem toImage_marked : (a.marked checksum assemblyCrc headerCrc).toImage =
    Image.view (a.data.marked checksum assemblyCrc headerCrc) (a.header.marked checksum assemblyCrc headerCrc) := by
  rw [marked, withImage_toImage]

theorem count_marked : (a.marked checksum assemblyCrc headerCrc).count = a.count := by
  funext kind
  refine Image.count_congr ?_
  rw [header_marked, Header.regionSize_marked]

theorem recordOffset_marked : (a.marked checksum assemblyCrc headerCrc).recordOffset = a.recordOffset := by
  funext kind i
  simp only [Image.recordOffset, count_marked, header_marked, Header.start_marked]

end

theorem region_marked (hspares : a.header.Spares kind) :
    (a.marked checksum assemblyCrc headerCrc).region kind = a.region kind := by
  rw [Image.region, data_marked, header_marked, hspares.cut, Image.region]

theorem get_marked {ρ : Type} [Row ρ] [LawfulRow ρ] {bytes : Bytes} (hspares : a.header.Spares (Row.kind ρ))
    (hregion : a.region (Row.kind ρ) = .ok bytes) :
    (a.marked checksum assemblyCrc headerCrc).get ρ = a.get ρ :=
  Image.get_congr (by rw [header_marked, Header.start_marked]) (by rw [header_marked, Header.regionSize_marked])
    hregion ((region_marked hspares).trans hregion)

theorem strings_marked (hview : a.toImage = Image.view a.data a.header) (hspares : a.header.Spares .strings) :
    (a.marked checksum assemblyCrc headerCrc).strings = a.strings := by
  have hstrings : a.strings = ((a.header.cut a.data .strings).toOption.getD #[]) := congrArg Image.strings hview
  rw [hstrings, ← hspares.cut, toImage_marked]
  rfl

theorem signatures_marked (hview : a.toImage = Image.view a.data a.header) (hspares : a.header.Spares .signatures) :
    (a.marked checksum assemblyCrc headerCrc).signatures = a.signatures := by
  have hsignatures : a.signatures = ((a.header.cut a.data .signatures).toOption.getD #[]) :=
    congrArg Image.signatures hview
  rw [hsignatures, ← hspares.cut, toImage_marked]
  rfl

theorem alike_marked (h : Assembly.load layout data = .ok a) (hspares : ∀ kind, a.header.Spares kind) :
    a.Alike (a.marked checksum assemblyCrc headerCrc).toImage where
  start _ := by rw [header_marked, Header.start_marked]
  regionSize _ := by rw [header_marked, Header.regionSize_marked]
  region kind := by
    obtain ⟨size, -, hregion⟩ := exists_region_of_load h kind
    exact ⟨_, hregion, (region_marked (hspares kind)).trans hregion⟩
  strings := strings_marked (view_of_load h) (hspares .strings)
  signatures := signatures_marked (view_of_load h) (hspares .signatures)
  assemblyName := rfl
  version := rfl

theorem load_marked (h : Assembly.load layout data = .ok a) (hspares : a.header.Spares .typeDef) :
    Assembly.load layout (a.marked checksum assemblyCrc headerCrc).data =
      .ok (a.marked checksum assemblyCrc headerCrc) := by
  obtain ⟨hread, hdata, he⟩ := extents_of_load h
  obtain ⟨-, howners, hoffsets⟩ := load_ok h
  obtain ⟨size, -, hregion⟩ := exists_region_of_load h .typeDef
  have hcount := count_marked a checksum assemblyCrc headerCrc
  have hget : (a.marked checksum assemblyCrc headerCrc).get TypeDef = a.get TypeDef := get_marked hspares hregion
  refine load_of ?_ ?_ ?_
  · rw [Image.ofBytes_ok_iff, data_marked, toImage_marked, hdata]
    refine ⟨a.header.marked checksum assemblyCrc headerCrc, Header.read_marked hread, ?_, rfl⟩
    rw [Bytes.size_marked]
    exact he.marked
  · rw [Image.resolveOwners_congr hcount hget, owners_marked, howners]
  · rw [Image.resolveOffsets_congr hcount hget, fieldOffsets_marked, hoffsets]

/-- Writing back a checksum of the native methods never fails on a loaded assembly, and each region that holds
none of the twelve bytes keeps what it held; so do the owners and the offsets, which are those of the new bytes
if the types are such a region. -/
theorem write_back_keeps_spared (h : Assembly.load layout data = .ok a) (checksum : UInt32) :
    (∀ kind, Header.nativeChecksumOffset + 4 ≤ a.header.start kind → a.header.Spares kind) ∧
    ∃ done, (a.setNativeChecksum checksum).updateCrcs = .ok done ∧
      Header.read done.data = .ok done.header ∧ done.header.nativeChecksum = checksum ∧
      assemblyChecksum done.data done.header.totalSize = .ok done.header.assemblyCrc ∧
      headerChecksum done.data = .ok done.header.headerCrc ∧
      done.data.size = data.size ∧ (∀ i, ¬ Header.MarkedAt i → done.data[i]? = data[i]?) ∧
      done.count = a.count ∧ done.recordOffset = a.recordOffset ∧
      done.owners = a.owners ∧ done.fieldOffsets = a.fieldOffsets ∧
      (∀ kind, a.header.Spares kind → done.region kind = a.region kind) ∧
      (EveryRow fun ρ => a.header.Spares (Row.kind ρ) → done.get ρ = a.get ρ) ∧
      (a.header.Spares .strings → done.text = a.text ∧ done.name? = a.name?) ∧
      (a.header.Spares .signatures → done.blob = a.blob ∧
        ∀ (α : Type) (reader : SignatureReader α), done.readSignature reader = a.readSignature reader) ∧
      (a.header.Spares .typeDef → Assembly.load layout done.data = .ok done) ∧
      ((∀ kind, a.header.Spares kind) → done.render = a.render) := by
  obtain ⟨hread, hdata, he⟩ := extents_of_load h
  have hview := view_of_load h
  have havailable : a.header.totalSize ≤ a.data.size := hdata ▸ he.available
  obtain ⟨assemblyCrc, headerCrc, hdone, hassembly, hheader⟩ := exists_marked he.size havailable checksum
  refine ⟨fun kind => Header.spares_of_le, a.marked checksum assemblyCrc headerCrc, hdone, ?_⟩
  rw [data_marked, header_marked]
  rw [hdata] at hassembly hheader ⊢
  refine ⟨Header.read_marked hread, rfl, hassembly, hheader, Bytes.size_marked,
    fun i => Bytes.getElem?_marked, count_marked .., recordOffset_marked .., owners_marked ..,
    fieldOffsets_marked .., fun kind => region_marked, .of_lawful fun ρ _ _ hspares => ?_, fun hspares => ?_,
    fun hspares => ?_, fun hspares => ?_, fun hspares => ?_⟩
  · obtain ⟨size, -, hregion⟩ := exists_region_of_load h (Row.kind ρ)
    exact get_marked hspares hregion
  · have hstrings : (a.marked checksum assemblyCrc headerCrc).strings = a.strings := strings_marked hview hspares
    refine ⟨Image.text_congr hstrings, Image.name?_congr hstrings ?_⟩
    rw [header_marked]
    rfl
  · have hsignatures : (a.marked checksum assemblyCrc headerCrc).signatures = a.signatures :=
      signatures_marked hview hspares
    exact ⟨Image.blob_congr hsignatures, fun α reader => Image.readSignature_congr hsignatures reader⟩
  · have hload : Assembly.load layout (a.marked checksum assemblyCrc headerCrc).data = _ := load_marked h hspares
    rwa [data_marked, hdata] at hload
  · exact render_congr (alike_marked h hspares) (fieldOffsets_marked ..)

def headTableHeader : Header :=
  { chainHeader with
    starts := #v[20, 32, 124, 124, 124, 124, 124, 124, 124, 124, 124, 124, 124, 124, 124, 124]
    paddings := #v[0, 92, 0, 0, 0, 0, 0, 0, 0, 0, 0, 0, 0, 0, 0, 0] }

/-- An image with a table of one record in its header, which starts at the checksum of the native methods. -/
def headTable : Assembly where
  toImage := Image.view headTableHeader.encode.toArray headTableHeader
  owners := ⟨#[], #[]⟩
  fieldOffsets := #[]

theorem write_back_moves_headTable :
    ∃ done, Assembly.load .bare headTableHeader.encode.toArray = .ok headTable ∧
      (headTable.setNativeChecksum 1).updateCrcs = .ok done ∧
      headTable.get AssemblyRef 0 = .ok ⟨0, ⟨0xFFFF, 0xFFFF, 0, 0⟩⟩ ∧
      done.get AssemblyRef 0 = .ok ⟨1, ⟨0xFFFF, 0xFFFF, 0, 0⟩⟩ := by
  have hload : Assembly.load .bare headTableHeader.encode.toArray = .ok headTable := by decide +kernel
  have hbefore : headTable.get AssemblyRef 0 = .ok ⟨0, ⟨0xFFFF, 0xFFFF, 0, 0⟩⟩ := by decide +kernel
  have hafter : (do
      let done ← (headTable.setNativeChecksum 1).updateCrcs
      done.get AssemblyRef 0) = .ok ⟨1, ⟨0xFFFF, 0xFFFF, 0, 0⟩⟩ := by decide +kernel
  obtain ⟨done, hdone, hget⟩ := bind_eq_ok.1 hafter
  exact ⟨done, hload, hdone, hbefore, hget⟩

theorem write_back_keeps_spared_chain :
    Assembly.load (fun _ => 5) (chainHeader.encode.toArray ++ chainBody) = .ok chain ∧
      ∃ done, (chain.setNativeChecksum 7).updateCrcs = .ok done ∧ done.get TypeDef = chain.get TypeDef ∧
        Assembly.load (fun _ => 5) done.data = .ok done := by
  obtain ⟨hspares, done, hdone, -, -, -, -, -, -, -, -, -, -, -, hrows, -, -, hload, -⟩ :=
    write_back_keeps_spared load_chain 7
  have htypes : chain.header.Spares .typeDef := hspares _ (by decide +kernel)
  exact ⟨load_chain, done, hdone, hrows.typeDefs htypes, hload htypes⟩

end Assembly

end CompactAssembly
