import CompactAssembly.Proofs.HeaderWrites
import CompactAssembly.Proofs.Lookup

/-!
# The generator writes back once

A run of the generator on the image of a draft patches three header fields. The image is then laid out as
before under the patched header (`Draft.Marks`), so it answers alike, loads to the same assembly and renders
the same; what a second run would write is there already (`Marks.again`).
-/

namespace CompactAssembly

namespace Draft
variable {c : Draft} {header header' : Header} {data data' : Bytes} {a : Assembly} {checksum : UInt32}

namespace Laid

/-- The same regions under two headers. -/
theorem alike (h : c.Laid header data) (h' : c.Laid header' data')
    (hname : header'.assemblyName = header.assemblyName) (hversion : header'.version = header.version) :
    (Image.view data header).Alike (Image.view data' header') where
  start kind := (h'.start kind).trans (h.start kind).symm
  regionSize kind := (h'.regionSize kind).trans (h.regionSize kind).symm
  region kind := ⟨c.region kind, h.cut kind, h'.cut kind⟩
  strings := by simp only [Image.view, h.cut, h'.cut]
  signatures := by simp only [Image.view, h.cut, h'.cut]
  assemblyName := hname
  version := hversion

theorem eq (h : c.Laid header data) (h' : c.Laid header data') : data = data' :=
  Array.toList_inj.1 (h.toList.trans h'.toList.symm)

end Laid

/-- An assembly that holds the regions of a draft, under a header with this checksum of the native methods
and both checksums of the image. -/
structure Marks (c : Draft) (checksum : UInt32) (a : Assembly) : Prop where
  view : a.toImage = Image.view a.data a.header
  laid : c.Laid a.header a.data
  nativeChecksum : a.header.nativeChecksum = checksum
  assemblyCrc : assemblyChecksum a.data a.header.totalSize = .ok a.header.assemblyCrc
  headerCrc : headerChecksum a.data = .ok a.header.headerCrc

/-- Writing back succeeds, and changes the three fields only. -/
theorem Laid.exists_marks (h : c.Laid a.header a.data) (checksum : UInt32) :
    ∃ done, (a.setNativeChecksum checksum).updateCrcs = .ok done ∧ c.Marks checksum done ∧
      done = a.withImage done.data done.header ∧ done.data.size = a.data.size ∧
      done.header.assemblyName = a.header.assemblyName ∧ done.header.version = a.header.version ∧
      ∀ i, done.data[i]? ≠ a.data[i]? → (8 ≤ i ∧ i < 16) ∨ (20 ≤ i ∧ i < 24) := by
  have hlow : Header.size ≤ a.header.totalSize := by
    have := h.totalSize
    have := h.size
    omega
  obtain ⟨assemblyCrc, headerCrc, hdone, hassembly, hheader⟩ :=
    Assembly.exists_marked hlow (Nat.le_of_eq h.totalSize) checksum
  have hlaid : c.Laid (a.header.marked checksum assemblyCrc headerCrc)
      (a.data.marked checksum assemblyCrc headerCrc) :=
    ((h.putNativeChecksum checksum).putAssemblyCrc assemblyCrc).putHeaderCrc headerCrc
  have hdata := a.data_marked checksum assemblyCrc headerCrc
  have hheader' := a.header_marked checksum assemblyCrc headerCrc
  refine ⟨a.marked checksum assemblyCrc headerCrc, hdone, ?_, ?_, ?_, ?_, ?_, fun i hi => ?_⟩
  · constructor
    · rw [hdata, hheader']
      exact a.toImage_marked checksum assemblyCrc headerCrc
    · rwa [hdata, hheader']
    · rw [hheader', Header.marked]
    · rw [hdata, hheader', Header.totalSize, Header.start_marked]
      exact hassembly
    · rw [hdata, hheader']
      exact hheader
  · rw [hdata, hheader', Assembly.marked]
  · rw [hdata, Bytes.size_marked]
  · rw [hheader', Header.marked]
  · rw [hheader', Header.marked]
  · by_contra hout
    rw [hdata] at hi
    exact hi (Bytes.getElem?_marked hout)

theorem Marks.again (h : c.Marks checksum a) : (a.setNativeChecksum checksum).updateCrcs = .ok a := by
  have hself : a.withImage a.data a.header = a := by
    rw [Assembly.withImage, ← h.view]
  have hnative : a.data.putField Header.nativeChecksumOffset checksum = a.data := by
    have hput := h.laid.putNativeChecksum a.header.nativeChecksum
    rw [h.nativeChecksum] at hput
    exact hput.eq (h.nativeChecksum ▸ h.laid)
  have hassembly : a.data.putField Header.assemblyCrcOffset a.header.assemblyCrc = a.data :=
    (h.laid.putAssemblyCrc a.header.assemblyCrc).eq h.laid
  have hheader : a.data.putField Header.headerCrcOffset a.header.headerCrc = a.data :=
    (h.laid.putHeaderCrc a.header.headerCrc).eq h.laid
  have hmarked : a.setNativeChecksum checksum = a := by
    rw [Assembly.setNativeChecksum, hnative, ← h.nativeChecksum]
    exact hself
  have hseal : a.data.seal a.header.totalSize =
      .ok ⟨a.header.assemblyCrc, a.header.headerCrc, a.data⟩ := by
    simp only [Bytes.seal, h.assemblyCrc, bind, Except.bind, hassembly, h.headerCrc, hheader, pure, Except.pure]
  rw [hmarked, Assembly.updateCrcs, hseal]
  exact congrArg Except.ok hself

end Draft

theorem checksum_deliver {σ : Type} (sink : Sink σ) (artifacts : List Artifact) (report : GenerationReport)
    (state : σ) : (deliver sink report state artifacts).1.checksum = report.checksum := by
  induction artifacts generalizing report state with
  | nil => rfl
  | cons artifact artifacts ih =>
    unfold deliver
    rw [ih]
    cases (sink artifact.path artifact.contents state).1 <;> rfl

namespace Assembly
variable {a done : Assembly} {options : GeneratorOptions} {σ : Type} {sink : Sink σ} {state state' : σ}
  {report : GenerationReport}

theorem generate_ok (h : a.generate options sink state = (.ok report, done, state')) :
    ∃ skeleton, a.render options = .ok skeleton ∧ report.checksum = skeleton.checksum ∧
      (a.setNativeChecksum skeleton.checksum).updateCrcs = .ok done := by
  unfold generate at h
  split at h
  · cases h
  next skeleton hrender =>
    dsimp only at h
    split at h
    · cases h
    next hdone =>
      cases h
      exact ⟨skeleton, hrender, checksum_deliver .., hdone⟩

theorem exists_generate {skeleton : Skeleton} (hrender : a.render options = .ok skeleton)
    (hdone : (a.setNativeChecksum skeleton.checksum).updateCrcs = .ok done) (sink : Sink σ) (state : σ) :
    ∃ report state', a.generate options sink state = (.ok report, done, state') ∧
      report.checksum = skeleton.checksum := by
  unfold generate
  simp only [hrender, hdone]
  exact ⟨_, _, rfl, checksum_deliver ..⟩

end Assembly

namespace Draft
variable {layout : BaseLayout} {data : Bytes} {a done : Assembly} {options : GeneratorOptions}

/-- The generator changes an image of a draft only where it marks it. The marked image is whole, loads to
the same assembly and renders the same, and a second run changes nothing. -/
theorem generate_writes_back_once {name : String} {version : Version} {steps : List Step} {σ : Type}
    {sink : Sink σ} {state state' : σ} {report : GenerationReport}
    (himage : (built name version steps).image = .ok data) (hload : Assembly.load layout data = .ok a)
    (hgenerate : a.generate options sink state = (.ok report, done, state')) :
    done.data.size = data.size ∧
    (∀ i, done.data[i]? ≠ data[i]? → (8 ≤ i ∧ i < 16) ∨ (20 ≤ i ∧ i < 24)) ∧
    Header.read done.data = .ok done.header ∧
    done.header.nativeChecksum = report.checksum ∧
    assemblyChecksum done.data done.header.totalSize = .ok done.header.assemblyCrc ∧
    headerChecksum done.data = .ok done.header.headerCrc ∧
    Assembly.load layout done.data = .ok done ∧
    (EveryRow fun ρ => done.get ρ = a.get ρ) ∧ done.count = a.count ∧ done.region = a.region ∧
    done.owners = a.owners ∧ done.fieldOffsets = a.fieldOffsets ∧
    (∀ options, done.render options = a.render options) ∧
    (∃ skeleton, done.render options = .ok skeleton ∧ skeleton.checksum = report.checksum) ∧
    ∀ (τ : Type) (sink : Sink τ) (state : τ), ∃ again state',
      done.generate options sink state = (.ok again, done, state') ∧ again.checksum = report.checksum := by
  obtain ⟨header, hc⟩ := closes_of_image himage
  have hview := hc.toImage hload
  have hlaid : (built name version steps).closed.Laid a.header a.data := by
    rw [hview]
    exact hc.laid
  obtain ⟨skeleton, hrender, hchecksum, hdone⟩ := Assembly.generate_ok hgenerate
  obtain ⟨done', hdone', hmarks, hsame, hsize, hname, hversion, hframe⟩ := hlaid.exists_marks skeleton.checksum
  cases hdone.symm.trans hdone'
  have halike : a.Alike done.toImage := by
    rw [hmarks.view, show a.toImage = Image.view a.data a.header by rw [hview]; rfl]
    exact hlaid.alike hmarks.laid hname hversion
  have howners : done.owners = a.owners := by rw [hsame]; rfl
  have hoffsets : done.fieldOffsets = a.fieldOffsets := by rw [hsame]; rfl
  have hrender' : done.render = a.render := Assembly.render_congr halike hoffsets
  have hdata : a.data = data := by rw [hview]; rfl
  rw [hdata] at hsize hframe
  refine ⟨hsize, hframe, hmarks.laid.read, hmarks.nativeChecksum.trans hchecksum.symm, hmarks.assemblyCrc,
    hmarks.headerCrc, ?_, .of_lawful fun ρ _ _ => halike.get ρ, halike.count, ?_, howners, hoffsets,
    fun options => congrFun hrender' options, ⟨skeleton, by rw [hrender', hrender], hchecksum.symm⟩,
    fun τ sink state => ?_⟩
  · refine Assembly.load_congr halike howners hoffsets ?_ hload
    rw [hmarks.laid.ofBytes, ← hmarks.view]
  · funext kind
    obtain ⟨bytes, hbytes, hbytes'⟩ := halike.region kind
    rw [hbytes, hbytes']
  · obtain ⟨again, state', hagain, hchecksum'⟩ :=
      Assembly.exists_generate ((congrFun hrender' options).trans hrender) hmarks.again sink state
    exact ⟨again, state', hagain, hchecksum'.trans hchecksum.symm⟩

/-- A sink that takes no sources. -/
theorem generate_writes_back_once_home :
    ∃ report done shelf, homeDraft.image = .ok homeImage ∧ Assembly.load .bare homeImage = .ok home ∧
      home.generate homeOptions (Shelf.sink.refusing [".cpp"]) .empty = (.ok report, done, shelf) ∧
      done.header.nativeChecksum = report.checksum ∧ Assembly.load .bare done.data = .ok done := by
  obtain ⟨header, hc⟩ := closes_of_image image_home
  have hlaid : homeDraft.closed.Laid home.header home.data := by
    rw [hc.toImage load_home]
    exact hc.laid
  obtain ⟨skeleton, hrender⟩ := render_home
  obtain ⟨done, hdone, -⟩ := hlaid.exists_marks skeleton.checksum
  obtain ⟨report, shelf, hgenerate, -⟩ :=
    Assembly.exists_generate hrender hdone (Shelf.sink.refusing [".cpp"]) .empty
  obtain ⟨-, -, -, hchecksum, -, -, hload, -⟩ := generate_writes_back_once image_home load_home hgenerate
  exact ⟨report, done, shelf, image_home, load_home, hgenerate, hchecksum, hload⟩

end Draft

end CompactAssembly
