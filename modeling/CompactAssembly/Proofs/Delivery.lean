import CompactAssembly.Proofs.HeaderWrites
import CompactAssembly.Proofs.Lookup

/-!
# What a refusal costs

A run of the generator calls the sink once for each artifact, whatever it answers (`Sink.Serves`), and the
report sorts the paths by the answers. The header is written back afterwards, which cannot fail: an assembly
has the header of its bytes, within their bounds, from when it is loaded on (`Assembly.InStep`).
-/

namespace CompactAssembly

/-- The calls of a sink for artifacts in order: each answers, and the next one finds the state it left. -/
inductive Sink.Serves {σ : Type} (sink : Sink σ) :
    σ → List Artifact → List (Except String Unit) → σ → Prop where
  | nil (state : σ) : Serves sink state [] [] state
  | cons {state next last : σ} {artifact : Artifact} {artifacts : List Artifact}
      {answer : Except String Unit} {answers : List (Except String Unit)} :
      sink artifact.path artifact.contents state = (answer, next) → Serves sink next artifacts answers last →
      Serves sink state (artifact :: artifacts) (answer :: answers) last

/-- The sink that also notes what it is called with. -/
def Sink.noting {σ : Type} (sink : Sink σ) : Sink (σ × List (Path × String)) :=
  fun path contents (state, calls) =>
    let (answer, state) := sink path contents state
    (answer, state, calls ++ [(path, contents)])

namespace Sink.Serves
variable {σ : Type} {sink : Sink σ} {state last : σ} {artifacts : List Artifact}
  {answers : List (Except String Unit)}

theorem length_eq (h : sink.Serves state artifacts answers last) : answers.length = artifacts.length := by
  induction h with
  | nil => rfl
  | cons _ _ ih => rw [List.length_cons, List.length_cons, ih]

theorem paths (h : sink.Serves state artifacts answers last) :
    (artifacts.zip answers).map (·.1.path) = artifacts.map (·.path) := by
  have hfst := List.map_fst_zip (Nat.le_of_eq h.length_eq.symm)
  exact (List.map_map (g := Artifact.path)).symm.trans (congrArg (List.map Artifact.path) hfst)

theorem noting (h : sink.Serves state artifacts answers last) (calls : List (Path × String)) :
    sink.noting.Serves (state, calls) artifacts answers
      (last, calls ++ artifacts.map fun artifact => (artifact.path, artifact.contents)) := by
  induction h generalizing calls with
  | nil => rw [List.map_nil, List.append_nil]; exact .nil _
  | @cons state next last artifact artifacts answer answers hcall _ ih =>
    have hnoted : sink.noting artifact.path artifact.contents (state, calls) =
        (answer, next, calls ++ [(artifact.path, artifact.contents)]) := by
      simp only [Sink.noting, hcall]
    have hrest := ih (calls ++ [(artifact.path, artifact.contents)])
    rw [List.append_assoc, List.singleton_append] at hrest
    exact .cons hnoted hrest

end Sink.Serves

theorem Sink.exists_serves {σ : Type} (sink : Sink σ) (state : σ) (artifacts : List Artifact) :
    ∃ answers last, sink.Serves state artifacts answers last := by
  induction artifacts generalizing state with
  | nil => exact ⟨[], state, .nil state⟩
  | cons artifact artifacts ih =>
    obtain ⟨answers, last, h⟩ := ih (sink artifact.path artifact.contents state).2
    exact ⟨_, last, .cons rfl h⟩

namespace GenerationReport

/-- The paths that were taken, of calls with their answers. -/
def taken (calls : List (Artifact × Except String Unit)) : List Path :=
  calls.filterMap fun
    | (artifact, .ok ()) => some artifact.path
    | (_, .error _) => none

/-- The paths that were refused, each with the reason that was given. -/
def refused (calls : List (Artifact × Except String Unit)) : List (Path × String) :=
  calls.filterMap fun
    | (_, .ok ()) => none
    | (artifact, .error reason) => some (artifact.path, reason)

theorem taken_append_refused (calls : List (Artifact × Except String Unit)) :
    (taken calls ++ (refused calls).map (·.1)).Perm (calls.map (·.1.path)) := by
  induction calls with
  | nil => exact .nil
  | cons call calls ih =>
    obtain ⟨artifact, (reason | ⟨⟨⟩⟩)⟩ := call
    · exact List.perm_middle.trans (ih.cons artifact.path)
    · exact ih.cons artifact.path

end GenerationReport

theorem Sink.Serves.deliver_eq {σ : Type} {sink : Sink σ} {state last : σ} {artifacts : List Artifact}
    {answers : List (Except String Unit)} (h : sink.Serves state artifacts answers last)
    (report : GenerationReport) :
    deliver sink report state artifacts =
      (⟨report.checksum, report.written ++ GenerationReport.taken (artifacts.zip answers),
        report.skipped ++ GenerationReport.refused (artifacts.zip answers)⟩, last) := by
  induction h generalizing report with
  | nil =>
    unfold deliver
    simp only [List.zip_nil_left, GenerationReport.taken, GenerationReport.refused, List.filterMap_nil,
      List.append_nil]
  | @cons state next last artifact artifacts answer answers hcall _ ih =>
    unfold deliver
    simp only [hcall]
    rw [ih]
    rcases answer with reason | ⟨⟨⟩⟩ <;>
      simp only [GenerationReport.record, GenerationReport.taken, GenerationReport.refused, List.zip_cons_cons,
        List.filterMap_cons, List.append_assoc, List.singleton_append]

namespace Header
variable {h : Header} {data : Bytes}

theorem read_putNativeChecksum (hread : Header.read data = .ok h) (checksum : UInt32) :
    Header.read (data.putField nativeChecksumOffset checksum) = .ok { h with nativeChecksum := checksum } := by
  rw [read_ok_iff] at hread ⊢
  obtain ⟨hsize, hsignature, before, after, hdata, hbefore⟩ := hread
  refine ⟨?_, ?_, before, after, toList_putField_nativeChecksum hdata hbefore checksum, hbefore⟩
  · rwa [Bytes.size_putField]
  · rw [Bytes.extract_putField _ _ (.inl (by decide))]
    exact hsignature

theorem read_putCrcs (hread : Header.read data = .ok h) (assemblyCrc headerCrc : UInt32) :
    Header.read ((data.putField assemblyCrcOffset assemblyCrc).putField headerCrcOffset headerCrc) =
      .ok { h with assemblyCrc := assemblyCrc, headerCrc := headerCrc } := by
  rw [read_ok_iff] at hread ⊢
  obtain ⟨hsize, hsignature, before, after, hdata, hbefore⟩ := hread
  have hassembly := toList_putField_assemblyCrc hdata hbefore assemblyCrc
  refine ⟨?_, ?_, before, after, toList_putField_headerCrc hassembly hbefore headerCrc, hbefore⟩
  · rwa [Bytes.size_putField, Bytes.size_putField]
  · rw [Bytes.extract_putField _ _ (.inl (by decide)), Bytes.extract_putField _ _ (.inl (by decide))]
    exact hsignature

end Header

namespace Assembly
variable {a done : Assembly} {layout : BaseLayout} {data : Bytes}

/-- The header is that of the bytes, and what it names lies within them. -/
structure InStep (a : Assembly) : Prop where
  read : Header.read a.data = .ok a.header
  extents : a.header.Extents a.data.size

theorem inStep_of_load (h : Assembly.load layout data = .ok a) : a.InStep := by
  obtain ⟨hread, hdata, he⟩ := extents_of_load h
  constructor
  · rwa [hdata]
  · rwa [hdata]

namespace InStep

theorem setNativeChecksum (h : a.InStep) (checksum : UInt32) : (a.setNativeChecksum checksum).InStep where
  read := by
    rw [Assembly.setNativeChecksum, withImage_data, withImage_header]
    exact Header.read_putNativeChecksum h.read checksum
  extents := by
    have hmarked : (a.header.marked checksum a.header.assemblyCrc a.header.headerCrc).Extents a.data.size :=
      h.extents.marked
    rw [Assembly.setNativeChecksum, withImage_data, withImage_header, Bytes.size_putField]
    exact hmarked

/-- The checksums of an image can be written whenever its header is in step, and they are right then. -/
theorem exists_updateCrcs (h : a.InStep) :
    ∃ done, a.updateCrcs = .ok done ∧ done.InStep ∧
      done.header.nativeChecksum = a.header.nativeChecksum ∧
      assemblyChecksum done.data done.header.totalSize = .ok done.header.assemblyCrc ∧
      headerChecksum done.data = .ok done.header.headerCrc := by
  obtain ⟨s, hseal, himage, hassembly, hheader⟩ := Bytes.seal_spec h.extents.size h.extents.available
  refine ⟨_, bind_eq_ok.2 ⟨s, hseal, rfl⟩, ⟨?_, ?_⟩, rfl, hassembly, hheader⟩
  · show Header.read s.image = _
    rw [himage]
    exact Header.read_putCrcs h.read s.assemblyCrc s.headerCrc
  · have hmarked : (a.header.marked a.header.nativeChecksum s.assemblyCrc s.headerCrc).Extents a.data.size :=
      h.extents.marked
    show Header.Extents _ s.image.size
    rw [himage, Bytes.size_putField, Bytes.size_putField]
    exact hmarked

end InStep

/-- An assembly since it was loaded: its header may have been written to. -/
inductive Loaded (layout : BaseLayout) : Assembly → Prop where
  | load {data : Bytes} {a : Assembly} : Assembly.load layout data = .ok a → Loaded layout a
  | setNativeChecksum {a : Assembly} (checksum : UInt32) :
      Loaded layout a → Loaded layout (a.setNativeChecksum checksum)
  | updateCrcs {a done : Assembly} : Loaded layout a → a.updateCrcs = .ok done → Loaded layout done

theorem Loaded.inStep (h : Loaded layout a) : a.InStep := by
  induction h with
  | load h => exact inStep_of_load h
  | setNativeChecksum checksum _ ih => exact ih.setNativeChecksum checksum
  | updateCrcs _ hdone ih =>
    obtain ⟨done, hdone', hstep, -⟩ := ih.exists_updateCrcs
    cases hdone.symm.trans hdone'
    exact hstep

section
variable {options : GeneratorOptions} {fault : Fault} {skeleton : Skeleton} {σ : Type} {sink : Sink σ}
  {state last : σ} {answers : List (Except String Unit)}

theorem generate_of_error (hrender : a.render options = .error fault) (sink : Sink σ) (state : σ) :
    a.generate options sink state = (.error fault, a, state) := by
  unfold generate
  rw [hrender]

theorem generate_of_serves (hrender : a.render options = .ok skeleton)
    (hdone : (a.setNativeChecksum skeleton.checksum).updateCrcs = .ok done)
    (hserves : sink.Serves state skeleton.artifacts answers last) :
    a.generate options sink state =
      (.ok ⟨skeleton.checksum, GenerationReport.taken (skeleton.artifacts.zip answers),
        GenerationReport.refused (skeleton.artifacts.zip answers)⟩, done, last) := by
  unfold generate
  rw [hrender]
  dsimp only
  rw [hserves.deliver_eq, hdone]
  rfl

end

/-- A run fails only where rendering does, before it has called the sink or touched the image. Otherwise the
sink is called once for each artifact and the header is written back, whatever the sink answers. -/
theorem generate_serves {σ : Type} (h : Loaded layout a) (options : GeneratorOptions) (sink : Sink σ)
    (state : σ) :
    ((∃ fault, (a.generate options sink state).1 = .error fault) ↔ ∃ fault, a.render options = .error fault) ∧
    (∀ fault, a.render options = .error fault →
      a.generate options sink state = (.error fault, a, state) ∧
      a.generate options sink.noting (state, []) = (.error fault, a, state, [])) ∧
    ∀ skeleton, a.render options = .ok skeleton → ∃ answers last done report,
      sink.Serves state skeleton.artifacts answers last ∧
      a.generate options sink state = (.ok report, done, last) ∧
      a.generate options sink.noting (state, []) =
        (.ok report, done, last, skeleton.artifacts.map fun artifact => (artifact.path, artifact.contents)) ∧
      report.checksum = skeleton.checksum ∧
      answers.length = skeleton.artifacts.length ∧
      report.written = GenerationReport.taken (skeleton.artifacts.zip answers) ∧
      report.skipped = GenerationReport.refused (skeleton.artifacts.zip answers) ∧
      (report.written ++ report.skipped.map (·.1)).Perm (skeleton.artifacts.map (·.path)) ∧
      Header.read done.data = .ok done.header ∧ done.header.nativeChecksum = skeleton.checksum ∧
      assemblyChecksum done.data done.header.totalSize = .ok done.header.assemblyCrc ∧
      headerChecksum done.data = .ok done.header.headerCrc := by
  refine ⟨⟨?_, ?_⟩, fun fault hrender => ⟨generate_of_error hrender .., generate_of_error hrender ..⟩, ?_⟩
  -- once the skeleton is rendered nothing fails: a refusal only counts the artifact as skipped
  · rintro ⟨fault, hfault⟩
    cases hrender : a.render options with
    | error fault => exact ⟨fault, rfl⟩
    | ok skeleton =>
      obtain ⟨done, hdone, -⟩ := (h.inStep.setNativeChecksum skeleton.checksum).exists_updateCrcs
      obtain ⟨answers, last, hserves⟩ := sink.exists_serves state skeleton.artifacts
      rw [generate_of_serves hrender hdone hserves] at hfault
      cases hfault
  · rintro ⟨fault, hrender⟩
    exact ⟨fault, by rw [generate_of_error hrender]⟩
  · intro skeleton hrender
    obtain ⟨done, hdone, hstep, hnative, hassembly, hheader⟩ :=
      (h.inStep.setNativeChecksum skeleton.checksum).exists_updateCrcs
    obtain ⟨answers, last, hserves⟩ := sink.exists_serves state skeleton.artifacts
    refine ⟨answers, last, done, _, hserves, generate_of_serves hrender hdone hserves,
      generate_of_serves hrender hdone (hserves.noting []), rfl, hserves.length_eq, rfl, rfl, ?_, hstep.read,
      hnative, hassembly, hheader⟩
    rw [← hserves.paths]
    exact GenerationReport.taken_append_refused _

/-- A sink that refuses every second artifact. -/
theorem generate_serves_home :
    ∃ skeleton report done last, Loaded .bare Draft.home ∧ Draft.home.render Draft.homeOptions = .ok skeleton ∧
      Draft.home.generate Draft.homeOptions
          (fun path _ n => (if n % 2 = 0 then .ok () else .error ("no room for " ++ path.text), n + 1)) 0 =
        (.ok report, done, last) ∧
      (report.written ++ report.skipped.map (·.1)).Perm (skeleton.artifacts.map (·.path)) ∧
      Header.read done.data = .ok done.header ∧ done.header.nativeChecksum = skeleton.checksum := by
  have hloaded : Loaded .bare Draft.home := .load Draft.load_home
  obtain ⟨skeleton, hrender⟩ := Draft.render_home
  obtain ⟨answers, last, done, report, -, hgenerate, -, -, -, -, -, hcover, hread, hnative, -⟩ :=
    (generate_serves hloaded Draft.homeOptions
      (fun path _ n => (if n % 2 = 0 then .ok () else .error ("no room for " ++ path.text), n + 1)) 0).2.2
      skeleton hrender
  exact ⟨skeleton, report, done, last, hloaded, hrender, hgenerate, hcover, hread, hnative⟩

end Assembly

end CompactAssembly
