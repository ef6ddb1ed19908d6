import CompactAssembly.Artifact.Skeleton
import CompactAssembly.Proofs.Traversal

/-!
# The parts of a skeleton

What a rendering is made of, as equations between its parts: `render_ok_iff` for the whole,
`headerText_ok_iff` for the header, `libraryArtifacts_ok_iff` for the files of a library, `of_stubUnit` for those of
one type. Each part follows one plan of the assembly.
-/

namespace CompactAssembly

/-- The unit of stubs for a planned type: the scope that its name gives, and a stub for each native method in order. -/
structure StubUnit.Of (a : Assembly) (policy : NamingPolicy) (plan : TypePlan) (u : StubUnit) : Prop where
  className : u.className = plan.className
  scope : a.stubScope plan.index = .ok (u.namespaces, u.structName)
  accessors : plan.record.instanceFields.toList.mapM a.fieldAccessor = .ok u.accessors
  stubs : List.Forall₂ (fun x y => y.1 = x.2 ∧ a.stub policy x.1 x.2.signature = .ok y.2) plan.natives u.stubs

/-- The text of a header around the blocks of its types. -/
def headerFrame (mode : GenerationMode) (guard assemblyId blocks : String) : String :=
  (match mode with
    | .interop =>
      Artifact.keepOutBanner ++ Artifact.openGuard guard ++
        "#include <nanoCLR_Interop.h>\n#include <nanoCLR_Runtime.h>\n"
    | .coreLibrary => Artifact.copyFirstBanner ++ Artifact.openGuard guard) ++
  blocks ++ s!"\n\nextern const CLR_RT_NativeAssemblyData g_CLR_AssemblyNative_{assemblyId};\n\n" ++
    Artifact.closeGuard guard

namespace Assembly
variable {a : Assembly}

theorem headerText_ok_iff {mode : GenerationMode} {fileName guard assemblyId text : String}
    {plans : List TypePlan} :
    a.headerText mode fileName guard assemblyId plans = .ok text ↔
      ∃ blocks, a.headerBlocks 0 plans = .ok blocks ∧ text =
        headerFrame mode guard assemblyId (String.join (blocks.map fun block => block.text fileName)) := by
  unfold headerText
  simp only [bind_eq_ok]
  constructor
  · rintro ⟨blocks, hblocks, ⟨⟩⟩
    exact ⟨blocks, hblocks, rfl⟩
  · rintro ⟨blocks, hblocks, rfl⟩
    exact ⟨blocks, hblocks, rfl⟩

theorem of_stubUnit {policy : NamingPolicy} {plan : TypePlan} {u : StubUnit} (h : a.stubUnit policy plan = .ok u) :
    u.Of a policy plan := by
  obtain ⟨⟨namespaces, structName⟩, hscope, h⟩ := bind_eq_ok.1 h
  obtain ⟨stubs, hstubs, h⟩ := bind_eq_ok.1 h
  obtain ⟨accessors, haccessors, h⟩ := bind_eq_ok.1 h
  cases h
  refine ⟨rfl, hscope, haccessors, (mapM_eq_ok.1 hstubs).imp fun x y hstub => ?_⟩
  obtain ⟨stub, hmade, hstub⟩ := bind_eq_ok.1 hstub
  cases hstub
  exact ⟨rfl, hmade⟩

/-- The build module of a library with these files. -/
def buildModule (assemblyName : String) (stem : Path) (files : List Artifact) : Artifact where
  kind := .buildModule
  path := stem.sibling s!"FindINTEROP-{assemblyName}.cmake"
  contents := BuildModule.text assemblyName
    ((files.filter fun artifact => artifact.kind.isLibrarySource).map Artifact.fileName)

theorem libraryArtifacts_ok_iff {policy : NamingPolicy} {fileName assemblyName : String} {stem : Path}
    {lookup : Artifact} {plans : List TypePlan} {others : List Artifact} :
    a.libraryArtifacts policy fileName assemblyName stem lookup plans = .ok others ↔
      ∃ units, plans.mapM (a.stubUnit policy) = .ok units ∧ others =
        (units.flatMap fun u => u.artifacts fileName stem) ++
          [buildModule assemblyName stem (lookup :: units.flatMap fun u => u.artifacts fileName stem)] := by
  unfold libraryArtifacts
  simp only [bind_eq_ok]
  constructor
  · rintro ⟨units, hunits, ⟨⟩⟩
    exact ⟨units, hunits, rfl⟩
  · rintro ⟨units, hunits, rfl⟩
    exact ⟨units, hunits, rfl⟩

/-- The lookup table of an assembly under a plan. -/
def lookupTable (a : Assembly) (mode : GenerationMode) (fileName project assemblyName : String)
    (plans : List TypePlan) : LookupTable where
  banner := match mode with
    | .interop => Artifact.keepOutBanner
    | .coreLibrary => ""
  includeFile := match mode with
    | .interop => fileName ++ ".h"
    | .coreLibrary => project ++ ".h"
  fileName
  assemblyId := Text.replaceChar '.' '_' assemblyName
  assemblyName
  checksum := nativeChecksum plans assemblyName
  version := match mode with
    | .interop => a.header.version
    | .coreLibrary => Version.zero
  slots := slots plans

/-- What is rendered besides header and lookup table, from the plans of the types with native methods. -/
def otherArtifacts (a : Assembly) (options : GeneratorOptions) (fileName project assemblyName : String)
    (stem : Path) (lookup : Artifact) (plans : List TypePlan) : Except Fault (List Artifact) :=
  match options.mode with
  | .interop => a.libraryArtifacts options.policy fileName assemblyName stem lookup plans
  | .coreLibrary => .ok (plans.map fun plan => plan.libraryArtifact fileName project stem)

theorem stem_eq {options : GeneratorOptions} {fileName : String} (h : options.fileName = .ok fileName) :
    options.stem = .ok (options.path.sibling fileName) := by
  rw [GeneratorOptions.stem, h]
  rfl

theorem render_ok_iff {options : GeneratorOptions} {skeleton : Skeleton} :
    a.render options = .ok skeleton ↔
      ∃ fileName assemblyName project plans text others, ∃ stem : Path,
        options.fileName = .ok fileName ∧ stem = options.path.sibling fileName ∧
        a.name? = some assemblyName ∧ options.project = .ok project ∧
        a.plan options.policy = .ok plans ∧
        a.headerText options.mode fileName (Naming.headerGuard (stem.extended ".h"))
          (Text.replaceChar '.' '_' assemblyName) plans = .ok text ∧
        a.otherArtifacts options fileName project assemblyName stem
          ⟨.lookup, stem.extended ".cpp", (a.lookupTable options.mode fileName project assemblyName plans).text⟩
          (plans.filter fun plan => !plan.natives.isEmpty) = .ok others ∧
        skeleton = ⟨nativeChecksum plans assemblyName, ⟨.header, stem.extended ".h", text⟩ ::
          ⟨.lookup, stem.extended ".cpp", (a.lookupTable options.mode fileName project assemblyName plans).text⟩ ::
            others⟩ := by
  unfold render otherArtifacts
  constructor
  · intro h
    obtain ⟨fileName, hfile, h⟩ := bind_eq_ok.1 h
    obtain ⟨stem, hstem, h⟩ := bind_eq_ok.1 h
    cases (stem_eq hfile).symm.trans hstem
    cases hname : a.name? with
    | none =>
      rw [hname] at h
      cases h
    | some assemblyName =>
      rw [hname] at h
      obtain ⟨_, ⟨⟩, h⟩ := bind_eq_ok.1 h
      obtain ⟨plans, hplans, h⟩ := bind_eq_ok.1 h
      obtain ⟨text, htext, h⟩ := bind_eq_ok.1 h
      obtain ⟨project, hproject, h⟩ := bind_eq_ok.1 h
      -- the continuation stands in both branches of the mode, so it is taken apart in each
      generalize options.mode = mode at htext h ⊢
      refine ⟨fileName, assemblyName, project, plans, text, ?_⟩
      cases mode with
      | interop =>
        obtain ⟨others, hothers, h⟩ := bind_eq_ok.1 h
        cases h
        exact ⟨others, _, hfile, rfl, rfl, hproject, hplans, htext, hothers, rfl⟩
      | coreLibrary =>
        obtain ⟨others, hothers, h⟩ := bind_eq_ok.1 h
        cases h
        exact ⟨others, _, hfile, rfl, rfl, hproject, hplans, htext, hothers, rfl⟩
  · rintro ⟨fileName, assemblyName, project, plans, text, others, stem, hfile, rfl, hname, hproject, hplans, htext,
      hothers, rfl⟩
    refine bind_eq_ok.2 ⟨fileName, hfile, bind_eq_ok.2 ⟨_, stem_eq hfile, ?_⟩⟩
    rw [hname]
    refine bind_eq_ok.2 ⟨assemblyName, rfl, bind_eq_ok.2 ⟨plans, hplans, bind_eq_ok.2 ⟨text, htext, ?_⟩⟩⟩
    refine bind_eq_ok.2 ⟨project, hproject, ?_⟩
    generalize options.mode = mode at hothers ⊢
    cases mode with
    | interop => exact bind_eq_ok.2 ⟨others, hothers, rfl⟩
    | coreLibrary => exact bind_eq_ok.2 ⟨others, hothers, rfl⟩

end Assembly

end CompactAssembly
