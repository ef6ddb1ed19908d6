import CompactAssembly.Artifact.BuildModule
import CompactAssembly.Artifact.Lookup
import CompactAssembly.Artifact.Stub

/-!
# Skeletons

All artifacts of an assembly with the checksum of its native methods. Rendering reads the assembly and
writes nothing.
-/

namespace CompactAssembly

structure Skeleton where
  checksum : UInt32
  artifacts : List Artifact
  deriving DecidableEq, Repr

namespace Skeleton

def artifact? (s : Skeleton) (kind : ArtifactKind) : Option Artifact :=
  s.artifacts.find? fun artifact => artifact.kind = kind

end Skeleton

namespace ArtifactKind

def isLibrarySource : ArtifactKind → Bool
  | lookup | marshal | stubSource => true
  | header | stubHeader | librarySource | buildModule => false

end ArtifactKind

namespace Assembly

/-- The artifacts that a library has besides header and lookup table: three for each type with native
methods, and the build module. -/
def libraryArtifacts (a : Assembly) (policy : NamingPolicy) (fileName assemblyName : String)
    (stem : Path) (lookup : Artifact) (plans : List TypePlan) : Except Fault (List Artifact) := do
  let units ← plans.mapM (a.stubUnit policy)
  let perType := units.flatMap fun u => u.artifacts fileName stem
  let sources := (lookup :: perType).filter fun artifact => artifact.kind.isLibrarySource
  let buildModule : Artifact := {
    kind := .buildModule
    path := stem.sibling s!"FindINTEROP-{assemblyName}.cmake"
    contents := BuildModule.text assemblyName (sources.map Artifact.fileName) }
  return perType ++ [buildModule]

def render (a : Assembly) (options : GeneratorOptions) : Except Fault Skeleton := do
  let fileName ← options.fileName
  let stem ← options.stem
  let assemblyName ← match a.name? with
    | some name => pure name
    | none => throw Fault.unnamedAssembly
  let assemblyId := Text.replaceChar '.' '_' assemblyName
  let plans ← a.plan options.policy
  let checksum := nativeChecksum plans assemblyName
  let headerPath := stem.extended ".h"
  let headerText ← a.headerText options.mode fileName (Naming.headerGuard headerPath) assemblyId plans
  let project ← options.project
  let header : Artifact := ⟨.header, headerPath, headerText⟩
  let table : LookupTable := {
    banner := match options.mode with
      | .interop => Artifact.keepOutBanner
      | .coreLibrary => ""
    includeFile := match options.mode with
      | .interop => fileName ++ ".h"
      | .coreLibrary => project ++ ".h"
    fileName, assemblyId, assemblyName, checksum
    version := match options.mode with
      | .interop => a.header.version
      | .coreLibrary => Version.zero
    slots := slots plans }
  let lookup : Artifact := ⟨.lookup, stem.extended ".cpp", table.text⟩
  let nativePlans := plans.filter fun plan => !plan.natives.isEmpty
  let others ← match options.mode with
    | .interop => a.libraryArtifacts options.policy fileName assemblyName stem lookup nativePlans
    | .coreLibrary =>
      pure (nativePlans.map fun plan => plan.libraryArtifact fileName project stem)
  return ⟨checksum, header :: lookup :: others⟩

end Assembly

end CompactAssembly
