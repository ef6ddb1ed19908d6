import CompactAssembly.Artifact.Sink
import CompactAssembly.Artifact.Skeleton

/-!
# Generation

Renders all artifacts, hands them to a sink one by one, and writes the checksum back into the image. A
fault while rendering leaves sink and image alone; a refused artifact is reported and the rest goes on.
-/

namespace CompactAssembly

structure GenerationReport where
  checksum : UInt32
  written : List Path
  /-- Refused paths, each with the reason. -/
  skipped : List (Path × String)
  deriving DecidableEq, Repr

namespace GenerationReport

def record (report : GenerationReport) (path : Path) : Except String Unit → GenerationReport
  | .ok () => { report with written := report.written ++ [path] }
  | .error reason => { report with skipped := report.skipped ++ [(path, reason)] }

end GenerationReport

/-- Hands artifacts to a sink in order. -/
def deliver {σ : Type} (sink : Sink σ) (report : GenerationReport) (state : σ) :
    List Artifact → GenerationReport × σ
  | [] => (report, state)
  | artifact :: artifacts =>
    let (answer, state) := sink artifact.path artifact.contents state
    deliver sink (report.record artifact.path answer) state artifacts

/-- A run of the generator: the report or the fault, the assembly and the sink after it. -/
def Assembly.generate {σ : Type} (a : Assembly) (options : GeneratorOptions) (sink : Sink σ)
    (state : σ) : Except Fault GenerationReport × Assembly × σ :=
  match a.render options with
  | .error fault => (.error fault, a, state)
  | .ok skeleton =>
    let (report, state) := deliver sink ⟨skeleton.checksum, [], []⟩ state skeleton.artifacts
    let marked := a.setNativeChecksum skeleton.checksum
    match marked.updateCrcs with
    | .error fault => (.error fault, marked, state)
    | .ok done => (.ok report, done, state)

end CompactAssembly
