import CompactAssembly.Artifact.Basic

/-!
# Sinks

A sink takes artifacts, or refuses them with a reason in its own words; it has a state that every call may
change. A `Shelf` is the state of a sink in memory: paths in order, each with what was written to it last.
-/

namespace CompactAssembly

/-- What a sink does with the contents for a path: it takes them or gives its reason. -/
abbrev Sink (σ : Type) := Path → String → σ → Except String Unit × σ

structure Shelf where
  entries : List (Path × String)
  deriving DecidableEq, Repr

namespace Shelf

def empty : Shelf := ⟨[]⟩

/-- Puts contents at their place in the order. A path that is the same place as one already there keeps
the text of the old path. -/
def place (path : Path) (contents : String) : List (Path × String) → List (Path × String)
  | [] => [(path, contents)]
  | (old, other) :: entries =>
    match path.compare old with
    | .lt => (path, contents) :: (old, other) :: entries
    | .eq => (old, contents) :: entries
    | .gt => (old, other) :: place path contents entries

def insert (shelf : Shelf) (path : Path) (contents : String) : Shelf :=
  ⟨place path contents shelf.entries⟩

def find? (shelf : Shelf) (path : Path) : Option String :=
  (shelf.entries.find? fun (old, _) => old.same path).map (·.2)

def sink : Sink Shelf := fun path contents shelf => (.ok (), shelf.insert path contents)

end Shelf

/-- The sink that refuses paths with one of some endings. -/
def Sink.refusing {σ : Type} (sink : Sink σ) (endings : List String) : Sink σ :=
  fun path contents state =>
    if endings.any fun ending => ending.toList.isSuffixOf path.text.toList then
      (.error ("refused " ++ path.text), state)
    else sink path contents state

end CompactAssembly
