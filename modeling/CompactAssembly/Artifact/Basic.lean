import CompactAssembly.Text.Path

/-!
# Artifacts

The files that the generator writes, and the blocks of text that several of them share.
-/

namespace CompactAssembly

inductive ArtifactKind where
  /-- Declares the native methods and field constants of all types. -/
  | header
  /-- The table that leads from a method to its handler. -/
  | lookup
  /-- Fetches arguments, calls the stub and stores results, for one type. -/
  | marshal
  /-- Declares the stubs of one type. -/
  | stubHeader
  /-- Empty stubs of one type, to be filled in. -/
  | stubSource
  /-- Empty native methods of one type. -/
  | librarySource
  /-- Finds the sources for the build. -/
  | buildModule
  deriving DecidableEq, Repr

namespace ArtifactKind

def all : List ArtifactKind :=
  [header, lookup, marshal, stubHeader, stubSource, librarySource, buildModule]

def name : ArtifactKind → String
  | header => "Header"
  | lookup => "Lookup"
  | marshal => "Marshal"
  | stubHeader => "StubHeader"
  | stubSource => "StubSource"
  | librarySource => "LibrarySource"
  | buildModule => "BuildModule"

end ArtifactKind

structure Artifact where
  kind : ArtifactKind
  path : Path
  contents : String
  deriving DecidableEq, Repr

def Artifact.fileName (artifact : Artifact) : String := artifact.path.fileName?.getD ""

namespace Artifact

/-- Opens a file that is written anew by every run. -/
def keepOutBanner : String :=
  "//-----------------------------------------------------------------------------\n" ++
  "//\n" ++
  "//    ** DO NOT EDIT THIS FILE! **\n" ++
  "//    This file was generated by a tool\n" ++
  "//    re-running the tool will overwrite this file.\n" ++
  "//\n" ++
  "//-----------------------------------------------------------------------------\n" ++
  "\n\n"

/-- Opens a file that is meant to be copied and filled in. -/
def copyFirstBanner : String :=
  "//-----------------------------------------------------------------------------\n" ++
  "//\n" ++
  "//                   ** WARNING! ** \n" ++
  "//    This file was generated automatically by a tool.\n" ++
  "//    Re-running the tool will overwrite this file.\n" ++
  "//    You should copy this file to a custom location\n" ++
  "//    before adding any customization in the copy to\n" ++
  "//    prevent loss of your changes when the tool is\n" ++
  "//    re-run.\n" ++
  "//\n" ++
  "//-----------------------------------------------------------------------------\n"

def openGuard (guard : String) : String := s!"#ifndef {guard}\n#define {guard}\n\n"

def closeGuard (guard : String) : String := s!"#endif  //{guard}\n"

/-- The name of the class that holds the native methods of a type. -/
def libraryClass (fileName className : String) : String := s!"Library_{fileName}_{className}"

def methodDefinition (fileName className identifier body : String) : String :=
  "\nHRESULT " ++ libraryClass fileName className ++
    s!"::{identifier}( CLR_RT_StackFrame& stack )\n\x7b\n{body}\x7d\n"

end Artifact

end CompactAssembly
