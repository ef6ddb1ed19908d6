import CompactAssembly.Image.Assembly

/-!
# Output files

A file of fixed size that is filled by writes at positions. Creating it empties the target and fills it with
zeros up to its size; a mapping of that length then shows the bytes of the file. When the output is dropped, the
file is removed unless it was finalized.
-/

namespace CompactAssembly

/-- What stands at the path of a file: its bytes, or nothing. -/
abbrev Target := Option Bytes

abbrev FileWork := EStateM Fault Target

structure OpenMode where
  /-- Makes a file that is missing. -/
  create : Bool
  /-- Empties a file that is there. -/
  truncate : Bool

/-- Data of another size: the end is cut off, or zeros are put behind it. -/
def Bytes.resized (data : Bytes) (size : Nat) : Bytes :=
  data.extract 0 size ++ Array.replicate (size - data.size) 0

namespace FileWork
variable {α : Type}

def missing : Fault := .fileAccess "No such file or directory (os error 2)"

def openFile (mode : OpenMode) : FileWork Unit := do
  match ← get with
  | some contents => set (some (if mode.truncate then #[] else contents))
  | none => if mode.create then set (some (#[] : Bytes)) else throw missing

def setLength (size : Nat) : FileWork Unit := modify fun target => target.map (·.resized size)

def mappedLength : FileWork Nat := do
  match ← get with
  | some contents => return contents.size
  | none => throw missing

def overwrite (pos : Nat) (bytes : List UInt8) : FileWork Unit :=
  modify fun target => target.map (·.overwrite pos bytes)

def remove : FileWork Unit := set (none : Target)

def answer (work : FileWork α) : FileWork (Except Fault α) := fun target =>
  match work target with
  | .ok value target => .ok (.ok value) target
  | .error fault target => .ok (.error fault) target

end FileWork

/-- An output that is open: the length of its mapping, and whether its file is to stay. -/
structure OutputFile where
  size : Nat
  finalized : Bool
  deriving DecidableEq, Repr

structure OutputFile.Write where
  offset : Nat
  bytes : List UInt8
  deriving DecidableEq, Repr

namespace OutputFile

/-- Creates a file of zeros at the target. An empty file is refused before the target is touched. -/
def create (size : Nat) : FileWork OutputFile := do
  if size = 0 then
    throw .emptyOutput
  FileWork.openFile { create := true, truncate := true }
  FileWork.setLength size
  return ⟨← FileWork.mappedLength, false⟩

def Write.word (offset : Nat) (value : UInt32) : Write := ⟨offset, Word.bytes value⟩

/-- A write that ends behind the end is refused. -/
def write (f : OutputFile) (w : Write) : FileWork Unit :=
  if w.offset + w.bytes.length ≤ f.size then FileWork.overwrite w.offset w.bytes
  else throw (.writePastEnd w.offset w.bytes.length f.size)

def writeAll (f : OutputFile) : List Write → FileWork (List (Except Fault Unit))
  | [] => return []
  | w :: ws => do
    let first ← (f.write w).answer
    let rest ← f.writeAll ws
    return first :: rest

def drop (f : OutputFile) : FileWork Unit := if f.finalized then return () else FileWork.remove

/-- Marks the file to stay, and drops the output. -/
def finalize (f : OutputFile) : FileWork Unit := { f with finalized := true }.drop

end OutputFile

/-- A run over a target: an output is created, written and finalized or dropped. Gives the answers to the
writes. -/
def writeTarget (size : Nat) (writes : List OutputFile.Write) (finalize : Bool) :
    FileWork (List (Except Fault Unit)) := do
  let f ← OutputFile.create size
  let answers ← f.writeAll writes
  if finalize then f.finalize else f.drop
  return answers

namespace Assembly

/-- Writes the image to a file, which is removed again if the write fails. -/
def toFile (a : Assembly) : FileWork Unit := do
  let f ← OutputFile.create a.data.size
  match ← (f.write ⟨0, a.data.toList⟩).answer with
  | .ok () => f.finalize
  | .error fault =>
    f.drop
    throw fault

/-- Loads the image in a file; referenced base types have no fields. -/
def fromFile : FileWork Assembly := do
  match ← get with
  | some data => MonadExcept.ofExcept (load BaseLayout.bare data)
  | none => throw FileWork.missing

end Assembly

end CompactAssembly
