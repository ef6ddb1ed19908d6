import CompactAssembly.Artifact.Sink

/-!
# File trees

Directories and files by the names that lead to them. Writing an artifact makes the directories above it
and replaces the file. A file where a directory is needed, a directory where a file is to go, and a name
or a path that is too long are refused; directories made by then stay.
-/

namespace CompactAssembly

inductive FileTree.Node where
  | directory
  | file (contents : String)
  deriving DecidableEq, Repr

/-- What stands at each place; the top is a directory. -/
structure FileTree where
  nodes : List (List String × FileTree.Node)
  deriving DecidableEq, Repr

namespace FileTree

def empty : FileTree := ⟨[]⟩

def nameLimit : Nat := 255

def pathLimit : Nat := 4095

def find? (t : FileTree) (place : List String) : Option Node :=
  if place = [] then some .directory else t.nodes.lookup place

def insert (t : FileTree) (place : List String) (node : Node) : FileTree :=
  ⟨(place, node) :: t.nodes⟩

inductive Refusal where
  | missing
  | exists
  | notDirectory
  | isDirectory
  | nameTooLong
  | nullCharacter
  deriving DecidableEq, Repr

def Refusal.words : Refusal → String
  | .missing => "No such file or directory (os error 2)"
  | .exists => "File exists (os error 17)"
  | .notDirectory => "Not a directory (os error 20)"
  | .isDirectory => "Is a directory (os error 21)"
  | .nameTooLong => "File name too long (os error 36)"
  | .nullCharacter => "file name contained an unexpected NUL byte"

def isName (name : String) : Bool := name.utf8ByteSize ≤ nameLimit

/-- Whether a path can lead to a place: it holds no null character and is not too long. -/
def checkPath (path : Path) : Except Refusal Unit :=
  if path.text.toList.contains '\x00' then .error .nullCharacter
  else if path.text.utf8ByteSize ≤ pathLimit then .ok ()
  else .error .nameTooLong

/-- Walks down from a directory, making what is missing. Gives the place that was reached. -/
def makeDirectories (t : FileTree) (place : List String) :
    List Path.Component → Except Refusal (List String) × FileTree
  | [] => (.ok place, t)
  | .root :: steps => t.makeDirectories [] steps
  | .here :: steps => t.makeDirectories place steps
  | .up :: steps => t.makeDirectories place.dropLast steps
  | .name name :: steps =>
    let below := place ++ [name]
    match t.find? below with
    | some .directory => t.makeDirectories below steps
    | some (.file _) => (.error (if steps = [] then .exists else .notDirectory), t)
    | none =>
      if isName name then (t.insert below .directory).makeDirectories below steps
      else (.error .nameTooLong, t)

/-- Makes the directories that a path leads through. Gives the place that was reached. -/
def makePath (t : FileTree) (path : Path) : Except Refusal (List String) × FileTree :=
  match checkPath path with
  | .ok () => t.makeDirectories [] path.components
  | .error cause => (.error cause, t)

/-- Replaces what a name in a directory holds; a path that ends in no name leads to a directory, or
nowhere if it is empty. -/
def replace (t : FileTree) (place : List String) (path : Path) (contents : String) :
    Except Refusal Unit × FileTree :=
  match checkPath path, path.fileName? with
  | .error cause, _ => (.error cause, t)
  | .ok (), none => (.error (if path.text = "" then .missing else .isDirectory), t)
  | .ok (), some name =>
    match t.find? (place ++ [name]) with
    | some .directory => (.error .isDirectory, t)
    | _ =>
      if isName name then (.ok (), t.insert (place ++ [name]) (.file contents))
      else (.error .nameTooLong, t)

def write (t : FileTree) (path : Path) (contents : String) : Except Refusal Unit × FileTree :=
  match t.makePath (path.parent?.getD ⟨""⟩) with
  | (.ok place, t) => t.replace place path contents
  | (.error cause, t) => (.error cause, t)

def sink : Sink FileTree := fun path contents t =>
  match t.write path contents with
  | (.ok (), t) => (.ok (), t)
  | (.error cause, t) => (.error cause.words, t)

def read? (t : FileTree) (path : Path) : Option String :=
  let place := path.components.foldl (fun place step => match step with
    | .root => []
    | .here => place
    | .up => place.dropLast
    | .name name => place ++ [name]) []
  match t.find? place with
  | some (.file contents) => some contents
  | _ => none

end FileTree

end CompactAssembly
