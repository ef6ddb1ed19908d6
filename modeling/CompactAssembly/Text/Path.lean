import CompactAssembly.Text.Basic

/-!
# Paths

A path is a text whose steps stand between slashes. Empty steps and dots say nothing, except for a
slash or a dot at the very start. Two paths are the same place when their components agree; the text of
a path is kept as it was written.
-/

namespace CompactAssembly

structure Path where
  text : String
  deriving DecidableEq, Repr

namespace Path

inductive Component where
  /-- The slash a path starts with. -/
  | root
  /-- The dot a path starts with. -/
  | here
  /-- Two dots. -/
  | up
  | name (text : String)
  deriving DecidableEq, Repr

namespace Component

/-- Components of different kinds are ordered by kind. -/
def rank : Component → Nat
  | root => 0
  | here => 1
  | up => 2
  | name _ => 3

def label : Component → String
  | name text => text
  | _ => ""

def compare (a b : Component) : Ordering :=
  (Ord.compare a.rank b.rank).then (compareOfLessAndEq a.label b.label)

end Component

/-- What a step between slashes says. -/
def step? : List Char → Option Component
  | [] => none
  | ['.'] => none
  | ['.', '.'] => some .up
  | cs => some (.name (String.ofList cs))

def isSilent (piece : List Char) : Bool := (step? piece).isNone

/-- What the first step says; `alone` if no slash follows it. -/
def lead? (alone : Bool) : List Char → Option Component
  | [] => if alone then none else some .root
  | ['.'] => some .here
  | cs => step? cs

/-- The first step, and the steps behind the first slash. -/
def pieces (p : Path) : List Char × List (List Char) :=
  match Text.split '/' p.text.toList with
  | [] => ([], [])
  | first :: rest => (first, rest)

def components (p : Path) : List Component :=
  let (first, rest) := p.pieces
  (lead? rest.isEmpty first).toList ++ rest.filterMap step?

def compareComponents : List Component → List Component → Ordering
  | [], [] => .eq
  | [], _ :: _ => .lt
  | _ :: _, [] => .gt
  | a :: as, b :: bs => (a.compare b).then (compareComponents as bs)

def compare (p q : Path) : Ordering := compareComponents p.components q.components

def same (p q : Path) : Bool := p.components == q.components

def isAbsolute (p : Path) : Bool := p.text.toList.head? == some '/'

def fileName? (p : Path) : Option String :=
  match p.components.getLast? with
  | some (.name text) => some text
  | _ => none

/-- Splits a file name at its last dot. A name that starts with its only dot is not split. -/
def stemOf (name : List Char) : List Char :=
  match (name.reverse.dropWhile (· != '.')) with
  | [] => name
  | [_] => name
  | _ :: stem => stem.reverse

def fileStem? (p : Path) : Option String :=
  p.fileName?.map fun name => String.ofList (stemOf name.toList)

def ofPieces (first : List Char) (rest : List (List Char)) : Path :=
  if first = [] ∧ rest = [] then ⟨"/"⟩ else ⟨String.ofList (Text.join '/' (first :: rest))⟩

def parent? (p : Path) : Option Path :=
  let (first, rest) := p.pieces
  match rest.reverse.dropWhile isSilent with
  | _ :: before => some (ofPieces first (before.dropWhile isSilent).reverse)
  | [] =>
    match lead? rest.isEmpty first with
    | none => none
    | some .root => none
    | some _ => some ⟨""⟩

/-- The place that a path names seen from another. -/
def join (base p : Path) : Path :=
  if p.isAbsolute ∨ base.text = "" then p
  else if base.text.toList.getLast? = some '/' then ⟨base.text ++ p.text⟩
  else ⟨base.text ++ "/" ++ p.text⟩

def extended (p : Path) (ending : String) : Path := ⟨p.text ++ ending⟩

/-- Beside a path: under its parent, or alone if it has none. -/
def sibling (p : Path) (name : String) : Path :=
  match p.parent? with
  | some parent => parent.join ⟨name⟩
  | none => ⟨name⟩

end Path

end CompactAssembly
