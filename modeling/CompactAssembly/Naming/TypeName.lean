import CompactAssembly.Image.Basic
import CompactAssembly.Text.Basic

/-!
# Names of types

A nested type is named through the types that enclose it, outermost first. A chain of more than
`enclosingLimit` types is refused, so a cycle always is.
-/

namespace CompactAssembly

def enclosingLimit : Nat := 64

inductive NameStyle where
  | dotted
  /-- Every dot becomes an underscore. -/
  | identifier
  deriving DecidableEq, Repr

def NameStyle.finish : NameStyle → String → String
  | .dotted, name => name
  | .identifier, name => Text.replaceChar '.' '_' name

namespace Naming

/-- A segment with the dot behind it; an empty segment has none. -/
def segment (text : String) : String := if text.isEmpty then "" else text ++ "."

/-- Segments joined by dots, empty ones left out. -/
def dotted (segments : List String) : String :=
  ".".intercalate (segments.filter fun text => !text.isEmpty)

end Naming

namespace Image

/-- Puts a type and the types that enclose it before `inner`, outermost first; `room` more types may
follow this one. -/
def enclosingFrom (image : Image) (room index : Nat) (inner : List TypeDef) :
    Except Fault (List TypeDef) := do
  let t ← image.get TypeDef index
  match t.enclosing? with
  | none => return t :: inner
  | some enclosing =>
    match room with
    | 0 => throw (.nestingLimit enclosingLimit)
    | room + 1 => image.enclosingFrom room enclosing.toNat (t :: inner)

def enclosingChain (image : Image) (index : Nat) : Except Fault (List TypeDef) :=
  image.enclosingFrom (enclosingLimit - 1) index []

def typeTexts (image : Image) (t : TypeDef) : Except Fault (String × String) := do
  let nameSpace ← image.text t.nameSpace
  let name ← image.text t.name
  return (nameSpace, name)

/-- The name of a class: namespaces and names of the chain, joined by dots. -/
def className (image : Image) (style : NameStyle) (index : Nat) : Except Fault String := do
  let chain ← image.enclosingChain index
  let texts ← chain.mapM image.typeTexts
  return style.finish (Naming.dotted (texts.flatMap fun (nameSpace, name) => [nameSpace, name]))

/-- The name of a type: underscores between the types of the chain, a dot after a namespace. -/
def typeName (image : Image) (index : Nat) : Except Fault String := do
  let chain ← image.enclosingChain index
  let texts ← chain.mapM image.typeTexts
  return "_".intercalate (texts.map fun (nameSpace, name) => Naming.segment nameSpace ++ name)

/-- The name of a type in a listing: each namespace and name with a dot between, run together. -/
def listedTypeName (image : Image) (index : Nat) : Except Fault String := do
  let chain ← image.enclosingChain index
  let texts ← chain.mapM image.typeTexts
  return String.join (texts.map fun (nameSpace, name) => nameSpace ++ "." ++ name)

/-- Puts a type reference and the references that enclose it before `inner`, outermost first, and finds
the assembly that the outermost lies in. -/
def resolutionFrom (image : Image) (room index : Nat) (inner : List TypeRef) :
    Except Fault (Option AssemblyRef × List TypeRef) := do
  let r ← image.get TypeRef index
  match r.resolutionScope? with
  | none => return (none, r :: inner)
  | some (.own assembly) => return (some (← image.get AssemblyRef assembly.toNat), r :: inner)
  | some (.typeRef scope) =>
    match room with
    | 0 => throw (.nestingLimit enclosingLimit)
    | room + 1 => image.resolutionFrom room scope.toNat (r :: inner)

def typeRefTexts (image : Image) (r : TypeRef) : Except Fault (String × String) := do
  let nameSpace ← image.text r.nameSpace
  let name ← image.text r.name
  return (nameSpace, name)

/-- The name of a referenced class: the assembly, then namespaces and names of the chain. -/
def typeRefClassName (image : Image) (style : NameStyle) (index : Nat) : Except Fault String := do
  let (assembly?, chain) ← image.resolutionFrom (enclosingLimit - 1) index []
  let root ← match assembly? with
    | some assembly => do pure [← image.text assembly.name]
    | none => pure []
  let texts ← chain.mapM image.typeRefTexts
  return style.finish
    (Naming.dotted (root ++ texts.flatMap fun (nameSpace, name) => [nameSpace, name]))

end Image

end CompactAssembly
