import CompactAssembly.Naming.Identifier
import CompactAssembly.Naming.TypeName
import Std.Data.HashMap
import Std.Data.HashSet

/-!
# Identifiers of native methods

The escaped name, a mark for static methods, then the types of the result and the parameters. Different
methods may get the same identifier; a namer hands out names and never the same one twice. A name that is taken gets
a number: the smallest from two on that makes it free. How often a name was asked for is remembered, so that the
search starts where the last one for this name ended.
-/

namespace CompactAssembly

namespace Image

def tokenClass (image : Image) (token : Token) : Except Fault String :=
  match token.table? with
  | some .typeDef => image.className .identifier token.index
  | some .typeRef => image.typeRefClassName .identifier token.index
  | some .typeSpec => .ok ("_" ++ Text.hexUpper 8 token.value.toNat)
  | _ => .ok ""

def withoutUnderscores (text : String) : String :=
  String.ofList (text.toList.filter (· != '_'))

def elementIdentifier (image : Image) : Element → Except Fault String
  | .primitive p => .ok p.tag
  | .byRef inner => do return DataType.byRef.tag ++ "_" ++ (← image.elementIdentifier inner)
  | .szArray inner => do return DataType.szArray.tag ++ "_" ++ (← image.elementIdentifier inner)
  | .valueType token => do return withoutUnderscores (← image.tokenClass token)
  | .classType token => do return withoutUnderscores (← image.tokenClass token)
  | .unknown _ => .ok ""

def methodIdentifier (image : Image) (policy : NamingPolicy) (m : MethodDef)
    (signature : MethodSignature) : Except Fault String := do
  let name ← image.text m.name
  let elements ← (signature.result :: signature.params).mapM image.elementIdentifier
  let mark := if m.isStatic then "STATIC__" else ""
  return Naming.escape policy name ++ "___" ++ mark ++ "__".intercalate elements

end Image

structure Namer where
  /-- Last number tried for a name, never more than the names asked for. -/
  numbers : Std.HashMap String Nat
  issued : Std.HashSet String

namespace Namer

def empty : Namer := ⟨∅, ∅⟩

/-- A name with a number; the first one goes without. -/
def numbered (base : String) (number : Nat) : String :=
  if number = 1 then base else base ++ "_" ++ toString number

/-- The first number from `number` on whose name is free, if one of the next `tries` is; else the
number behind them. -/
def firstFree (issued : Std.HashSet String) (base : String) : (tries number : Nat) → Nat
  | 0, number => number
  | tries + 1, number =>
    if numbered base number ∈ issued then firstFree issued base tries (number + 1) else number

/-- Hands out a name. As many tries as names were issued are enough to find a free one. -/
def next (namer : Namer) (base : String) : String × Namer :=
  let start := namer.numbers.getD base 0 + 1
  let number := firstFree namer.issued base namer.issued.size start
  let name := numbered base number
  (name, ⟨namer.numbers.insert base number, namer.issued.insert name⟩)

def nextAll (namer : Namer) : List String → List String
  | [] => []
  | base :: bases =>
    let (name, namer) := namer.next base
    name :: namer.nextAll bases

end Namer

end CompactAssembly
