import CompactAssembly.Record.Basic

/-!
# The string heap

Texts in UTF-8, each closed by a zero byte, named by the position of the first byte. A position from
`0x8000` on that lies behind the heap names a text that is built into the runtime; the image does not
hold it, so a placeholder stands for it.
-/

namespace CompactAssembly

/-- The number of a built-in text: how far its reference lies below the one that names nothing. -/
def builtinText? (index : UInt16) (heapSize : Nat) : Option Nat :=
  if index = noReference ∨ index < 0x8000 ∨ index.toNat < heapSize then none
  else some (0xFFFF - index.toNat)

def builtinPlaceholder (number : Nat) : String := "BUILTIN_STRING_" ++ Text.hexUpper 4 number

namespace Bytes

/-- Position of the first zero byte among `room` bytes from `pos` on. -/
def terminator? (data : Bytes) : (room pos : Nat) → Option Nat
  | 0, _ => none
  | room + 1, pos => if data[pos]? = some 0 then some pos else terminator? data room (pos + 1)

def text (heap : Bytes) (index : UInt16) : Except Fault String :=
  if index = noReference then .ok ""
  else match builtinText? index heap.size with
    | some number => .ok (builtinPlaceholder number)
    | none =>
      if index.toNat < heap.size then
        match heap.terminator? (heap.size - index.toNat) index.toNat with
        | none => .error (.unterminatedString index.toNat)
        | some stop =>
          match String.fromUTF8? ⟨heap.extract index.toNat stop⟩ with
          | some text => .ok text
          | none => .error (.invalidString index.toNat)
      else .error .outOfBounds

def blob (heap : Bytes) (index : UInt16) : Except Fault Bytes :=
  if index.toNat < heap.size then .ok (heap.extract index.toNat) else .error .outOfBounds

end Bytes

end CompactAssembly
