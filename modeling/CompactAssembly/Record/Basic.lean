import CompactAssembly.Bytes.Reader

/-!
# Records

A record type belongs to one table, and has one stored form of fixed size. Positions are stored in 32 bits, references
between records in 16; the largest 16-bit value means that nothing is named. `Origin` is how a record refers to a type
that is either defined here or referenced.
-/

namespace CompactAssembly

/-- The reference that names nothing. -/
def noReference : UInt16 := 0xFFFF

def narrowOffset (position : Nat) : Except Fault UInt32 :=
  if position < 0x100000000 then .ok (UInt32.ofNat position) else .error .wideOffset

def narrowReference (position : Nat) : Except Fault UInt16 :=
  if position < 0xFFFF then .ok (UInt16.ofNat position) else .error .wideReference

/-- A record type: its table, and how a record is written and read. -/
class Row (ρ : Type) where
  kind : TableKind
  encode : ρ → List UInt8
  read : Reader ρ

def Row.size (ρ : Type) [Row ρ] : Nat := (Row.kind ρ).recordSize?.getD 0

def Row.token (ρ : Type) [Row ρ] (index : UInt32) : Token := Token.encode (Row.kind ρ) index

/-- Two bytes without meaning, written as zero. -/
def filler : UInt16 := 0

def Reader.filler : Reader Unit := do
  let _ : UInt16 ← word

/-- Where a named type comes from. -/
inductive Origin where
  /-- Record of the table the field points into. -/
  | own (index : UInt16)
  /-- Record of the type references. -/
  | typeRef (index : UInt16)
  deriving DecidableEq, Repr

namespace Origin

def typeRefBit : UInt16 := 0x8000

/-- Reads a stored field; the reference that names nothing has no origin. -/
def ofField? (raw : UInt16) : Option Origin :=
  if raw = noReference then none
  else if raw &&& typeRefBit ≠ 0 then some (.typeRef (raw &&& 0x7FFF))
  else some (.own raw)

end Origin

/-- Consecutive indices into a table. -/
structure IndexRange where
  first : Nat
  count : Nat
  deriving DecidableEq, Repr

namespace IndexRange

def stop (range : IndexRange) : Nat := range.first + range.count

def toList (range : IndexRange) : List Nat := List.range' range.first range.count

instance : Membership Nat IndexRange where
  mem range i := range.first ≤ i ∧ i < range.stop

theorem mem_toList {range : IndexRange} {i : Nat} : i ∈ range.toList ↔ i ∈ range := by
  simp [toList, Membership.mem, stop, ← List.mem_range'_1]

end IndexRange

end CompactAssembly
