import CompactAssembly.Bytes.Reader

/-!
# Compressed integers and tokens

A compressed integer takes one, two or four bytes, most significant first; the top bits of the first
byte give the length. A compressed token is a compressed integer whose two low bits choose the table.
-/

namespace CompactAssembly

/-- A writer puts bytes behind what a buffer holds. -/
abbrev Writer := EStateM Fault Bytes

def Writer.byte (b : UInt8) : Writer Unit := modify fun buffer => buffer.push b

namespace Compressed

def limit : Nat := 0x1FFFFFFF

def encode (n : Nat) : Except Fault (List UInt8) :=
  if n < 0x80 then .ok [UInt8.ofNat n]
  else if n < 0x4000 then .ok [UInt8.ofNat (0x80 + n / 0x100), UInt8.ofNat n]
  else if n ≤ limit then
    .ok [UInt8.ofNat (0xC0 + n / 0x1000000), UInt8.ofNat (n / 0x10000), UInt8.ofNat (n / 0x100),
      UInt8.ofNat n]
  else .error .outOfBounds

/-- Writes the shortest compressed form of a number, byte by byte. A number without one is refused before
anything is written. -/
def write (n : Nat) : Writer Unit := do
  if n < 0x80 then
    Writer.byte (UInt8.ofNat n)
  else if n < 0x4000 then
    Writer.byte (UInt8.ofNat (0x80 + n / 0x100))
    Writer.byte (UInt8.ofNat n)
  else if n ≤ limit then
    Writer.byte (UInt8.ofNat (0xC0 + n / 0x1000000))
    Writer.byte (UInt8.ofNat (n / 0x10000))
    Writer.byte (UInt8.ofNat (n / 0x100))
    Writer.byte (UInt8.ofNat n)
  else throw .outOfBounds

def read : Reader Nat := do
  let lead ← Reader.byte
  if lead.toNat < 0x80 then
    return lead.toNat
  else if lead.toNat < 0xC0 then
    let b ← Reader.byte
    return (lead.toNat - 0x80) * 0x100 + b.toNat
  else if lead.toNat < 0xE0 then
    let b₁ ← Reader.byte
    let b₂ ← Reader.byte
    let b₃ ← Reader.byte
    return (lead.toNat - 0xC0) * 0x1000000 + b₁.toNat * 0x10000 + b₂.toNat * 0x100 + b₃.toNat
  else
    throw (.compressedLead lead)

end Compressed

namespace Token

def unknownTable : Nat := 0xFF

def compressedTable (tag : Nat) : Nat :=
  match tag with
  | 0 => TableKind.typeDef.id
  | 1 => TableKind.typeRef.id
  | 2 => TableKind.typeSpec.id
  | _ => unknownTable

/-- The token a compressed integer stands for. An index of more than 24 bits reaches into the byte of
the table. -/
def ofCompressed (n : Nat) : Token :=
  ⟨UInt32.ofNat ((compressedTable (n % 4) <<< 24) ||| (n / 4))⟩

def readCompressed : Reader Token := do
  return ofCompressed (← Compressed.read)

/-- The two bits that stand for the table of a token. -/
def tag? (token : Token) : Option Nat :=
  match token.table? with
  | some .typeDef => some 0
  | some .typeRef => some 1
  | some .typeSpec => some 2
  | _ => none

/-- Compressed form of a token; only type definitions, references and specifications have one. -/
def compressed (token : Token) : Except Fault (List UInt8) :=
  match token.tag? with
  | some tag => Compressed.encode (token.index * 4 + tag)
  | none => .error (.unexpectedToken token)

end Token

end CompactAssembly
