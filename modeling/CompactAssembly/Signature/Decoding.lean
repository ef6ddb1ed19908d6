import CompactAssembly.Signature.Basic
import CompactAssembly.Bytes.Compressed

/-!
# Reading signatures

An element at depth `Element.depthLimit` is refused. The depth is part of the state of a reader: an element
that was read gives back what it used, one that failed does not, so that a later element on the same
reader has less room.
-/

namespace CompactAssembly

/-- An element at this depth is refused. -/
def Element.depthLimit : Nat := 50

/-- Where reading stands: the position, and how many elements are open. -/
structure SignatureCursor where
  pos : Nat
  depth : Nat
  deriving DecidableEq, Repr

abbrev SignatureReader := ReaderT Bytes (EStateM Fault SignatureCursor)

namespace SignatureReader

variable {α : Type}

def ofReader (reader : Reader α) : SignatureReader α := fun data cursor =>
  match reader data cursor.pos with
  | .ok value pos => .ok value { cursor with pos }
  | .error fault pos => .error fault { cursor with pos }

def outcome (reader : SignatureReader α) (data : Bytes) (cursor : SignatureCursor) :
    Except Fault α × SignatureCursor :=
  match reader data cursor with
  | .ok value stop => (.ok value, stop)
  | .error fault stop => (.error fault, stop)

def value (reader : SignatureReader α) (data : Bytes) (pos : Nat) : Except Fault α :=
  (reader.outcome data ⟨pos, 0⟩).1

def enter : SignatureReader Unit := modify fun cursor => { cursor with depth := cursor.depth + 1 }

def leave : SignatureReader Unit := modify fun cursor => { cursor with depth := cursor.depth - 1 }

/-- Reads an element that may open `room` elements, itself included. -/
def elementWithin : (room : Nat) → SignatureReader Element
  | 0 => do
    enter
    throw (.nestingLimit Element.depthLimit)
  | room + 1 => do
    enter
    let opcode ← ofReader Reader.byte
    let element ← match DataType.ofCode? opcode with
      | some .byRef => Element.byRef <$> elementWithin room
      | some .szArray => Element.szArray <$> elementWithin room
      | some .valueType => Element.valueType <$> ofReader Token.readCompressed
      | some .classType => Element.classType <$> ofReader Token.readCompressed
      | some (.primitive p) => pure (Element.primitive p)
      | none => pure (Element.unknown opcode)
    leave
    return element

def element : SignatureReader Element := do
  elementWithin (Element.depthLimit - 1 - (← get).depth)

def elements : (count : Nat) → SignatureReader (List Element)
  | 0 => pure []
  | count + 1 => do
    let first ← element
    let rest ← elements count
    return first :: rest

def methodBody (convention : UInt8) : SignatureReader MethodSignature := do
  let count ← ofReader Reader.byte
  let result ← element
  let params ← elements count.toNat
  return { hasThis := convention &&& Convention.hasThis != 0, result, params }

def method : SignatureReader MethodSignature := do
  let convention ← ofReader Reader.byte
  if Convention.kind convention = Convention.method then methodBody convention
  else throw (.methodConvention convention)

def field : SignatureReader Element := do
  let convention ← ofReader Reader.byte
  if Convention.kind convention = Convention.field then element
  else throw (.fieldConvention convention)

def typeSpec : SignatureReader Element := element

def signature : SignatureReader Signature := do
  let convention ← ofReader Reader.peek
  if Convention.kind convention = Convention.method then
    ofReader (Reader.skip 1)
    Signature.method <$> methodBody convention
  else if Convention.kind convention = Convention.field then
    Signature.field <$> field
  else if Convention.kind convention = Convention.localVariables then
    ofReader (Reader.skip 1)
    return .localVariables
  else
    ofReader (Reader.skip 1)
    return .other convention

end SignatureReader

/-- The element at a position, and the position behind it. -/
def decodeElement (data : Bytes) (pos : Nat) : Except Fault (Element × Nat) := do
  let start ← data.start pos
  let (outcome, stop) := SignatureReader.element.outcome data ⟨start, 0⟩
  return (← outcome, stop.pos)

end CompactAssembly
