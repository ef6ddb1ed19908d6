import CompactAssembly.Bytes.Word
import CompactAssembly.Fault

/-!
# Readers

A reader moves a position over fixed data. A failed read reports where it stands: a word that does not
fit leaves the position alone, a longer read keeps the words it has consumed.
-/

namespace CompactAssembly

abbrev Reader := ReaderT Bytes (EStateM Fault Nat)

namespace Reader

variable {α : Type}

/-- Outcome of a read that starts at `pos`, and the position where it ended. -/
def outcome (reader : Reader α) (data : Bytes) (pos : Nat) : Except Fault α × Nat :=
  match reader data pos with
  | .ok value stop => (.ok value, stop)
  | .error fault stop => (.error fault, stop)

def value (reader : Reader α) (data : Bytes) (pos : Nat) : Except Fault α :=
  (reader.outcome data pos).1

def word [Word α] : Reader α := fun data pos =>
  if pos + Word.width α ≤ data.size then
    .ok (Word.ofNat (data.unsignedAt (Word.width α) pos)) (pos + Word.width α)
  else .error .outOfBounds pos

def byte : Reader UInt8 := word

def peek : Reader UInt8 := fun data pos =>
  match data[pos]? with
  | some b => .ok b pos
  | none => .error .outOfBounds pos

def skip (count : Nat) : Reader Unit := fun data pos =>
  if pos + count ≤ data.size then .ok () (pos + count) else .error .outOfBounds pos

def words [Word α] : (count : Nat) → Reader (Vector α count)
  | 0 => pure #v[]
  | count + 1 => do
    let earlier ← words count
    let last ← word
    return earlier.push last

end Reader

/-- A start position for reading; one behind the end is refused. -/
def Bytes.start (data : Bytes) (pos : Nat) : Except Fault Nat :=
  if pos ≤ data.size then .ok pos else .error .outOfBounds

end CompactAssembly
