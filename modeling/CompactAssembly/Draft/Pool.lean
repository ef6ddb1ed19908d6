import Std.Data.HashMap
import CompactAssembly.Bytes.Word

/-!
# Pools

A pool lays the stored forms of values one after the other and remembers where each value begins, so
that a value that comes again is not stored again.
-/

namespace CompactAssembly

structure Pool (κ : Type) [BEq κ] [Hashable κ] where
  heap : Bytes
  places : Std.HashMap κ UInt16

namespace Pool

variable {κ : Type} [BEq κ] [Hashable κ]

def empty : Pool κ := ⟨#[], ∅⟩

def find? (pool : Pool κ) (value : κ) : Option UInt16 := pool.places[value]?

/-- Stores a value at the end and remembers a reference for it. -/
def insert (pool : Pool κ) (value : κ) (stored : List UInt8) (reference : UInt16) : Pool κ :=
  ⟨pool.heap ++ stored, pool.places.insert value reference⟩

theorem heap_insert (pool : Pool κ) (value : κ) (stored : List UInt8) (reference : UInt16) :
    (pool.insert value stored reference).heap = pool.heap ++ stored := rfl

theorem find?_insert_self [LawfulBEq κ] (pool : Pool κ) (value : κ) (stored : List UInt8)
    (reference : UInt16) : (pool.insert value stored reference).find? value = some reference := by
  simp [insert, find?]

theorem find?_insert_of_ne [LawfulBEq κ] (pool : Pool κ) {value other : κ} (stored : List UInt8)
    (reference : UInt16) (h : value ≠ other) :
    (pool.insert value stored reference).find? other = pool.find? other := by
  simp [insert, find?, Std.HashMap.getElem?_insert, h]

theorem forall_find?_insert [LawfulBEq κ] {pool : Pool κ} {value : κ} {stored : List UInt8} {reference : UInt16}
    {P : κ → UInt16 → Prop} (hnew : P value reference)
    (hold : ∀ other index, pool.find? other = some index → P other index) :
    ∀ other index, (pool.insert value stored reference).find? other = some index → P other index := by
  intro other index hother
  by_cases hv : value = other
  · subst hv
    rw [find?_insert_self] at hother
    cases hother
    exact hnew
  · rw [find?_insert_of_ne _ _ _ hv] at hother
    exact hold other index hother

end Pool

end CompactAssembly
