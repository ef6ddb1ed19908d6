import CompactAssembly.Image.Basic

/-!
# Owners of members

A member belongs to the type whose range holds it; of several, to the last in table order.
-/

namespace CompactAssembly

/-- For each member of a table, the type that owns it. -/
abbrev Owners := Array (Option UInt16)

namespace Owners

/-- Gives the members of a range to one owner. A range that leaves the table is refused. -/
def assign (owners : Owners) (range : IndexRange) (owner : UInt16) : Except Fault Owners :=
  if range.count = 0 ∨ range.stop ≤ owners.size then
    .ok (range.toList.foldl (fun owners member => owners.setIfInBounds member (some owner)) owners)
  else .error .outOfBounds

def owner? (owners : Owners) (member : Nat) : Option UInt16 := owners[member]?.join

end Owners

namespace Image

structure MemberOwners where
  fields : Owners
  methods : Owners
  deriving DecidableEq, Repr

def MemberOwners.claim (owners : MemberOwners) (index : Nat) (t : TypeDef) :
    Except Fault MemberOwners := do
  let owner := UInt16.ofNat index
  let fields ← owners.fields.assign t.staticFields owner
  let fields ← fields.assign t.instanceFields owner
  let methods ← owners.methods.assign t.methods owner
  return { fields, methods }

/-- Resolves the owners type by type, so that a later type takes over. -/
def resolveOwners (image : Image) : Except Fault MemberOwners := do
  let types ← image.records TypeDef
  let unowned : MemberOwners :=
    ⟨Array.replicate image.fieldCount none, Array.replicate image.methodCount none⟩
  types.zipIdx.foldlM (fun owners (t, index) => owners.claim index t) unowned

end Image

end CompactAssembly
