import CompactAssembly.Image.Basic

/-!
# Storage offsets of instance fields

An object holds one head slot, the instance fields of its base types from the outermost on, and its
own. The number of fields below a type reference comes from a layout, since that type is defined
elsewhere. All of these are counted in machine words, whose sums wrap around. A chain of base types longer
than `baseLimit` is refused unless a type on it is already totalled; a cycle never is.
-/

namespace CompactAssembly

/-- Number of instance fields of a referenced type, by its index among the type references. -/
abbrev BaseLayout := UInt16 → UInt64

def BaseLayout.bare : BaseLayout := fun _ => 0

/-- Longest chain of base types that are not yet totalled. -/
def baseLimit : Nat := 64

/-- Totals known so far, by type. -/
abbrev FieldTotals := Array (Option UInt64)

/-- For each field, its storage offset if it is an instance field. -/
abbrev FieldOffsets := Array (Option UInt16)

namespace Image

/-- Number of instance fields of a type with those of its base types, and the totals learnt on the
way; `room` more types may be visited. -/
def totalFields (image : Image) (layout : BaseLayout) (room index : Nat) (totals : FieldTotals) :
    Except Fault (UInt64 × FieldTotals) :=
  match totals[index]?.join with
  | some total => .ok (total, totals)
  | none =>
    match room with
    | 0 => .error (.nestingLimit baseLimit)
    | room + 1 => do
      let t ← image.get TypeDef index
      let (inherited, totals) ← match t.base? with
        | some (.own base) => image.totalFields layout room base.toNat totals
        | some (.typeRef base) => .ok (layout base, totals)
        | none => .ok (0, totals)
      let total := inherited + t.instanceFieldCount.toUInt64
      return (total, totals.setIfInBounds index (some total))

/-- Gives the fields at `fields` consecutive offsets from `offset` on. -/
def assignOffsets (typeIndex : Nat) (offset : UInt64) (offsets : FieldOffsets) :
    (fields : List Nat) → Except Fault FieldOffsets
  | [] => .ok offsets
  | field :: fields =>
    if 0xFFFF < offset then .error (.fieldOffsetOverflow typeIndex)
    else if field < offsets.size then
      assignOffsets typeIndex (offset + 1)
        (offsets.setIfInBounds field (some offset.toUInt16)) fields
    else .error .outOfBounds

def placeFields (image : Image) (layout : BaseLayout) (state : FieldOffsets × FieldTotals)
    (index : Nat) : Except Fault (FieldOffsets × FieldTotals) := do
  let (total, totals) ← image.totalFields layout baseLimit index state.2
  let t ← image.get TypeDef index
  let firstOwn := total - t.instanceFieldCount.toUInt64
  let offsets ← assignOffsets index (1 + firstOwn) state.1 t.instanceFields.toList
  return (offsets, totals)

def resolveOffsets (image : Image) (layout : BaseLayout) : Except Fault FieldOffsets := do
  let offsets := Array.replicate image.fieldCount none
  let totals := Array.replicate image.typeCount none
  let (offsets, _) ← (List.range image.typeCount).foldlM (image.placeFields layout) (offsets, totals)
  return offsets

end Image

end CompactAssembly
