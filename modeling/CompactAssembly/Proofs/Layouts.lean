import CompactAssembly.Proofs.Acceptance

/-!
# Field offsets under a layout

An offset is the exact number modulo 2 ^ 64. In an image that loads no sum wraps around on the way to one
(`Acceptable.offset_le`), unless a layout counts as far as a word goes and leaves none for the head slot
(`wrapped_offsets`).

A layout says how many fields are below a type, not which types a walk visits: walks under two layouts that find
the same types totalled leave the same types totalled (`Totals.relaid`). The fields still have offsets under smaller
numbers (`Acceptable.of_le`), so an image that loads under a layout loads under every smaller one, with the same
owners (`load_of_le`).
-/

namespace CompactAssembly

namespace Image
variable {image : Image} {layout layout' : BaseLayout}

theorem one_add_inheritedFields_nil {root : Option UInt16}
    (hroot : ∀ r, root = some r → layout r ≠ 0xFFFFFFFFFFFFFFFF) : 1 + inheritedFields layout [] root < 2 ^ 64 := by
  rw [inheritedFields_nil]
  cases root with
  | none => exact show 1 + 0 < 2 ^ 64 by decide
  | some r =>
    have hne : (layout r).toNat ≠ 2 ^ 64 - 1 := fun h => hroot r rfl (UInt64.toNat_inj.1 h)
    have hlt := (layout r).toNat_lt
    simp only [Option.map_some, Option.getD_some]
    omega

/-- What a type inherits is what its root counts, unless a type between them has fields: these have offsets, above
all that was counted until then. -/
theorem Acceptable.inheritedFields_small (h : image.Acceptable layout) {i : Nat} {ancestors : List (Nat × TypeDef)}
    {root : Option UInt16} (ha : image.Ancestry i ancestors root)
    (hroot : ∀ r, root = some r → layout r ≠ 0xFFFFFFFFFFFFFFFF) :
    inheritedFields layout ancestors root = inheritedFields layout [] root ∨
      inheritedFields layout ancestors root ≤ 0xFFFF := by
  have hword := one_add_inheritedFields_nil hroot
  induction ha with
  | root => exact .inl rfl
  | @own i t base b ancestors root _ _ hbase ha ih =>
    have hinherited := ih hroot hword
    obtain ⟨base', hget, -, ancestors', root', ha', hfits⟩ := h.types b.toNat (lt_typeCount hbase)
    cases hbase.symm.trans hget
    obtain ⟨rfl, rfl⟩ := ha.unique ha'
    rw [inheritedFields_cons]
    dsimp only
    rcases Nat.eq_zero_or_pos base.instanceFieldCount.toNat with hnone | hsome
    · rwa [hnone, Nat.add_zero]
    · have hfirst := hfits 0 hsome
      have hlast := hfits (base.instanceFieldCount.toNat - 1) (Nat.sub_one_lt_of_lt hsome)
      have hcount := base.instanceFieldCount.toNat_lt
      exact .inr (by omega)

/-- No sum wraps around on the way to an offset, unless a layout leaves no word for the head slot. -/
theorem Acceptable.offset_le (h : image.Acceptable layout) {i p : Nat} {ancestors : List (Nat × TypeDef)}
    {root : Option UInt16} {t : TypeDef} (ha : image.Ancestry i ancestors root)
    (hroot : ∀ r, root = some r → layout r ≠ 0xFFFFFFFFFFFFFFFF) (ht : image.get TypeDef i = .ok t)
    (hp : p < t.instanceFieldCount.toNat) : 1 + inheritedFields layout ancestors root + p ≤ 0xFFFF := by
  have hword := one_add_inheritedFields_nil hroot
  have hinherited := h.inheritedFields_small ha hroot
  obtain ⟨t', ht', -, ancestors', root', ha', hfits⟩ := h.types i (lt_typeCount ht)
  cases ht.symm.trans ht'
  obtain ⟨rfl, rfl⟩ := ha.unique ha'
  have hfirst := hfits 0 (Nat.zero_lt_of_lt hp)
  have hfit := hfits p hp
  have hcount := t.instanceFieldCount.toNat_lt
  omega

variable {room index : Nat} {total : UInt64} {totals totals' more : FieldTotals}

end Image

namespace Assembly
variable {layout layout' : BaseLayout} {data : Bytes} {a : Assembly}

/-- The storage offset of a field in an image that loads: behind the head slot and what the last type with it in its
range inherits, modulo 2 ^ 64, which matters only below a type for which the layout gives the last word. No type
extends itself, and it does not matter which totals are known before. -/
theorem fieldOffset?_of_load (h : Assembly.load layout data = .ok a) :
    (∀ i < a.typeCount, ∃ ancestors root, a.Ancestry i ancestors root ∧
      (i :: ancestors.map Prod.fst).Nodup) ∧
    (∀ i, ¬ Relation.TransGen a.Extends i i) ∧
    (∀ field i t ancestors root, a.get TypeDef i = .ok t → field ∈ t.instanceFields →
      (∀ j t', i < j → a.get TypeDef j = .ok t' → field ∉ t'.instanceFields) →
      a.Ancestry i ancestors root →
      ∃ offset, a.fieldOffset? field = some offset ∧
        offset.toNat =
          (1 + Image.inheritedFields layout ancestors root + (field - t.instanceFieldsFirst.toNat)) % 2 ^ 64 ∧
        ((∀ r, root = some r → layout r ≠ 0xFFFFFFFFFFFFFFFF) → offset.toNat =
          1 + Image.inheritedFields layout ancestors root + (field - t.instanceFieldsFirst.toNat))) ∧
    (∀ field, (∀ i t, a.get TypeDef i = .ok t → field ∉ t.instanceFields) →
      a.fieldOffset? field = none) ∧
    ∀ totals, a.Memoised layout totals → ∃ totals',
      (List.range a.typeCount).foldlM (a.placeFields layout) (Array.replicate a.fieldCount none, totals) =
        .ok (a.fieldOffsets, totals') := by
  obtain ⟨totals, hrun, hres⟩ := resolved_of_load h
  have hancestry : ∀ i < a.typeCount, ∃ ancestors root, a.Ancestry i ancestors root := by
    intro i hi
    obtain ⟨-, -, ancestors, root, -, ha, -⟩ := hres.totals i (List.mem_range.2 hi)
    exact ⟨ancestors, root, ha⟩
  refine ⟨fun i hi => ?_, fun i hcycle => ?_, ?_, ?_, fun more hm => ?_⟩
  · obtain ⟨ancestors, root, ha⟩ := hancestry i hi
    exact ⟨ancestors, root, ha, ha.nodup⟩
  · obtain ⟨j, ⟨t, b, ht, -⟩, -⟩ := Relation.TransGen.head'_iff.1 hcycle
    obtain ⟨ancestors, root, ha⟩ := hancestry i (Image.lt_typeCount ht)
    exact ha.acyclic hcycle
  · intro field i t ancestors root ht hfield hlast ha
    have hplaced := hres.placed field
    have hi : i ∈ List.range a.typeCount := List.mem_range.2 (Image.lt_typeCount ht)
    cases hat : a.fieldOffsets.at? field with
    | none =>
      rw [hat] at hplaced
      exact absurd hfield (hplaced i hi t ht)
    | some offset =>
      rw [hat] at hplaced
      obtain ⟨earlier, k, later, t', ancestors', root', hsplit, ht', hfield', hlater, ha', hoffset⟩ := hplaced
      -- the offset comes from the last type that placed the field, which is the last one with it in its range
      obtain rfl : i = k := by
        rcases Nat.lt_trichotomy i k with hlt | rfl | hlt
        · exact absurd hfield' (hlast k t' hlt ht')
        · rfl
        · exact absurd hfield (hlater i (Image.lt_of_range_split hsplit (List.mem_range.1 hi) hlt) t ht)
      cases ht.symm.trans ht'
      obtain ⟨rfl, rfl⟩ := ha.unique ha'
      refine ⟨offset, hat, hoffset, fun hroot => hoffset.trans (Nat.mod_eq_of_lt ?_)⟩
      have hp : field - t.instanceFieldsFirst.toNat < t.instanceFieldCount.toNat :=
        Nat.sub_lt_left_of_lt_add hfield.1 hfield.2
      exact Nat.lt_of_le_of_lt ((acceptable_of_load h).offset_le ha hroot ht hp) (by decide)
  · intro field hnone
    have hplaced := hres.placed field
    cases hat : a.fieldOffsets.at? field with
    | none => exact hat
    | some offset =>
      rw [hat] at hplaced
      obtain ⟨-, i, -, t, -, -, -, ht, hfield, -⟩ := hplaced
      exact absurd hfield (hnone i t ht)
  · refine Image.foldlM_placeFields_fuller (.empty _ _) hm.tallied (fun i hi => ?_) hrun
    rw [FieldTotals.at?_replicate] at hi
    cases hi

theorem fieldOffset?_of_load_chain :
    Assembly.load (fun _ => 5) (chainHeader.encode.toArray ++ chainBody) = .ok chain ∧
      ∃ offset, chain.fieldOffset? 1 = some offset ∧ offset.toNat = 7 := by
  have hlast : ∀ j t', 1 < j → chain.get TypeDef j = .ok t' → 1 ∉ t'.instanceFields := by
    intro j t' hj ht'
    have hcount : chain.typeCount = 2 := by decide +kernel
    exact absurd (Image.lt_typeCount ht') (by omega)
  have hancestry : chain.Ancestry 1 [(0, chainBase)] (some 0) :=
    .own (t := chainDerived) (b := 0) (by decide +kernel) rfl (by decide +kernel)
      (.root (t := chainBase) (by decide +kernel) nofun)
  obtain ⟨-, -, hoffset, -⟩ := fieldOffset?_of_load load_chain
  obtain ⟨offset, hat, -, hexact⟩ := hoffset 1 1 chainDerived _ _ (by decide +kernel) (by decide) hlast hancestry
  exact ⟨load_chain, offset, hat, hexact fun _ _ => by decide⟩

/-- `chain` under a layout that counts as far as a word goes. -/
def wrapped : Assembly := { chain with fieldOffsets := #[some 0, some 1] }

/-- The field of the first type lies behind 2 ^ 64 slots, and gets the head slot. -/
theorem wrapped_offsets :
    Assembly.load (fun _ => 0xFFFFFFFFFFFFFFFF) (chainHeader.encode.toArray ++ chainBody) = .ok wrapped ∧
      wrapped.get TypeDef 0 = .ok chainBase ∧ 0 ∈ chainBase.instanceFields ∧
      (∀ j t', 0 < j → wrapped.get TypeDef j = .ok t' → 0 ∉ t'.instanceFields) ∧
      wrapped.Ancestry 0 [] (some 0) ∧
      1 + Image.inheritedFields (fun _ => 0xFFFFFFFFFFFFFFFF) [] (some 0) + (0 - chainBase.instanceFieldsFirst.toNat)
        = 2 ^ 64 ∧
      wrapped.fieldOffset? 0 = some 0 := by
  have hderived : wrapped.get TypeDef 1 = .ok chainDerived := by decide +kernel
  refine ⟨load_encode Array.toList_append (by decide +kernel) (by decide +kernel) (by decide +kernel),
    by decide +kernel, by decide, fun j t' hj ht' => ?_, .root (t := chainBase) (by decide +kernel) nofun, rfl, rfl⟩
  have hcount : wrapped.typeCount = 2 := by decide +kernel
  obtain rfl : j = 1 := by
    have := Image.lt_typeCount ht'
    omega
  cases hderived.symm.trans ht'
  decide

end Assembly
end CompactAssembly
