import CompactAssembly.Proofs.Ancestry

/-!
# Storage offsets of instance fields

Placing the fields of one more type gives each of them its offset behind what the type inherits and leaves
the others alone (`Placed.snoc`), so in every image that loads a field has the offset that the last type
with it in its range gives it, modulo 2 ^ 64. Totals that are known before make no difference
(`foldlM_placeFields_fuller`).
-/

namespace CompactAssembly

def FieldOffsets.at? (offsets : FieldOffsets) (field : Nat) : Option UInt16 := offsets[field]?.join

namespace Image
variable {image : Image} {layout : BaseLayout}

theorem at?_set {offsets : FieldOffsets} {i field : Nat} {offset : UInt16} (h : i < offsets.size) :
    FieldOffsets.at? (offsets.setIfInBounds i (some offset)) field =
      if i = field then some offset else offsets.at? field := by
  rw [FieldOffsets.at?, Array.getElem?_setIfInBounds, if_pos h]
  split <;> rfl

theorem ofNat_add_one (n : Nat) : UInt64.ofNat n + 1 = UInt64.ofNat (n + 1) := (UInt64.ofNat_add n 1).symm

/-- A field that gets an offset gets it in full, since the word fits 16 bits. -/
theorem assignOffsets_ok {typeIndex offset first count : Nat} {offsets offsets' : FieldOffsets}
    (h : assignOffsets typeIndex (UInt64.ofNat offset) offsets (List.range' first count) = .ok offsets')
    (field : Nat) :
    (field ∈ (⟨first, count⟩ : IndexRange) → ∃ placed, offsets'.at? field = some placed ∧
      placed.toNat = (offset + (field - first)) % 2 ^ 64) ∧
    (field ∉ (⟨first, count⟩ : IndexRange) → offsets'.at? field = offsets.at? field) := by
  have hmem : ∀ first count, field ∈ (⟨first, count⟩ : IndexRange) ↔ first ≤ field ∧ field < first + count :=
    fun _ _ => Iff.rfl
  simp only [hmem]
  induction count generalizing first offset offsets with
  | zero =>
    cases h
    exact ⟨fun hin => by omega, fun _ => rfl⟩
  | succ count ih =>
    rw [List.range'_succ, assignOffsets] at h
    split at h
    · cases h
    · next hoffset =>
      split at h
      · next hfirst =>
        rw [ofNat_add_one] at h
        obtain ⟨hin, hout⟩ := ih h
        rw [at?_set hfirst] at hout
        refine ⟨fun hfield => ?_, fun hfield => ?_⟩
        · by_cases he : first = field
          · subst he
            refine ⟨_, by rw [hout (by omega), if_pos rfl], ?_⟩
            rw [UInt64.lt_iff_toNat_lt, UInt64.toNat_ofNat'] at hoffset
            rw [UInt64.toNat_toUInt16, UInt64.toNat_ofNat', Nat.sub_self, Nat.add_zero]
            exact Nat.mod_eq_of_lt (Nat.lt_succ_of_le (Nat.le_of_not_lt hoffset))
          · have hsame : offset + 1 + (field - (first + 1)) = offset + (field - first) := by omega
            rw [← hsame]
            exact hin (by omega)
        · rw [hout (by omega), if_neg (by omega)]
      · cases h

theorem placeFields_iff {offsets offsets' : FieldOffsets} {totals totals' : FieldTotals} {i : Nat} :
    image.placeFields layout (offsets, totals) i = .ok (offsets', totals') ↔
      ∃ total t, image.Totals layout baseLimit i totals total totals' ∧ image.get TypeDef i = .ok t ∧
        assignOffsets i (1 + (total - t.instanceFieldCount.toUInt64)) offsets t.instanceFields.toList =
          .ok offsets' := by
  unfold placeFields
  simp only [bind_eq_ok, ← totalFields_iff]
  constructor
  · rintro ⟨⟨total, totals₁⟩, htotal, t, ht, offsets₁, hoffsets, ⟨⟩⟩
    exact ⟨total, t, htotal, ht, hoffsets⟩
  · rintro ⟨total, t, htotal, ht, hoffsets⟩
    exact ⟨_, htotal, t, ht, offsets', hoffsets, rfl⟩

theorem firstOwn_eq (inherited : Nat) (count : UInt8) :
    1 + (UInt64.ofNat (inherited + count.toNat) - count.toUInt64) = UInt64.ofNat (1 + inherited) := by
  rw [← ofNat_add_count, UInt64.add_sub_cancel, UInt64.ofNat_add]
  rfl

theorem totalFields_congr {image' : Image} (hget : image'.get TypeDef = image.get TypeDef) (layout : BaseLayout)
    (room : Nat) : image'.totalFields layout room = image.totalFields layout room := by
  induction room with
  | zero =>
    funext index totals
    simp only [totalFields]
  | succ room ih =>
    funext index totals
    simp only [totalFields, hget, ih]

theorem resolveOffsets_congr {image' : Image} (hcount : image'.count = image.count)
    (hget : image'.get TypeDef = image.get TypeDef) : image'.resolveOffsets = image.resolveOffsets := by
  have hplace : image'.placeFields = image.placeFields := by
    funext layout state index
    simp only [placeFields, totalFields_congr hget, hget]
  funext layout
  simp only [resolveOffsets, fieldCount, typeCount, hcount, hplace]

/-- Of the types at these indices, the last one with a field in its range gives it its offset. -/
def Placed (image : Image) (layout : BaseLayout) (indices : List Nat) (field : Nat) : Option UInt16 → Prop
  | none => ∀ i ∈ indices, ∀ t, image.get TypeDef i = .ok t → field ∉ t.instanceFields
  | some offset => ∃ earlier i later t ancestors root, indices = earlier ++ i :: later ∧
      image.get TypeDef i = .ok t ∧ field ∈ t.instanceFields ∧
      (∀ j ∈ later, ∀ t', image.get TypeDef j = .ok t' → field ∉ t'.instanceFields) ∧
      image.Ancestry i ancestors root ∧
      offset.toNat = (1 + inheritedFields layout ancestors root + (field - t.instanceFields.first)) % 2 ^ 64

theorem Placed.snoc {indices : List Nat} {field i : Nat} {total : UInt64} {t : TypeDef}
    {offsets offsets' : FieldOffsets}
    (h : image.Placed layout indices field (offsets.at? field)) (ht : image.get TypeDef i = .ok t)
    (htotal : image.HasTotal layout i total)
    (hoffsets : assignOffsets i (1 + (total - t.instanceFieldCount.toUInt64)) offsets t.instanceFields.toList =
      .ok offsets') :
    image.Placed layout (indices ++ [i]) field (offsets'.at? field) := by
  obtain ⟨t', ancestors, root, ht', ha, rfl⟩ := htotal
  cases ht.symm.trans ht'
  rw [firstOwn_eq] at hoffsets
  obtain ⟨hin, hout⟩ := assignOffsets_ok hoffsets field
  by_cases hfield : field ∈ t.instanceFields
  · obtain ⟨placed, hat, hplaced⟩ := hin hfield
    rw [hat]
    exact ⟨indices, i, [], t, ancestors, root, rfl, ht, hfield, nofun, ha, hplaced⟩
  · rw [hout hfield]
    have hlast : ∀ j ∈ [i], ∀ t', image.get TypeDef j = .ok t' → field ∉ t'.instanceFields := by
      intro j hj t' ht'
      cases List.mem_singleton.1 hj
      cases ht.symm.trans ht'
      exact hfield
    cases hat : offsets.at? field with
    | none =>
      rw [hat] at h
      intro j hj
      exact (List.mem_append.1 hj).elim (h j) (hlast j)
    | some offset =>
      rw [hat] at h
      obtain ⟨earlier, k, later, t₀, ancestors, root, rfl, hk, hmem, hlater, hrest⟩ := h
      refine ⟨earlier, k, later ++ [i], t₀, ancestors, root, by simp, hk, hmem, fun j hj => ?_, hrest⟩
      exact (List.mem_append.1 hj).elim (hlater j) (hlast j)

theorem mem_of_range_split {n k : Nat} {earlier later : List Nat} (h : List.range n = earlier ++ k :: later)
    {i : Nat} (hi : i < k) : i ∈ earlier := by
  have hsorted : (earlier ++ k :: later).Pairwise (· < ·) := h ▸ List.pairwise_lt_range
  have hk : k ∈ List.range n := h ▸ List.mem_append_right _ List.mem_cons_self
  have hmem : i ∈ earlier ++ k :: later := h ▸ List.mem_range.2 (Nat.lt_trans hi (List.mem_range.1 hk))
  rcases List.mem_append.1 hmem with hearlier | hrest
  · exact hearlier
  · have hlater := (List.pairwise_cons.1 (List.pairwise_append.1 hsorted).2.1).1
    rcases List.mem_cons.1 hrest with rfl | hrest
    · exact absurd hi (Nat.lt_irrefl _)
    · exact absurd (hlater i hrest) (Nat.lt_asymm hi)

theorem lt_of_range_split {n k : Nat} {earlier later : List Nat} (h : List.range n = earlier ++ k :: later)
    {i : Nat} (hi : i < n) (hk : k < i) : i ∈ later := by
  have hsorted : (earlier ++ k :: later).Pairwise (· < ·) := h ▸ List.pairwise_lt_range
  have hmem : i ∈ earlier ++ k :: later := h ▸ List.mem_range.2 hi
  rcases List.mem_append.1 hmem with hearlier | hrest
  · have := (List.pairwise_append.1 hsorted).2.2 i hearlier k List.mem_cons_self
    omega
  · rcases List.mem_cons.1 hrest with rfl | hlater
    · exact absurd hk (Nat.lt_irrefl _)
    · exact hlater

/-- What is known after the fields of some types were placed. -/
structure Resolved (image : Image) (layout : BaseLayout) (indices : List Nat)
    (state : FieldOffsets × FieldTotals) : Prop where
  tallied : image.Tallied layout state.2
  totals : ∀ i ∈ indices, ∃ total, image.HasTotal layout i total
  placed : ∀ field, image.Placed layout indices field (state.1.at? field)

theorem Resolved.snoc {indices : List Nat} {i : Nat} {state state' : FieldOffsets × FieldTotals}
    (h : image.Resolved layout indices state) (hrun : image.placeFields layout state i = .ok state') :
    image.Resolved layout (indices ++ [i]) state' := by
  obtain ⟨total, t, hwalk, ht, hoffsets⟩ := placeFields_iff.1 hrun
  obtain ⟨htallied, -, htotal⟩ := hwalk.tallied h.tallied
  refine ⟨htallied, fun j hj => ?_, fun field => (h.placed field).snoc ht htotal hoffsets⟩
  rcases List.mem_append.1 hj with hj | hj
  · exact h.totals j hj
  · exact ⟨total, List.mem_singleton.1 hj ▸ htotal⟩

theorem resolved_none (image : Image) {totals : FieldTotals} (h : image.Tallied layout totals) :
    image.Resolved layout [] (Array.replicate image.fieldCount none, totals) := by
  refine ⟨h, nofun, fun field => ?_⟩
  have hnone : FieldOffsets.at? (Array.replicate image.fieldCount none) field = none := by
    rw [FieldOffsets.at?, Array.getElem?_replicate]
    split <;> rfl
  rw [hnone]
  exact nofun

theorem foldlM_placeFields {state state' : FieldOffsets × FieldTotals} {indices : List Nat}
    (h : image.Resolved layout [] state)
    (hrun : indices.foldlM (image.placeFields layout) state = .ok state') :
    image.Resolved layout indices state' :=
  foldlM_keeps (fun _ _ _ _ _ _ hres => hres.snoc) h hrun

/-- With more totals known the fields are placed the same. -/
theorem foldlM_placeFields_fuller {offsets offsets' : FieldOffsets} {totals totals' more : FieldTotals}
    {indices : List Nat} (h : image.Tallied layout totals) (hm : image.Tallied layout more)
    (hbelow : totals.Below more)
    (hrun : indices.foldlM (image.placeFields layout) (offsets, totals) = .ok (offsets', totals')) :
    ∃ more', indices.foldlM (image.placeFields layout) (offsets, more) = .ok (offsets', more') := by
  induction indices generalizing offsets totals more with
  | nil =>
    cases hrun
    exact ⟨more, rfl⟩
  | cons i indices ih =>
    rw [List.foldlM_cons] at hrun ⊢
    obtain ⟨⟨offsets₁, totals₁⟩, hstep, hrun⟩ := bind_eq_ok.1 hrun
    obtain ⟨total, t, hwalk, ht, hoffsets⟩ := placeFields_iff.1 hstep
    obtain ⟨more₁, hwalk', hbelow'⟩ := hwalk.fuller h hm hbelow
    obtain ⟨more', hmore'⟩ := ih (hwalk.tallied h).1 (hwalk'.tallied hm).1 hbelow' hrun
    exact ⟨more', bind_eq_ok.2 ⟨_, placeFields_iff.2 ⟨total, t, hwalk', ht, hoffsets⟩, hmore'⟩⟩

/-- Tables of totals that come from totalling any types in any order. -/
inductive Memoised (image : Image) (layout : BaseLayout) : FieldTotals → Prop
  | none : Memoised image layout (Array.replicate image.typeCount .none)
  | total {room index : Nat} {total : UInt64} {totals totals' : FieldTotals} (h : Memoised image layout totals)
    (hrun : image.totalFields layout room index totals = .ok (total, totals')) : Memoised image layout totals'

theorem Memoised.tallied {totals : FieldTotals} (h : image.Memoised layout totals) :
    image.Tallied layout totals := by
  induction h with
  | none => exact .empty image layout
  | total _ hrun ih => exact ((totalFields_iff.1 hrun).tallied ih).1

end Image

namespace Assembly
variable {a : Assembly} {layout : BaseLayout} {data : Bytes}

theorem resolved_of_load (h : Assembly.load layout data = .ok a) :
    ∃ totals, (List.range a.typeCount).foldlM (a.placeFields layout)
        (Array.replicate a.fieldCount none, Array.replicate a.typeCount none) = .ok (a.fieldOffsets, totals) ∧
      a.Resolved layout (List.range a.typeCount) (a.fieldOffsets, totals) := by
  obtain ⟨-, -, hoffsets⟩ := load_ok h
  obtain ⟨⟨offsets, totals⟩, hrun, hsame⟩ := bind_eq_ok.1 hoffsets
  cases hsame
  exact ⟨totals, hrun, Image.foldlM_placeFields (Image.resolved_none _ (.empty _ _)) hrun⟩

def chainHeader : Header where
  headerCrc := 0
  assemblyCrc := 0
  flags := 0
  nativeChecksum := 0
  patchEntryOffset := 0xFFFFFFFF
  version := .zero
  assemblyName := noReference
  stringTableVersion := 1
  starts := #v[124, 124, 124, 124, 124, 172, 188, 188, 188, 188, 188, 188, 188, 188, 188, 188]
  patchedMethodCount := 0
  paddings := #v[0, 0, 0, 0, 0, 0, 0, 0, 0, 0, 0, 0, 0, 0, 0, 0]

/-- Two types with a field each: the first extends a referenced type, the second the first. -/
def chainBody : Bytes :=
  #[255, 255, 255, 255, 0, 128, 255, 255, 0, 0, 255, 255, 0, 0, 0, 0, 0, 17, 0, 0, 0, 0, 0, 1,
    255, 255, 255, 255, 0, 0, 255, 255, 0, 0, 255, 255, 0, 0, 0, 0, 0, 17, 0, 0, 1, 0, 0, 1,
    255, 255, 0, 0, 255, 255, 0, 0,
    255, 255, 0, 0, 255, 255, 0, 0]

def chainBase : TypeDef :=
  ⟨0xFFFF, 0xFFFF, 0x8000, 0xFFFF, ⟨0⟩, 0xFFFF, 0, 0, 0, 0, 17, 0, 0, 0, 1⟩

def chainDerived : TypeDef :=
  ⟨0xFFFF, 0xFFFF, 0, 0xFFFF, ⟨0⟩, 0xFFFF, 0, 0, 0, 0, 17, 0, 1, 0, 1⟩

def chain : Assembly where
  toImage := Image.view (chainHeader.encode.toArray ++ chainBody) chainHeader
  owners := ⟨#[some 0, some 1], #[]⟩
  fieldOffsets := #[some 6, some 7]

theorem load_chain :
    Assembly.load (fun _ => 5) (chainHeader.encode.toArray ++ chainBody) = .ok chain :=
  load_encode Array.toList_append (by decide +kernel) (by decide +kernel) (by decide +kernel)

end Assembly

end CompactAssembly
