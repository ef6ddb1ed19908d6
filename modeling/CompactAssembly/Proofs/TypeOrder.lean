import CompactAssembly.Proofs.Acceptance
import CompactAssembly.Proofs.ImageLayout
import Mathlib.Logic.Equiv.Defs

/-!
# Loading and the order of the types

`Image.Renumbered σ image image'`: the types of one image are those of the other in another order, with the
links between them renumbered. What a load asks of each type goes over from one to the other
(`Renumbered.acceptable`), so both load or neither, unless one of them has a chain of links too long for the
room of a walk. Such a chain loads base first and not the other way round (`load_depends_on_order`).
-/

namespace CompactAssembly

/-- Index of the type of the image that a type extends. -/
def TypeDef.ownBase? (t : TypeDef) : Option Nat :=
  match t.base? with
  | some (.own b) => some b.toNat
  | _ => none

/-- The same type under other indices: its links to types of the image are renumbered, the rest stays. -/
structure TypeDef.Renumbered (σ : Equiv.Perm Nat) (t t' : TypeDef) : Prop where
  rest : { t' with base := t.base, enclosing := t.enclosing } = t
  base : t'.ownBase? = t.ownBase?.map σ
  root : t'.root? = t.root?
  enclosing : t'.enclosing?.map UInt16.toNat = t.enclosing?.map fun index => σ index.toNat

namespace TypeDef
variable {t t' : TypeDef} {σ : Equiv.Perm Nat}

theorem ownBase?_eq_some {j : Nat} : t.ownBase? = some j ↔ ∃ b, t.base? = some (.own b) ∧ b.toNat = j := by
  unfold ownBase?
  split
  · next b hb =>
    rw [hb]
    constructor
    · intro h
      exact ⟨b, rfl, Option.some.inj h⟩
    · rintro ⟨b', hb', rfl⟩
      cases hb'
      rfl
  · next hnone =>
    refine iff_of_false nofun ?_
    rintro ⟨b, hb, -⟩
    exact hnone b hb

theorem ownBase?_eq_none : t.ownBase? = none ↔ ∀ b, t.base? ≠ some (.own b) := by
  rw [← Option.not_isSome_iff_eq_none, Option.isSome_iff_exists]
  simp only [ownBase?_eq_some, not_exists, not_and]
  constructor
  · intro h b hb
    exact h _ b hb rfl
  · rintro h j b hb -
    exact h b hb

namespace Renumbered

theorem symm (h : t.Renumbered σ t') : t'.Renumbered σ.symm t where
  rest := by
    rw [← h.rest]
  base := by
    rw [h.base, Option.map_map, Equiv.symm_comp_self, Option.map_id_fun, id]
  root := h.root.symm
  enclosing := by
    have hback := congrArg (Option.map σ.symm) h.enclosing
    simp only [Option.map_map, Function.comp_def, Equiv.symm_apply_apply] at hback
    exact hback.symm

theorem instanceFieldCount (h : t.Renumbered σ t') : t'.instanceFieldCount = t.instanceFieldCount := by
  rw [← h.rest]

theorem within (h : t.Renumbered σ t') {methods fields : Nat} (hw : t.Within methods fields) :
    t'.Within methods fields := by
  obtain ⟨hm, hs, hi⟩ := hw
  rw [← h.rest] at hm hs hi
  exact ⟨hm, hs, hi⟩

end Renumbered

end TypeDef

namespace Image
variable {image image' : Image} {σ : Equiv.Perm Nat} {layout : BaseLayout}

/-- Two images of one size and one layout of regions whose types differ by their order alone. -/
structure Renumbered (σ : Equiv.Perm Nat) (image image' : Image) : Prop where
  size : image'.data.size = image.data.size
  starts : image'.header.starts = image.header.starts
  paddings : image'.header.paddings = image.header.paddings
  index : ∀ i, σ i < image.typeCount ↔ i < image.typeCount
  types : ∀ i < image.typeCount, ∃ t t', image.get TypeDef i = .ok t ∧ image'.get TypeDef (σ i) = .ok t' ∧
    t.Renumbered σ t'

namespace Renumbered

theorem start (h : image.Renumbered σ image') (kind : TableKind) :
    image'.header.start kind = image.header.start kind := by
  rw [Header.start, h.starts, Header.start]

theorem regionSize (h : image.Renumbered σ image') (kind : TableKind) :
    image'.header.regionSize kind = image.header.regionSize kind :=
  Header.regionSize_congr h.start (fun kind => by rw [Header.padding, h.paddings, Header.padding]) kind

theorem count (h : image.Renumbered σ image') : image'.count = image.count :=
  funext fun kind => count_congr (h.regionSize kind)

theorem typeCount (h : image.Renumbered σ image') : image'.typeCount = image.typeCount := by
  rw [Image.typeCount, h.count, Image.typeCount]

theorem symm (h : image.Renumbered σ image') : image'.Renumbered σ.symm image where
  size := h.size.symm
  starts := h.starts.symm
  paddings := h.paddings.symm
  index i := by
    rw [h.typeCount, ← h.index, Equiv.apply_symm_apply]
  types i hi := by
    rw [h.typeCount, ← σ.apply_symm_apply i, h.index] at hi
    obtain ⟨t, t', ht, ht', hr⟩ := h.types _ hi
    rw [Equiv.apply_symm_apply] at ht'
    exact ⟨t', t, ht', ht, hr.symm⟩

theorem get (h : image.Renumbered σ image') {i : Nat} {t : TypeDef} (ht : image.get TypeDef i = .ok t) :
    ∃ t', image'.get TypeDef (σ i) = .ok t' ∧ t.Renumbered σ t' := by
  obtain ⟨t₀, t', ht₀, ht', hr⟩ := h.types i (lt_typeCount ht)
  cases ht.symm.trans ht₀
  exact ⟨t', ht', hr⟩

/-- The bases of a type are those of the type it became, with the same numbers of fields. -/
theorem ancestry (h : image.Renumbered σ image') {i : Nat} {ancestors : List (Nat × TypeDef)}
    {root : Option UInt16} (ha : image.Ancestry i ancestors root) :
    ∃ ancestors', image'.Ancestry (σ i) ancestors' root ∧
      ancestors'.map (·.2.instanceFieldCount.toNat) = ancestors.map (·.2.instanceFieldCount.toNat) := by
  induction ha with
  | root ht hb =>
    obtain ⟨t', ht', hr⟩ := h.get ht
    refine ⟨[], ?_, rfl⟩
    rw [← hr.root]
    refine .root ht' ?_
    rw [← TypeDef.ownBase?_eq_none, hr.base, TypeDef.ownBase?_eq_none.2 hb]
    rfl
  | @own i t base b ancestors root ht hb hbase _ ih =>
    obtain ⟨t', ht', hr⟩ := h.get ht
    obtain ⟨base', hbase', hrbase⟩ := h.get hbase
    obtain ⟨ancestors', ha', hcounts⟩ := ih
    have hown : t'.ownBase? = some (σ b.toNat) := by
      rw [hr.base, TypeDef.ownBase?_eq_some.2 ⟨b, hb, rfl⟩]
      rfl
    obtain ⟨b', hb', hσ⟩ := TypeDef.ownBase?_eq_some.1 hown
    rw [← hσ] at hbase' ha'
    refine ⟨(b'.toNat, base') :: ancestors', .own ht' hb' hbase' ha', ?_⟩
    rw [List.map_cons, List.map_cons, hcounts, hrbase.instanceFieldCount]

theorem short (h : image.Renumbered σ image') {limit : Nat}
    (hshort : ∀ i ancestors root, image.Ancestry i ancestors root → ancestors.length < limit) :
    ∀ i ancestors root, image'.Ancestry i ancestors root → ancestors.length < limit := by
  intro i ancestors root ha
  obtain ⟨ancestors', ha', hcounts⟩ := h.symm.ancestry ha
  have hlen := congrArg List.length hcounts
  rw [List.length_map, List.length_map] at hlen
  exact hlen ▸ hshort _ _ _ ha'

theorem acceptable (h : image.Renumbered σ image') (ha : image.Acceptable layout) : image'.Acceptable layout where
  extents := by
    refine ⟨?_, ?_, fun kind => ?_⟩
    · rw [Header.totalSize, h.start, h.size]
      exact ha.extents.available
    · rw [Header.totalSize, h.start]
      exact ha.extents.size
    · rw [h.regionSize]
      exact ha.extents.region kind
  types i hi := by
    obtain ⟨t', t, ht', ht, hr⟩ := h.symm.types i hi
    have hr := hr.symm
    rw [Equiv.symm_symm] at hr
    obtain ⟨t₀, ht₀, hwithin, ancestors, root, hancestry, hfits⟩ := ha.types _ (lt_typeCount ht)
    cases ht.symm.trans ht₀
    obtain ⟨ancestors', hancestry', hcounts⟩ := h.ancestry hancestry
    rw [Equiv.apply_symm_apply] at hancestry'
    refine ⟨t', ht', ?_, ancestors', root, hancestry', ?_⟩
    · rw [methodCount, fieldCount, h.count]
      exact hr.within hwithin
    · rw [hr.instanceFieldCount, inheritedFields, hcounts]
      exact hfits

end Renumbered

theorem totalFields_of_leads {room i j : Nat} {totals : FieldTotals} (hnone : ∀ i, totals.at? i = none)
    (h : image.Leads room i j) : image.totalFields layout room i totals = .error (.nestingLimit baseLimit) := by
  have hunknown : ∀ i, totals[i]?.join = none := hnone
  induction room generalizing i with
  | zero =>
    unfold totalFields
    rw [hunknown]
  | succ room ih =>
    obtain ⟨k, ⟨t, b, ht, hb, rfl⟩, hrest⟩ := h
    unfold totalFields
    rw [hunknown]
    simp only [ht, hb, ih hrest, bind, Except.bind]

theorem resolveOffsets_of_leads {j : Nat} (hcount : 0 < image.typeCount) (h : image.Leads baseLimit 0 j) :
    image.resolveOffsets layout = .error (.nestingLimit baseLimit) := by
  obtain ⟨count, hcount⟩ := Nat.exists_eq_add_of_lt hcount
  rw [Nat.zero_add] at hcount
  have hfirst : ∀ offsets, image.placeFields layout (offsets, Array.replicate image.typeCount none) 0 =
      .error (.nestingLimit baseLimit) := by
    intro offsets
    exact bind_eq_error.2 (.inl (totalFields_of_leads (FieldTotals.at?_replicate _) h))
  have hrange : List.range image.typeCount = 0 :: (List.range count).map Nat.succ := by
    rw [hcount, List.range_succ_eq_map]
  refine bind_eq_error.2 (.inl ?_)
  rw [hrange, List.foldlM_cons]
  exact bind_eq_error.2 (.inl (hfirst _))

theorem Ancestry.length_lt_typeCount {i : Nat} {ancestors : List (Nat × TypeDef)} {root : Option UInt16}
    (h : image.Ancestry i ancestors root) : ancestors.length < image.typeCount := by
  have hmem : i :: ancestors.map Prod.fst ⊆ List.range image.typeCount := by
    intro j hj
    rw [List.mem_range]
    rcases List.mem_cons.1 hj with rfl | hj
    · obtain ⟨t, ht⟩ := h.exists_get .refl
      exact lt_typeCount ht
    · obtain ⟨⟨_, t⟩, ht, rfl⟩ := List.mem_map.1 hj
      obtain ⟨earlier, rest, -, hrest⟩ := h.of_mem ht
      obtain ⟨t', ht'⟩ := hrest.exists_get .refl
      exact lt_typeCount ht'
  have hlen := (List.subperm_of_subset h.nodup hmem).length_le
  rw [List.length_cons, List.length_map, List.length_range] at hlen
  exact hlen

end Image

namespace Assembly

/-- Whether an image loads does not depend on the order of its types as long as no chain of links has more
types than a walk may visit; otherwise an order may at most turn a success into the fault of a chain too long.
That fault comes only where so many links follow one another. -/
theorem load_renumbered (layout : BaseLayout) :
    (∀ (σ : Equiv.Perm Nat) (data data' : Bytes) (header header' : Header),
      Header.read data = .ok header → Header.read data' = .ok header' →
      (Image.view data header).Renumbered σ (Image.view data' header') →
      ((∀ i ancestors root, (Image.view data header).Ancestry i ancestors root → ancestors.length < baseLimit) →
        ((∃ a, Assembly.load layout data = .ok a) ↔ ∃ a', Assembly.load layout data' = .ok a')) ∧
      ((∃ a, Assembly.load layout data = .ok a) → (∃ a', Assembly.load layout data' = .ok a') ∨
        Assembly.load layout data' = .error (.nestingLimit baseLimit))) ∧
    ∀ (data : Bytes) (limit : Nat), Assembly.load layout data = .error (.nestingLimit limit) →
      ∃ header, Header.read data = .ok header ∧ limit = baseLimit ∧
        ∃ i j, (Image.view data header).Leads baseLimit i j := by
  have hload : ∀ {σ : Equiv.Perm Nat} {data data' : Bytes} {header header' : Header},
      Header.read data = .ok header → Header.read data' = .ok header' →
      (Image.view data header).Renumbered σ (Image.view data' header') →
      (∃ a, Assembly.load layout data = .ok a) → (Image.view data' header').Acceptable layout := by
    rintro σ data data' header header' hread hread' h ⟨a, ha⟩
    have hacceptable := acceptable_of_load ha
    obtain ⟨hreada, hdata, -⟩ := extents_of_load ha
    cases hread.symm.trans hreada
    rw [view_of_load ha, hdata] at hacceptable
    exact h.acceptable hacceptable
  refine ⟨fun σ data data' header header' hread hread' h => ⟨fun hshort => ⟨fun hok => ?_, fun hok => ?_⟩,
    fun hok => ?_⟩, fun data limit => leads_of_load⟩
  · exact load_of_short hread' (hload hread hread' h hok) (h.short hshort)
  · exact load_of_short hread (hload hread' hread h.symm hok) hshort
  · rcases load_of_acceptable hread' (hload hread hread' h hok) with hok' | ⟨herror, -⟩
    · exact .inl hok'
    · exact .inr herror

/-- The two types of `chain`, the derived one first. -/
def swappedBody : Bytes :=
  #[255, 255, 255, 255, 1, 0, 255, 255, 0, 0, 255, 255, 0, 0, 0, 0, 0, 17, 0, 0, 1, 0, 0, 1,
    255, 255, 255, 255, 0, 128, 255, 255, 0, 0, 255, 255, 0, 0, 0, 0, 0, 17, 0, 0, 0, 0, 0, 1,
    255, 255, 0, 0, 255, 255, 0, 0,
    255, 255, 0, 0, 255, 255, 0, 0]

theorem renumbered_chain :
    (Image.view (chainHeader.encode.toArray ++ chainBody) chainHeader).Renumbered (Equiv.swap 0 1)
      (Image.view (chainHeader.encode.toArray ++ swappedBody) chainHeader) := by
  have hcount : (Image.view (chainHeader.encode.toArray ++ chainBody) chainHeader).typeCount = 2 := by
    decide +kernel
  refine ⟨by decide +kernel, by simp only [Image.view], by simp only [Image.view], fun i => ?_, fun i hi => ?_⟩
  · rw [hcount, Equiv.swap_apply_def]
    split_ifs <;> omega
  · rw [hcount] at hi
    rcases i with _ | _ | i
    · exact ⟨chainBase, chainBase, by decide +kernel, by decide +kernel, rfl, by decide, rfl, rfl⟩
    · exact ⟨chainDerived, { chainDerived with base := 1 }, by decide +kernel, by decide +kernel, rfl,
        by decide, rfl, rfl⟩
    · omega

theorem load_renumbered_chain :
    Assembly.load (fun _ => 5) (chainHeader.encode.toArray ++ chainBody) = .ok chain ∧
      ∃ a, Assembly.load (fun _ => 5) (chainHeader.encode.toArray ++ swappedBody) = .ok a := by
  have hread : ∀ body, Header.read (chainHeader.encode.toArray ++ body) = .ok chainHeader := fun body =>
    Header.read_of_holdsAt ⟨[], body.toList, by rw [Array.toList_append]; rfl, rfl⟩
  have hshort : ∀ i ancestors root,
      (Image.view (chainHeader.encode.toArray ++ chainBody) chainHeader).Ancestry i ancestors root →
        ancestors.length < baseLimit := by
    intro i ancestors root ha
    refine Nat.lt_trans ha.length_lt_typeCount ?_
    decide +kernel
  obtain ⟨hiff, -⟩ := (load_renumbered fun _ => 5).1 _ _ _ _ _ (hread _) (hread _) renumbered_chain
  exact ⟨load_chain, (hiff hshort).1 ⟨chain, load_chain⟩⟩

/-! ### A chain of one link too many -/

def towerHeader : Header :=
  { chainHeader with
    starts := #v[124, 124, 124, 124, 124, 1684, 1684, 1684, 1684, 1684, 1684, 1684, 1684, 1684, 1684, 1684] }

def tower (types : Array TypeDef) : Bytes := towerHeader.encode.toArray ++ encodeRows types

def storey (base : UInt16) : TypeDef :=
  ⟨0xFFFF, 0xFFFF, base, 0xFFFF, ⟨0⟩, 0xFFFF, 0, 0, 0, 0, 17, 0, 0, 0, 0⟩

def upward (i : Nat) : UInt16 := if i < 64 then UInt16.ofNat (i + 1) else noReference

def downward (i : Nat) : UInt16 := if 0 < i then UInt16.ofNat (i - 1) else noReference

def storeys (link : Nat → UInt16) : Array TypeDef := Array.ofFn fun i : Fin 65 => storey (link i)

theorem size_storeys (link : Nat → UInt16) : (storeys link).size = 65 := Array.size_ofFn

def turned : Equiv.Perm Nat := Function.Involutive.toPerm (fun i => if i < 65 then 64 - i else i) (by
  intro i
  by_cases hi : i < 65
  · have hback : 64 - i < 65 := by omega
    simp only [hi, hback, ↓reduceIte]
    omega
  · simp only [hi, ↓reduceIte])

theorem stores_tower {types : Array TypeDef} (hsize : types.size = 65) : towerHeader.Stores (tower types) types where
  recordSize := rfl
  count := by
    have hregion : towerHeader.regionSize .typeDef = .ok 1560 := by decide
    rw [hsize, show Row.kind TypeDef = .typeDef from rfl, hregion]
    decide
  read i hi := by
    have hd : (tower types).HoldsAt 124 (encodeRows types).toList :=
      ⟨towerHeader.encode, [], by rw [tower, Array.toList_append, List.append_nil], towerHeader.length_encode⟩
    have hstart : towerHeader.start (Row.kind TypeDef) = 124 := by decide
    rw [hstart]
    exact (LawfulRow.reads _).value (hd.row hi)

theorem size_tower {types : Array TypeDef} (hsize : types.size = 65) : (tower types).size = 1684 := by
  rw [tower, Array.size_append, size_encodeRows, hsize, List.size_toArray, Header.length_encode]
  decide

theorem read_tower (types : Array TypeDef) : Header.read (tower types) = .ok towerHeader := by
  refine Header.read_of_holdsAt ⟨[], (encodeRows types).toList, ?_, rfl⟩
  rw [tower, Array.toList_append, List.nil_append]

theorem count_tower {types : Array TypeDef} (hsize : types.size = 65) :
    (Image.view (tower types) towerHeader).typeCount = 65 :=
  (stores_tower hsize).count_view.trans hsize

theorem get_tower {link : Nat → UInt16} {i : Nat} (hi : i < 65) :
    (Image.view (tower (storeys link)) towerHeader).get TypeDef i = .ok (storey (link i)) := by
  rw [(stores_tower (size_storeys link)).get_view (by rw [size_storeys]; exact hi)]
  simp only [storeys, Array.getElem_ofFn]

theorem ownBase?_upward : ∀ i < 64, (storey (upward i)).ownBase? = some (i + 1) := by decide

theorem ownBase?_downward : ∀ i < 64, (storey (downward (i + 1))).ownBase? = some i := by decide

theorem renumbered_storey : ∀ i < 65,
    (storey (downward (turned i))).ownBase? = (storey (upward i)).ownBase?.map turned ∧
      (storey (downward (turned i))).root? = (storey (upward i)).root? := by decide

theorem turned_lt (i : Nat) : turned i < 65 ↔ i < 65 := by
  show (if i < 65 then 64 - i else i) < 65 ↔ i < 65
  split <;> omega

theorem renumbered_tower : (Image.view (tower (storeys upward)) towerHeader).Renumbered turned
    (Image.view (tower (storeys downward)) towerHeader) := by
  have hcount := count_tower (size_storeys upward)
  refine ⟨?_, by simp only [Image.view], by simp only [Image.view], fun i => ?_, fun i hi => ?_⟩
  · simp only [Image.view, size_tower (size_storeys _)]
  · rw [hcount, turned_lt]
  · rw [hcount] at hi
    obtain ⟨hbase, hroot⟩ := renumbered_storey i hi
    exact ⟨_, _, get_tower hi, get_tower ((turned_lt i).2 hi), rfl, hbase, hroot, rfl⟩

theorem ancestry_downward {i : Nat} (hi : i < 65) : ∃ ancestors root,
    (Image.view (tower (storeys downward)) towerHeader).Ancestry i ancestors root := by
  induction i with
  | zero =>
    refine ⟨[], _, .root (get_tower hi) ?_⟩
    exact TypeDef.ownBase?_eq_none.1 (by decide)
  | succ i ih =>
    obtain ⟨ancestors, root, ha⟩ := ih (by omega)
    obtain ⟨b, hb, rfl⟩ := TypeDef.ownBase?_eq_some.1 (ownBase?_downward i (by omega))
    exact ⟨_, root, .own (get_tower hi) hb (get_tower (by omega)) ha⟩

theorem acceptable_downward : (Image.view (tower (storeys downward)) towerHeader).Acceptable .bare where
  extents := by
    have hcheck : towerHeader.checkExtents 1684 = .ok () := by decide
    rw [show (Image.view (tower (storeys downward)) towerHeader).data.size = 1684 from size_tower (size_storeys _)]
    exact Header.checkExtents_iff.1 hcheck
  types i hi := by
    rw [count_tower (size_storeys _)] at hi
    obtain ⟨ancestors, root, ha⟩ := ancestry_downward hi
    have hwithin : ∀ methods fields, (storey (downward i)).Within methods fields := fun methods fields =>
      TypeDef.within_of_stop_le (Nat.zero_le methods) (Nat.zero_le fields) (Nat.zero_le fields)
    exact ⟨_, get_tower hi, hwithin _ _, ancestors, root, ha, nofun⟩

theorem leads_upward {n i : Nat} (h : i + n < 65) :
    (Image.view (tower (storeys upward)) towerHeader).Leads n i (i + n) := by
  induction n generalizing i with
  | zero => rfl
  | succ n ih =>
    obtain ⟨b, hb, hnext⟩ := TypeDef.ownBase?_eq_some.1 (ownBase?_upward i (by omega))
    refine ⟨i + 1, ⟨_, b, get_tower (by omega), hb, hnext⟩, ?_⟩
    rw [← Nat.add_assoc, Nat.add_right_comm]
    exact ih (by omega)

/-- A chain of 65 types loads base first and is refused the other way round, although its links are in range and
end and there is no field to place. -/
theorem load_depends_on_order :
    ∃ a, Header.read (tower (storeys upward)) = .ok towerHeader ∧
      Header.read (tower (storeys downward)) = .ok towerHeader ∧
      (Image.view (tower (storeys upward)) towerHeader).Renumbered turned
        (Image.view (tower (storeys downward)) towerHeader) ∧
      (Image.view (tower (storeys upward)) towerHeader).Acceptable .bare ∧
      Assembly.load .bare (tower (storeys upward)) = .error (.nestingLimit 64) ∧
      Assembly.load .bare (tower (storeys downward)) = .ok a := by
  have hacceptable := renumbered_tower.symm.acceptable acceptable_downward
  have hfirst : ∀ i j, (Image.view (tower (storeys downward)) towerHeader).Extends i j → j < i := by
    rintro i j ⟨t, b, ht, hb, rfl⟩
    have hi : i < 65 := count_tower (size_storeys downward) ▸ Image.lt_typeCount ht
    cases (get_tower hi).symm.trans ht
    have hbase := TypeDef.ownBase?_eq_some.2 ⟨b, hb, rfl⟩
    rcases i with _ | i
    · have hroot : (storey (downward 0)).ownBase? = none := by decide
      cases hroot.symm.trans hbase
    · rw [ownBase?_downward i (by omega)] at hbase
      have := Option.some.inj hbase
      omega
  obtain ⟨a, ha⟩ := load_of_bases_first (read_tower _) acceptable_downward hfirst
  refine ⟨a, read_tower _, read_tower _, renumbered_tower, hacceptable, ?_, ha⟩
  obtain ⟨owners, hload⟩ := load_eq_of_acceptable (read_tower _) hacceptable
  have hcount : 0 < (Image.view (tower (storeys upward)) towerHeader).typeCount := by
    rw [count_tower (size_storeys _)]
    omega
  rw [hload, Image.resolveOffsets_of_leads hcount (leads_upward (show 0 + baseLimit < 65 by decide))]
  rfl

end Assembly
end CompactAssembly
