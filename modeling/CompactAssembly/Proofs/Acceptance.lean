import CompactAssembly.Proofs.Indexing

/-!
# Which images load

`Image.Acceptable`: what a load asks of an image, said of each type by itself and so without regard to the
order of the types. Every image that loads is acceptable (`acceptable_of_load`); an acceptable image loads
unless as many links as `baseLimit` follow one another (`load_of_acceptable`), and always if each type stands
behind its base (`load_of_bases_first`).
-/

namespace CompactAssembly

theorem Owners.exists_assign {owners : Owners} {range : IndexRange} (h : ∀ i ∈ range, i < owners.size)
    (owner : UInt16) : ∃ owners', owners.assign range owner = .ok owners' := by
  unfold assign
  by_cases hcount : range.count = 0
  · exact ⟨_, if_pos (.inl hcount)⟩
  · have hlast : range.stop - 1 < owners.size := by
      refine h _ ⟨?_, ?_⟩ <;> simp only [IndexRange.stop] <;> omega
    exact ⟨_, if_pos (.inr (by omega))⟩

namespace Image
variable {image : Image} {layout : BaseLayout} {index : Nat} {t : TypeDef}

theorem MemberOwners.exists_claim {owners : MemberOwners} (h : t.Within owners.methods.size owners.fields.size)
    (index : Nat) : ∃ owners', owners.claim index t = .ok owners' := by
  obtain ⟨statics, hstatics⟩ := Owners.exists_assign h.staticFields (UInt16.ofNat index)
  have hfields : ∀ i ∈ t.instanceFields, i < statics.size := by
    rw [(Owners.assign_ok hstatics).1]
    exact h.instanceFields
  obtain ⟨fields, hfields⟩ := Owners.exists_assign hfields (UInt16.ofNat index)
  obtain ⟨methods, hmethods⟩ := Owners.exists_assign h.methods (UInt16.ofNat index)
  refine ⟨⟨fields, methods⟩, ?_⟩
  exact bind_eq_ok.2 ⟨statics, hstatics, bind_eq_ok.2 ⟨fields, hfields, bind_eq_ok.2 ⟨methods, hmethods, rfl⟩⟩⟩

theorem exists_resolveOwners (h : ∀ i < image.typeCount, ∃ t, image.get TypeDef i = .ok t ∧
    t.Within image.methodCount image.fieldCount) : ∃ owners, image.resolveOwners = .ok owners := by
  obtain ⟨types, htypes⟩ : ∃ types, image.records TypeDef = .ok types := by
    refine exists_of_forall_mapM fun i hi => ?_
    obtain ⟨t, ht, -⟩ := h i (List.mem_range.1 hi)
    exact ⟨t, ht⟩
  have hwithin : ∀ entry ∈ types.zipIdx, entry.1.Within image.methodCount image.fieldCount := by
    rintro ⟨t, i⟩ hentry
    obtain ⟨hi, hti⟩ := List.getElem?_eq_some_iff.1 (List.mem_zipIdx_iff_getElem?.1 hentry)
    obtain ⟨hlen, hget⟩ := mapM_range_eq_ok.1 htypes
    obtain ⟨t', ht', hwithin⟩ := h i (Nat.lt_of_lt_of_eq hi hlen)
    cases ht'.symm.trans (hget i hi)
    exact hti ▸ hwithin
  let sized : List (TypeDef × Nat) → MemberOwners → Prop := fun _ owners =>
    owners.methods.size = image.methodCount ∧ owners.fields.size = image.fieldCount
  have hstep : ∀ earlier entry later owners, types.zipIdx = earlier ++ entry :: later → sized earlier owners →
      (∃ owners', owners.claim entry.2 entry.1 = .ok owners' ∧ sized (earlier ++ [entry]) owners') ∨
        ∃ fault, owners.claim entry.2 entry.1 = .error fault ∧ False := by
    rintro earlier ⟨t, i⟩ later owners hsplit ⟨hmethods, hfields⟩
    have hentry : (t, i) ∈ types.zipIdx := hsplit ▸ List.mem_append_right _ List.mem_cons_self
    have hwithin := hwithin _ hentry
    rw [← hmethods, ← hfields] at hwithin
    obtain ⟨owners', hclaim⟩ := MemberOwners.exists_claim hwithin i
    obtain ⟨-, hmethods', hfields'⟩ := MemberOwners.claim_within hclaim
    exact .inl ⟨owners', hclaim, hmethods'.trans hmethods, hfields'.trans hfields⟩
  have hnone : sized [] ⟨Array.replicate image.fieldCount none, Array.replicate image.methodCount none⟩ :=
    ⟨Array.size_replicate, Array.size_replicate⟩
  rcases foldlM_outcome hstep hnone with ⟨owners, hclaims, -⟩ | ⟨_, -, ⟨⟩⟩
  exact ⟨owners, bind_eq_ok.2 ⟨types, htypes, hclaims⟩⟩

/-- So many links to base types lead from one type to another. -/
def Leads (image : Image) : Nat → Nat → Nat → Prop
  | 0, i, j => i = j
  | n + 1, i, j => ∃ k, image.Extends i k ∧ image.Leads n k j

/-- A walk fails where it runs out of room, behind so many links, or at a type that does not read. -/
theorem fault_of_totalFields {room : Nat} {totals : FieldTotals} {fault : Fault}
    (h : image.totalFields layout room index totals = .error fault) :
    (fault = .nestingLimit baseLimit ∧ ∃ j, image.Leads room index j) ∨
      ∃ j, Relation.ReflTransGen image.Extends index j ∧ image.get TypeDef j = .error fault := by
  induction room generalizing index with
  | zero =>
    unfold totalFields at h
    split at h
    · cases h
    · cases h
      exact .inl ⟨rfl, index, rfl⟩
  | succ room ih =>
    unfold totalFields at h
    split at h
    · cases h
    rcases bind_eq_error.1 h with hget | ⟨t, ht, h⟩
    · exact .inr ⟨index, .refl, hget⟩
    cases hb : t.base? with
    | none =>
      rw [hb] at h
      cases h
    | some origin =>
      rw [hb] at h
      cases origin with
      | typeRef r => cases h
      | own b =>
        rcases bind_eq_error.1 h with hbase | ⟨_, -, h⟩
        · have hlink : image.Extends index b.toNat := ⟨t, b, ht, hb, rfl⟩
          rcases ih hbase with ⟨hfault, j, hj⟩ | ⟨j, hreach, hget⟩
          · exact .inl ⟨hfault, j, b.toNat, hlink, hj⟩
          · exact .inr ⟨j, .head hlink hreach, hget⟩
        · cases h

theorem Ancestry.exists_get {i j : Nat} {ancestors : List (Nat × TypeDef)} {root : Option UInt16}
    (h : image.Ancestry i ancestors root) (hreach : Relation.ReflTransGen image.Extends i j) :
    ∃ t, image.get TypeDef j = .ok t := by
  induction hreach using Relation.ReflTransGen.head_induction_on generalizing ancestors with
  | refl =>
    cases h with
    | root ht => exact ⟨_, ht⟩
    | own ht => exact ⟨_, ht⟩
  | head hlink _ ih =>
    obtain ⟨base, rest, -, hrest⟩ := h.of_extends hlink
    exact ih hrest

theorem Ancestry.lt_length {n i j : Nat} {ancestors : List (Nat × TypeDef)} {root : Option UInt16}
    (h : image.Ancestry i ancestors root) (hleads : image.Leads n i j) : n ≤ ancestors.length := by
  induction n generalizing i ancestors with
  | zero => exact Nat.zero_le _
  | succ n ih =>
    obtain ⟨k, hlink, hrest⟩ := hleads
    obtain ⟨base, rest, rfl, hk⟩ := h.of_extends hlink
    exact Nat.succ_le_succ (ih hk hrest)

theorem exists_assignOffsets {typeIndex offset first count : Nat} {offsets : FieldOffsets}
    (hfields : ∀ field ∈ (⟨first, count⟩ : IndexRange), field < offsets.size)
    (hoffset : ∀ p < count, (offset + p) % 2 ^ 64 ≤ 0xFFFF) :
    ∃ offsets', assignOffsets typeIndex (UInt64.ofNat offset) offsets (List.range' first count) = .ok offsets' ∧
      offsets'.size = offsets.size := by
  induction count generalizing first offset offsets with
  | zero => exact ⟨offsets, rfl, rfl⟩
  | succ count ih =>
    have hfirst : first < offsets.size := hfields first ⟨Nat.le_refl _, by simp only [IndexRange.stop]; omega⟩
    have hword : ¬ 0xFFFF < UInt64.ofNat offset := by
      rw [UInt64.lt_iff_toNat_lt, UInt64.toNat_ofNat']
      exact Nat.not_lt.2 (hoffset 0 (Nat.succ_pos count))
    rw [List.range'_succ, assignOffsets, if_neg hword, if_pos hfirst, ofNat_add_one]
    have hrest : ∀ field ∈ (⟨first + 1, count⟩ : IndexRange),
        field < (offsets.setIfInBounds first (some (UInt64.ofNat offset).toUInt16)).size := by
      rintro field ⟨hlow, hhigh⟩
      rw [Array.size_setIfInBounds]
      simp only [IndexRange.stop] at hlow hhigh
      exact hfields field ⟨by dsimp only; omega, by simp only [IndexRange.stop]; omega⟩
    have hnext : ∀ p < count, (offset + 1 + p) % 2 ^ 64 ≤ 0xFFFF := by
      intro p hp
      rw [Nat.add_assoc, Nat.add_comm 1 p]
      exact hoffset (p + 1) (Nat.succ_lt_succ hp)
    obtain ⟨offsets', hassign, hsize⟩ := ih hrest hnext
    exact ⟨offsets', hassign, by rw [hsize, Array.size_setIfInBounds]⟩

/-- The links of a type end, and its fields have offsets. -/
def Fits (image : Image) (layout : BaseLayout) (index : Nat) (t : TypeDef) : Prop :=
  ∃ ancestors root, image.Ancestry index ancestors root ∧
    ∀ p < t.instanceFieldCount.toNat, (1 + inheritedFields layout ancestors root + p) % 2 ^ 64 ≤ 0xFFFF

/-- What a load asks of an image, but for the length of walks. -/
structure Acceptable (image : Image) (layout : BaseLayout) : Prop where
  extents : image.header.Extents image.data.size
  types : ∀ i < image.typeCount, ∃ t, image.get TypeDef i = .ok t ∧
    t.Within image.methodCount image.fieldCount ∧ image.Fits layout i t

section
variable {offsets : FieldOffsets} {totals totals' : FieldTotals} {total : UInt64}

/-- Once a type that fits is totalled its fields are placed. -/
theorem Fits.exists_placeFields (h : image.Fits layout index t) (ht : image.get TypeDef index = .ok t)
    (hwithin : t.Within image.methodCount image.fieldCount) (htallied : image.Tallied layout totals)
    (hsize : offsets.size = image.fieldCount)
    (hwalk : image.Totals layout baseLimit index totals total totals') :
    ∃ offsets', image.placeFields layout (offsets, totals) index = .ok (offsets', totals') ∧
      offsets'.size = image.fieldCount := by
  obtain ⟨ancestors, root, ha, hfits⟩ := h
  obtain ⟨-, -, htotal⟩ := hwalk.tallied htallied
  obtain rfl := htotal.unique ⟨t, ancestors, root, ht, ha, rfl⟩
  have hfields : ∀ field ∈ t.instanceFields, field < offsets.size := hsize ▸ hwithin.instanceFields
  obtain ⟨offsets', hassign, hsize'⟩ := exists_assignOffsets hfields hfits
  refine ⟨offsets', placeFields_iff.2 ⟨_, t, hwalk, ht, ?_⟩, hsize'.trans hsize⟩
  rw [firstOwn_eq]
  exact hassign

theorem exists_totals_of_known (ht : image.get TypeDef index = .ok t)
    (hbase : ∀ j, image.Extends index j → (totals.at? j).isSome) (room : Nat) :
    ∃ total totals', image.Totals layout (room + 1) index totals total totals' := by
  cases hknown : totals.at? index with
  | some total => exact ⟨total, totals, .known hknown⟩
  | none =>
    by_cases hb : ∃ b, t.base? = some (.own b)
    · obtain ⟨b, hb⟩ := hb
      obtain ⟨inherited, hinherited⟩ := Option.isSome_iff_exists.1 (hbase b.toNat ⟨t, b, ht, hb, rfl⟩)
      exact ⟨_, _, .own hknown ht hb (.known hinherited)⟩
    · exact ⟨_, _, .root hknown ht fun b hb' => hb ⟨b, hb'⟩⟩

/-- Everything placed so far is in the table of totals, which has room for all fields. -/
structure Placing (image : Image) (layout : BaseLayout) (earlier : List Nat) (state : FieldOffsets × FieldTotals) :
    Prop where
  size : state.1.size = image.fieldCount
  tallied : image.Tallied layout state.2
  known : ∀ i ∈ earlier, (state.2.at? i).isSome

theorem placing_none (image : Image) (layout : BaseLayout) :
    image.Placing layout [] (Array.replicate image.fieldCount none, Array.replicate image.typeCount none) :=
  ⟨Array.size_replicate, .empty image layout, nofun⟩

theorem Placing.snoc {earlier : List Nat} (h : image.Placing layout earlier (offsets, totals))
    (hfits : image.Fits layout index t) (ht : image.get TypeDef index = .ok t)
    (hwithin : t.Within image.methodCount image.fieldCount)
    (hwalk : image.Totals layout baseLimit index totals total totals') :
    ∃ state', image.placeFields layout (offsets, totals) index = .ok state' ∧
      image.Placing layout (earlier ++ [index]) state' := by
  obtain ⟨offsets', hplace, hsize⟩ := hfits.exists_placeFields ht hwithin h.tallied h.size hwalk
  obtain ⟨htallied, hknown, -⟩ := hwalk.tallied h.tallied
  refine ⟨_, hplace, hsize, htallied, fun i hi => ?_⟩
  rcases List.mem_append.1 hi with hi | hi
  · exact hwalk.grows h.tallied i (h.known i hi)
  · rw [List.mem_singleton.1 hi, hknown]
    rfl

end

/-- The run over all types, for whatever the walk of one type comes to. -/
theorem Acceptable.resolveOffsets {Q : Fault → Prop} (h : image.Acceptable layout)
    (hwalk : ∀ earlier index later totals, List.range image.typeCount = earlier ++ index :: later →
      (∀ i ∈ earlier, (totals.at? i).isSome) →
      (∃ total totals', image.totalFields layout baseLimit index totals = .ok (total, totals')) ∨
        ∃ fault, image.totalFields layout baseLimit index totals = .error fault ∧ Q fault) :
    (∃ offsets, image.resolveOffsets layout = .ok offsets) ∨
      ∃ fault, image.resolveOffsets layout = .error fault ∧ Q fault := by
  have hrun : (∃ state, (List.range image.typeCount).foldlM (image.placeFields layout)
      (Array.replicate image.fieldCount none, Array.replicate image.typeCount none) = .ok state ∧
        image.Placing layout (List.range image.typeCount) state) ∨
      ∃ fault, (List.range image.typeCount).foldlM (image.placeFields layout)
        (Array.replicate image.fieldCount none, Array.replicate image.typeCount none) = .error fault ∧ Q fault := by
    refine foldlM_outcome ?_ (image.placing_none layout)
    rintro earlier index later ⟨offsets, totals⟩ hsplit hplacing
    have hindex : index ∈ List.range image.typeCount := hsplit ▸ List.mem_append_right _ List.mem_cons_self
    obtain ⟨t, ht, hwithin, hfits⟩ := h.types index (List.mem_range.1 hindex)
    rcases hwalk earlier index later totals hsplit hplacing.known with ⟨total, totals', hok⟩ | ⟨fault, herror, hQ⟩
    · exact .inl (hplacing.snoc hfits ht hwithin (totalFields_iff.1 hok))
    · exact .inr ⟨fault, bind_eq_error.2 (.inl herror), hQ⟩
  rcases hrun with ⟨state, hok, -⟩ | ⟨fault, herror, hQ⟩
  · exact .inl ⟨state.1, bind_eq_ok.2 ⟨state, hok, rfl⟩⟩
  · exact .inr ⟨fault, bind_eq_error.2 (.inl herror), hQ⟩

end Image

namespace Assembly
variable {layout : BaseLayout} {data : Bytes} {a : Assembly} {header : Header}

/-- Every image that loads is acceptable. -/
theorem acceptable_of_load (h : Assembly.load layout data = .ok a) : a.Acceptable layout := by
  obtain ⟨-, hdata, he⟩ := extents_of_load h
  obtain ⟨-, howners, -⟩ := load_ok h
  obtain ⟨totals, hrun, -⟩ := resolved_of_load h
  refine ⟨hdata ▸ he, fun i hi => ?_⟩
  have hplaced : a.Tallied layout totals ∧
      ∀ i ∈ List.range a.typeCount, ∃ t, a.get TypeDef i = .ok t ∧ a.Fits layout i t := by
    refine foldlM_keeps (P := fun earlier state => a.Tallied layout state.2 ∧
      ∀ i ∈ earlier, ∃ t, a.get TypeDef i = .ok t ∧ a.Fits layout i t) ?_ ⟨.empty _ _, nofun⟩ hrun
    rintro earlier index later ⟨offsets, totals⟩ ⟨offsets', totals'⟩ - ⟨htallied, hearlier⟩ hplace
    obtain ⟨total, t, hwalk, ht, hassign⟩ := Image.placeFields_iff.1 hplace
    obtain ⟨htallied', -, t', ancestors, root, ht', ha, rfl⟩ := hwalk.tallied htallied
    cases ht.symm.trans ht'
    refine ⟨htallied', fun i hi => ?_⟩
    rcases List.mem_append.1 hi with hi | hi
    · exact hearlier i hi
    · obtain rfl := List.mem_singleton.1 hi
      refine ⟨t, ht, ancestors, root, ha, fun p hp => ?_⟩
      rw [Image.firstOwn_eq] at hassign
      obtain ⟨placed, -, hplaced⟩ := (Image.assignOffsets_ok hassign (t.instanceFieldsFirst.toNat + p)).1
        ⟨Nat.le_add_right .., Nat.add_lt_add_left hp _⟩
      rw [show t.instanceFields.first = t.instanceFieldsFirst.toNat from rfl, Nat.add_sub_cancel_left] at hplaced
      exact hplaced ▸ Nat.le_of_lt_succ placed.toNat_lt
  obtain ⟨t, ht, hfits⟩ := hplaced.2 i (List.mem_range.2 hi)
  exact ⟨t, ht, Image.resolveOwners_within howners ht, hfits⟩

theorem load_eq_of_acceptable (hread : Header.read data = .ok header)
    (h : (Image.view data header).Acceptable layout) :
    ∃ owners, Assembly.load layout data = (do
      let fieldOffsets ← (Image.view data header).resolveOffsets layout
      return { Image.view data header with owners, fieldOffsets }) := by
  have himage : Image.ofBytes data = .ok (Image.view data header) :=
    Image.ofBytes_ok_iff.2 ⟨header, hread, h.extents, rfl⟩
  obtain ⟨owners, howners⟩ := Image.exists_resolveOwners fun i hi => by
    obtain ⟨t, ht, hwithin, -⟩ := h.types i hi
    exact ⟨t, ht, hwithin⟩
  refine ⟨owners, ?_⟩
  simp only [load, himage, howners, bind, Except.bind]

theorem load_of_acceptable (hread : Header.read data = .ok header)
    (h : (Image.view data header).Acceptable layout) :
    (∃ a, Assembly.load layout data = .ok a) ∨
      Assembly.load layout data = .error (.nestingLimit baseLimit) ∧
        ∃ i j, (Image.view data header).Leads baseLimit i j := by
  obtain ⟨owners, hload⟩ := load_eq_of_acceptable hread h
  have hrun := h.resolveOffsets (Q := fun fault => fault = .nestingLimit baseLimit ∧
    ∃ i j, (Image.view data header).Leads baseLimit i j) ?_
  · rcases hrun with ⟨offsets, hok⟩ | ⟨_, herror, rfl, hleads⟩
    · exact .inl ⟨_, by rw [hload, hok]; rfl⟩
    · exact .inr ⟨by rw [hload, herror]; rfl, hleads⟩
  · intro earlier index later totals hsplit _
    -- a walk stops at its limit or at a type that is not there, and all types of an ancestry are
    cases hwalk : (Image.view data header).totalFields layout baseLimit index totals with
    | ok outcome => exact .inl ⟨outcome.1, outcome.2, rfl⟩
    | error fault =>
      have hindex : index ∈ List.range (Image.view data header).typeCount :=
        hsplit ▸ List.mem_append_right _ List.mem_cons_self
      obtain ⟨t, ht, -, ancestors, root, ha, -⟩ := h.types index (List.mem_range.1 hindex)
      rcases Image.fault_of_totalFields hwalk with ⟨rfl, j, hleads⟩ | ⟨j, hreach, hget⟩
      · exact .inr ⟨_, rfl, rfl, index, j, hleads⟩
      · obtain ⟨t', ht'⟩ := ha.exists_get hreach
        cases hget.symm.trans ht'

/-- Where no chain of links is as long as a walk may be, nothing but acceptance is asked. -/
theorem load_of_short (hread : Header.read data = .ok header) (h : (Image.view data header).Acceptable layout)
    (hshort : ∀ i ancestors root, (Image.view data header).Ancestry i ancestors root →
      ancestors.length < baseLimit) : ∃ a, Assembly.load layout data = .ok a := by
  rcases load_of_acceptable hread h with hok | ⟨-, i, j, hleads⟩
  · exact hok
  · have hfirst := hleads
    obtain ⟨k, ⟨t, -, ht, -⟩, -⟩ := hfirst
    obtain ⟨t', -, -, ancestors, root, ha, -⟩ := h.types i (Image.lt_typeCount ht)
    have hlong := ha.lt_length hleads
    have := hshort i ancestors root ha
    omega

/-- Where each type stands behind the one it extends, no chain of links is too long. -/
theorem load_of_bases_first (hread : Header.read data = .ok header)
    (h : (Image.view data header).Acceptable layout)
    (hfirst : ∀ i j, (Image.view data header).Extends i j → j < i) :
    ∃ a, Assembly.load layout data = .ok a := by
  obtain ⟨owners, hload⟩ := load_eq_of_acceptable hread h
  have hrun := h.resolveOffsets (Q := fun _ => False) ?_
  · rcases hrun with ⟨offsets, hok⟩ | ⟨_, _, ⟨⟩⟩
    exact ⟨_, by rw [hload, hok]; rfl⟩
  · intro earlier index later totals hsplit hknown
    have hindex : index ∈ List.range (Image.view data header).typeCount :=
      hsplit ▸ List.mem_append_right _ List.mem_cons_self
    obtain ⟨t, ht, -⟩ := h.types index (List.mem_range.1 hindex)
    have hbase : ∀ j, (Image.view data header).Extends index j → (totals.at? j).isSome := fun j hj =>
      hknown j (Image.mem_of_range_split hsplit (hfirst index j hj))
    obtain ⟨total, totals', hwalk⟩ := Image.exists_totals_of_known ht hbase 63
    exact .inl ⟨total, totals', Image.totalFields_iff.2 hwalk⟩

end Assembly

/-! ### Where a load finds chains too long -/

theorem Header.fault_of_checkExtents {header : Header} {available : Nat} {fault : Fault}
    (h : header.checkExtents available = .error fault) :
    fault = .outOfBounds ∨ ∃ kind start next padding, fault = .regionExtent kind start next padding := by
  unfold checkExtents at h
  split at h
  · cases h
    exact .inl rfl
  · obtain ⟨kind, -, h⟩ := exists_of_forM_eq_error h
    rcases bind_eq_error.1 h with h | ⟨_, -, h⟩
    · unfold regionSize at h
      split at h
      · cases h
      · split at h
        · cases h
        · cases h
          exact .inr ⟨_, _, _, _, rfl⟩
    · cases h

theorem Owners.fault_of_assign {owners : Owners} {range : IndexRange} {owner : UInt16} {fault : Fault}
    (h : owners.assign range owner = .error fault) : fault = .outOfBounds := by
  unfold assign at h
  split at h
  · cases h
  · cases h
    rfl

namespace Image
variable {image : Image} {layout : BaseLayout} {fault : Fault} {bytes : Bytes}

theorem fault_of_resolveOwners (hregion : image.region .typeDef = .ok bytes)
    (h : image.resolveOwners = .error fault) : fault = .outOfBounds := by
  rcases bind_eq_error.1 h with hrecords | ⟨types, -, h⟩
  · obtain ⟨i, -, hget⟩ := exists_of_mapM_eq_error hrecords
    exact fault_of_get (ρ := TypeDef) hregion hget
  · obtain ⟨⟨t, index⟩, -, owners, h⟩ := exists_of_foldlM_eq_error h
    rcases bind_eq_error.1 h with h | ⟨_, -, h⟩
    · exact Owners.fault_of_assign h
    rcases bind_eq_error.1 h with h | ⟨_, -, h⟩
    · exact Owners.fault_of_assign h
    rcases bind_eq_error.1 h with h | ⟨_, -, h⟩
    · exact Owners.fault_of_assign h
    · cases h

theorem fault_of_assignOffsets {typeIndex : Nat} {offset : UInt64} {offsets : FieldOffsets} {fields : List Nat}
    (h : assignOffsets typeIndex offset offsets fields = .error fault) :
    fault = .fieldOffsetOverflow typeIndex ∨ fault = .outOfBounds := by
  induction fields generalizing offset offsets with
  | nil => cases h
  | cons field fields ih =>
    unfold assignOffsets at h
    split at h
    · cases h
      exact .inl rfl
    · split at h
      · exact ih h
      · cases h
        exact .inr rfl

theorem leads_of_resolveOffsets {limit : Nat} (hregion : image.region .typeDef = .ok bytes)
    (h : image.resolveOffsets layout = .error (.nestingLimit limit)) :
    limit = baseLimit ∧ ∃ i j, image.Leads baseLimit i j := by
  rcases bind_eq_error.1 h with h | ⟨_, -, h⟩
  · obtain ⟨index, -, state, h⟩ := exists_of_foldlM_eq_error h
    rcases bind_eq_error.1 h with hwalk | ⟨_, -, h⟩
    · rcases fault_of_totalFields hwalk with ⟨hfault, j, hleads⟩ | ⟨j, -, hget⟩
      · cases hfault
        exact ⟨rfl, index, j, hleads⟩
      · cases fault_of_get (ρ := TypeDef) hregion hget
    rcases bind_eq_error.1 h with hget | ⟨_, -, h⟩
    · cases fault_of_get (ρ := TypeDef) hregion hget
    rcases bind_eq_error.1 h with hassign | ⟨_, -, h⟩
    · rcases fault_of_assignOffsets hassign with h | h <;> cases h
    · cases h
  · cases h

end Image

/-- A load finds the chains of an image too long only if so many links follow one another. -/
theorem Assembly.leads_of_load {layout : BaseLayout} {data : Bytes} {limit : Nat}
    (h : Assembly.load layout data = .error (.nestingLimit limit)) :
    ∃ header, Header.read data = .ok header ∧ limit = baseLimit ∧
      ∃ i j, (Image.view data header).Leads baseLimit i j := by
  rcases bind_eq_error.1 h with himage | ⟨image, himage, h⟩
  · rcases bind_eq_error.1 himage with hread | ⟨header, -, h⟩
    · rcases Header.fault_of_read hread with h | h | h <;> cases h
    rcases bind_eq_error.1 h with hcheck | ⟨_, -, h⟩
    · rcases Header.fault_of_checkExtents hcheck with h | ⟨_, _, _, _, h⟩ <;> cases h
    · cases h
  · obtain ⟨header, hread, he, rfl⟩ := Image.ofBytes_ok_iff.1 himage
    obtain ⟨size, hsize⟩ := he.region .typeDef
    have hregion : (Image.view data header).region .typeDef = .ok _ := he.cut hsize
    rcases bind_eq_error.1 h with howners | ⟨_, -, h⟩
    · cases Image.fault_of_resolveOwners hregion howners
    rcases bind_eq_error.1 h with hoffsets | ⟨_, -, h⟩
    · exact ⟨header, hread, Image.leads_of_resolveOffsets hregion hoffsets⟩
    · cases h

end CompactAssembly
