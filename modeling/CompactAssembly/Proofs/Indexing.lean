import CompactAssembly.Artifact.Header
import CompactAssembly.Proofs.Extents
import CompactAssembly.Proofs.Offsets
import CompactAssembly.Proofs.Planning

/-!
# A loaded image is safe to index

What the checks of a load leave of an arbitrary image: its regions lie apart and within it, each record
below the count of its table reads (`Image.Indexes`), the members of a type are records
(`resolveOwners_within`), and so is its base. The header then finds the storage offset of every instance
field (`fault_of_headerBlocks`).
-/

namespace CompactAssembly

/-- The members of a type lie in tables of these sizes. -/
structure TypeDef.Within (t : TypeDef) (methods fields : Nat) : Prop where
  methods : ∀ i ∈ t.methods, i < methods
  staticFields : ∀ i ∈ t.staticFields, i < fields
  instanceFields : ∀ i ∈ t.instanceFields, i < fields

theorem TypeDef.within_of_stop_le {t : TypeDef} {methods fields : Nat} (hmethods : t.methods.stop ≤ methods)
    (hstatics : t.staticFields.stop ≤ fields) (hinstances : t.instanceFields.stop ≤ fields) :
    t.Within methods fields where
  methods _ hi := Nat.lt_of_lt_of_le hi.2 hmethods
  staticFields _ hi := Nat.lt_of_lt_of_le hi.2 hstatics
  instanceFields _ hi := Nat.lt_of_lt_of_le hi.2 hinstances

theorem Owners.lt_of_assign {owners owners' : Owners} {range : IndexRange} {owner : UInt16}
    (h : owners.assign range owner = .ok owners') : ∀ i ∈ range, i < owners.size := by
  rintro i ⟨hlow, hhigh⟩
  unfold assign at h
  split at h
  · next hrange =>
    simp only [IndexRange.stop] at hhigh hrange
    omega
  · cases h

namespace Image
variable {image : Image} {index : Nat} {t : TypeDef}

theorem MemberOwners.claim_within {owners owners' : MemberOwners} (h : owners.claim index t = .ok owners') :
    t.Within owners.methods.size owners.fields.size ∧ owners'.methods.size = owners.methods.size ∧
      owners'.fields.size = owners.fields.size := by
  unfold MemberOwners.claim at h
  obtain ⟨statics, hstatics, h⟩ := bind_eq_ok.1 h
  obtain ⟨fields, hfields, h⟩ := bind_eq_ok.1 h
  obtain ⟨methods, hmethods, h⟩ := bind_eq_ok.1 h
  cases h
  have hsize := (Owners.assign_ok hstatics).1
  refine ⟨⟨Owners.lt_of_assign hmethods, Owners.lt_of_assign hstatics, ?_⟩, (Owners.assign_ok hmethods).1, ?_⟩
  · rw [← hsize]
    exact Owners.lt_of_assign hfields
  · rw [(Owners.assign_ok hfields).1, hsize]

theorem resolveOwners_within {owners : MemberOwners} (h : image.resolveOwners = .ok owners)
    (ht : image.get TypeDef index = .ok t) : t.Within image.methodCount image.fieldCount := by
  unfold resolveOwners at h
  obtain ⟨types, htypes, h⟩ := bind_eq_ok.1 h
  -- claiming never changes the sizes, so every range was checked against the counts of the image
  have hall : (owners.methods.size = image.methodCount ∧ owners.fields.size = image.fieldCount) ∧
      ∀ entry ∈ types.zipIdx, entry.1.Within image.methodCount image.fieldCount := by
    refine foldlM_keeps (P := fun earlier owners =>
      (owners.methods.size = image.methodCount ∧ owners.fields.size = image.fieldCount) ∧
        ∀ entry ∈ earlier, entry.1.Within image.methodCount image.fieldCount) ?_ ?_ h
    · rintro earlier ⟨t, index⟩ later owners owners' - ⟨⟨hmethods, hfields⟩, hearlier⟩ hclaim
      obtain ⟨hwithin, hmethods', hfields'⟩ := MemberOwners.claim_within hclaim
      rw [hmethods, hfields] at hwithin
      refine ⟨⟨hmethods'.trans hmethods, hfields'.trans hfields⟩, fun entry hentry => ?_⟩
      rcases List.mem_append.1 hentry with hentry | hentry
      · exact hearlier entry hentry
      · obtain rfl := List.mem_singleton.1 hentry
        exact hwithin
    · exact ⟨⟨Array.size_replicate, Array.size_replicate⟩, nofun⟩
  obtain ⟨hlen, htypes⟩ := mapM_range_eq_ok.1 htypes
  have hindex : index < types.length := hlen ▸ lt_typeCount ht
  cases ht.symm.trans (htypes index hindex)
  exact hall.2 (types[index], index) (List.mem_zipIdx_iff_getElem?.2 (List.getElem?_eq_getElem hindex))

/-- Records of this type are read at the indices below the count of their table and at no other, from the
bytes of their region alone. -/
def Indexes (image : Image) (ρ : Type) [Row ρ] : Prop :=
  ∀ i, ((∃ r, image.get ρ i = .ok r) ↔ i < image.count (Row.kind ρ)) ∧
    ∀ data, image.header.cut data (Row.kind ρ) = image.region (Row.kind ρ) →
      (Image.view data image.header).get ρ i = image.get ρ i

theorem indexes (h : ∀ kind, ∃ bytes, image.region kind = .ok bytes) (ρ : Type) [Row ρ] [LawfulRow ρ] :
    image.Indexes ρ := by
  intro i
  obtain ⟨bytes, hbytes⟩ := h (Row.kind ρ)
  refine ⟨get_ok_iff hbytes i, fun data hdata => ?_⟩
  have hbytes' : (Image.view data image.header).region (Row.kind ρ) = .ok bytes := hdata.trans hbytes
  have hget : (Image.view data image.header).get ρ = image.get ρ := get_congr rfl rfl hbytes hbytes'
  rw [hget]

end Image

theorem Bytes.fault_of_text {heap : Bytes} {index : UInt16} {fault : Fault} (h : heap.text index = .error fault) :
    fault = .outOfBounds ∨ fault = .unterminatedString index.toNat ∨ fault = .invalidString index.toNat := by
  unfold text at h
  split at h
  · cases h
  · split at h
    · cases h
    · split at h
      · split at h
        · cases h
          exact .inr (.inl rfl)
        · split at h
          · cases h
          · cases h
            exact .inr (.inr rfl)
      · cases h
        exact .inl rfl

namespace Assembly
variable {layout : BaseLayout} {data : Bytes} {a : Assembly} {fault : Fault}

theorem extents_of_load (h : Assembly.load layout data = .ok a) :
    Header.read data = .ok a.header ∧ a.data = data ∧ a.header.Extents data.size := by
  obtain ⟨header, hread, he, himage⟩ := Image.ofBytes_ok_iff.1 (load_ok h).1
  rw [himage]
  exact ⟨hread, rfl, he⟩

theorem view_of_load (h : Assembly.load layout data = .ok a) : a.toImage = Image.view a.data a.header := by
  obtain ⟨header, -, -, himage⟩ := Image.ofBytes_ok_iff.1 (load_ok h).1
  rw [himage]
  rfl

theorem exists_region_of_load (h : Assembly.load layout data = .ok a) (kind : TableKind) :
    ∃ size, a.header.regionSize kind = .ok size ∧
      a.region kind = .ok (data.extract (a.header.start kind) (a.header.start kind + size)) := by
  obtain ⟨-, hdata, he⟩ := extents_of_load h
  obtain ⟨size, hsize⟩ := he.region kind
  refine ⟨size, hsize, ?_⟩
  rw [Image.region, hdata]
  exact he.cut hsize

theorem exists_base_of_load (h : Assembly.load layout data = .ok a) {index : Nat} {t : TypeDef} {base : UInt16}
    (ht : a.get TypeDef index = .ok t) (hbase : t.base? = some (.own base)) :
    ∃ t', a.get TypeDef base.toNat = .ok t' := by
  obtain ⟨totals, -, hres⟩ := resolved_of_load h
  obtain ⟨-, -, ancestors, root, -, hancestry, -⟩ := hres.totals index (List.mem_range.2 (Image.lt_typeCount ht))
  cases hancestry with
  | root ht' hnone =>
    cases ht.symm.trans ht'
    exact absurd hbase (hnone base)
  | own ht' hbase' hget =>
    cases ht.symm.trans ht'
    cases hbase.symm.trans hbase'
    exact ⟨_, hget⟩

theorem isSome_fieldOffset?_of_load (h : Assembly.load layout data = .ok a) {index field : Nat} {t : TypeDef}
    (ht : a.get TypeDef index = .ok t) (hfield : field ∈ t.instanceFields) : (a.fieldOffset? field).isSome := by
  obtain ⟨totals, -, hres⟩ := resolved_of_load h
  have hplaced := hres.placed field
  cases hat : a.fieldOffsets.at? field with
  | none =>
    rw [hat] at hplaced
    exact absurd hfield (hplaced index (List.mem_range.2 (Image.lt_typeCount ht)) t ht)
  | some offset => exact Option.isSome_of_eq_some hat

theorem fault_of_fieldLabel {field : Nat} (hregion : ∃ bytes, a.region .fieldDef = .ok bytes)
    (h : a.fieldLabel field = .error fault) (missing : Nat) : fault ≠ .noFieldOffset missing := by
  rintro rfl
  obtain ⟨bytes, hbytes⟩ := hregion
  rcases bind_eq_error.1 h with hget | ⟨f, -, h⟩
  · cases Image.fault_of_get (ρ := FieldDef) hbytes hget
  · rcases bind_eq_error.1 h with htext | ⟨text, -, h⟩
    · rcases Bytes.fault_of_text htext with h | h | h <;> cases h
    · cases h

theorem fault_of_headerBlock {plan : TypePlan} {staticBase : Nat}
    (hregion : ∃ bytes, a.region .fieldDef = .ok bytes)
    (hoffsets : ∀ field ∈ plan.record.instanceFields, (a.fieldOffset? field).isSome)
    (h : a.headerBlock plan staticBase = .error fault) (missing : Nat) : fault ≠ .noFieldOffset missing := by
  rcases bind_eq_error.1 h with hstatics | ⟨statics, -, h⟩
  · obtain ⟨⟨field, position⟩, -, hstatic⟩ := exists_of_mapM_eq_error hstatics
    rcases bind_eq_error.1 hstatic with hlabel | ⟨label, -, h⟩
    · exact fault_of_fieldLabel hregion hlabel missing
    · cases h
  rcases bind_eq_error.1 h with hinstances | ⟨instances, -, h⟩
  · obtain ⟨field, hfield, hinstance⟩ := exists_of_mapM_eq_error hinstances
    rcases bind_eq_error.1 hinstance with hlabel | ⟨label, -, h⟩
    · exact fault_of_fieldLabel hregion hlabel missing
    · obtain ⟨offset, hoffset⟩ := Option.isSome_iff_exists.1 (hoffsets field (IndexRange.mem_toList.1 hfield))
      rw [hoffset] at h
      cases h
  · cases h

/-- With the storage offsets of all instance fields, the header never misses one. -/
theorem fault_of_headerBlocks {plans : List TypePlan} {staticBase : Nat}
    (hregion : ∃ bytes, a.region .fieldDef = .ok bytes)
    (hoffsets : ∀ plan ∈ plans, ∀ field ∈ plan.record.instanceFields, (a.fieldOffset? field).isSome)
    (h : a.headerBlocks staticBase plans = .error fault) (missing : Nat) : fault ≠ .noFieldOffset missing := by
  induction plans generalizing staticBase with
  | nil => cases h
  | cons plan plans ih =>
    have hrest := fun plan hplan => hoffsets plan (List.mem_cons_of_mem _ hplan)
    unfold headerBlocks at h
    split at h
    · exact ih hrest h
    · split at h
      · rcases bind_eq_error.1 h with hblock | ⟨block, -, h⟩
        · exact fault_of_headerBlock hregion (hoffsets plan List.mem_cons_self) hblock missing
        · rcases bind_eq_error.1 h with hblocks | ⟨blocks, -, h⟩
          · exact ih hrest hblocks
          · cases h
      · exact ih hrest h

/-- Every image that loads, however it was made, is safe to index: its regions lie apart and within it,
records read up to the counts, and members, bases and storage offsets of its types are there. -/
theorem safe_to_index_of_load (h : Assembly.load layout data = .ok a) :
    Header.read data = .ok a.header ∧ a.header.totalSize ≤ data.size ∧
    (∀ kind, ∃ size, a.header.regionSize kind = .ok size ∧
      a.header.start kind + size ≤ a.header.totalSize ∧
      a.region kind = .ok (data.extract (a.header.start kind) (a.header.start kind + size))) ∧
    (∀ kind kind' size, kind.id < kind'.id → a.header.regionSize kind = .ok size →
      a.header.start kind + size ≤ a.header.start kind') ∧
    (∀ kind kind' pos, a.header.Covers kind pos → a.header.Covers kind' pos → kind = kind') ∧
    (EveryRow fun ρ => a.Indexes ρ) ∧
    (∀ index t, a.get TypeDef index = .ok t → t.Within a.methodCount a.fieldCount ∧
      (∀ base, t.base? = some (.own base) → ∃ t', a.get TypeDef base.toNat = .ok t') ∧
      ∀ field ∈ t.instanceFields, (a.fieldOffset? field).isSome) ∧
    ∀ policy plans mode fileName guard assemblyId field, a.plan policy = .ok plans →
      a.headerText mode fileName guard assemblyId plans ≠ .error (.noFieldOffset field) := by
  obtain ⟨hread, -, he⟩ := extents_of_load h
  refine ⟨hread, he.available, fun kind => ?_, fun kind kind' size => he.stop_le_start,
    fun kind kind' pos => he.eq_of_covers, ?_, fun index t ht => ?_, ?_⟩
  · obtain ⟨size, hsize, hregion⟩ := exists_region_of_load h kind
    exact ⟨size, hsize, he.stop_le_totalSize hsize, hregion⟩
  · refine .of_lawful fun ρ _ _ => Image.indexes (fun kind => ?_) ρ
    obtain ⟨size, -, hregion⟩ := exists_region_of_load h kind
    exact ⟨_, hregion⟩
  · exact ⟨Image.resolveOwners_within (load_ok h).2.1 ht, fun base => exists_base_of_load h ht,
      fun field => isSome_fieldOffset?_of_load h ht⟩
  · intro policy plans mode fileName guard assemblyId field hplans htext
    have hoffsets : ∀ plan ∈ plans, ∀ field ∈ plan.record.instanceFields, (a.fieldOffset? field).isSome := by
      intro plan hplan field
      obtain ⟨index, hindex, rfl⟩ := List.getElem_of_mem hplan
      exact isSome_fieldOffset?_of_load h ((Image.plan_ok hplans).2 index hindex).record
    obtain ⟨size, -, hregion⟩ := exists_region_of_load h .fieldDef
    rcases bind_eq_error.1 htext with hblocks | ⟨blocks, -, htext⟩
    · exact fault_of_headerBlocks ⟨_, hregion⟩ hoffsets hblocks field rfl
    · cases htext

theorem safe_to_index_of_load_chain :
    Assembly.load (fun _ => 5) (chainHeader.encode.toArray ++ chainBody) = .ok chain ∧
      chain.Indexes FieldDef ∧ chain.get TypeDef 1 = .ok chainDerived ∧
      (∃ base, chain.get TypeDef 0 = .ok base) ∧ (chain.fieldOffset? 1).isSome := by
  obtain ⟨-, -, -, -, -, hrows, htypes, -⟩ := safe_to_index_of_load load_chain
  have hderived : chain.get TypeDef 1 = .ok chainDerived := by decide +kernel
  obtain ⟨-, hbase, hoffsets⟩ := htypes 1 chainDerived hderived
  exact ⟨load_chain, hrows.fieldDefs, hderived, hbase 0 rfl, hoffsets 1 (by decide)⟩

end Assembly

end CompactAssembly
