import CompactAssembly.Draft.Image
import CompactAssembly.Proofs.RowCodec

/-!
# Where the regions of a draft lie

`Draft.startOf`: the regions follow the header one after the other, each padded, so a region starts
behind the padded regions before it (`getElem?_regionStarts`), at a multiple of four (`dvd_startOf`), and
the next one starts behind it (`startOf_next`). The body holds every region where it starts
(`body_holdsAt`), and a table holds each record at its place (`HoldsAt.row`).
-/

namespace CompactAssembly

def padded (region : Bytes) : List UInt8 := region.toList ++ List.replicate (paddingFor region.size) 0

theorem length_padded (region : Bytes) : (padded region).length = region.size + paddingFor region.size := by
  simp only [padded, List.length_append, Array.length_toList, List.length_replicate]

theorem dvd_length_padded (region : Bytes) : 4 ∣ (padded region).length := by
  rw [length_padded, paddingFor]
  omega

theorem paddingFor_lt (size : Nat) : paddingFor size < 4 := Nat.mod_lt _ (by decide)

theorem dvd_length_flatMap_padded (regions : List Bytes) : 4 ∣ (regions.flatMap padded).length := by
  induction regions with
  | nil => exact Nat.dvd_zero 4
  | cons region regions ih =>
    rw [List.flatMap_cons, List.length_append]
    exact Nat.dvd_add (dvd_length_padded region) ih

theorem Draft.toList_layRegions (regions : List Bytes) :
    (layRegions regions).toList = regions.flatMap padded := by
  have h : ∀ out : Bytes, (regions.foldl (fun out region =>
      out ++ region ++ Array.replicate (paddingFor region.size) 0) out).toList =
      out.toList ++ regions.flatMap padded := by
    induction regions with
    | nil => intro out; simp
    | cons region regions ih =>
      intro out
      rw [List.foldl_cons, ih, List.flatMap_cons]
      simp only [padded, Array.toList_append, Array.toList_replicate, List.append_assoc]
  exact h #[]

theorem Draft.getElem?_regionStarts (start : Nat) {regions : List Bytes} {i : Nat} (hi : i < regions.length) :
    (regionStarts start (regions.map Array.size))[i]? =
      some (start + ((regions.take i).flatMap padded).length) := by
  induction regions generalizing start i with
  | nil => exact absurd hi (Nat.not_lt_zero i)
  | cons region regions ih =>
    cases i with
    | zero => rfl
    | succ i =>
      rw [List.map_cons, regionStarts, List.getElem?_cons_succ, ih _ (Nat.lt_of_succ_lt_succ hi),
        List.take_succ_cons, List.flatMap_cons, List.length_append, length_padded]
      simp only [Nat.add_assoc]

section
variable {ρ : Type} [Row ρ]

theorem toList_encodeRows (rows : Array ρ) : (encodeRows rows).toList = rows.toList.flatMap Row.encode := by
  have h : ∀ (rows : List ρ) (out : Bytes),
      (rows.foldl (fun (out : Bytes) row => out ++ Row.encode row) out).toList =
        out.toList ++ rows.flatMap Row.encode := by
    intro rows
    induction rows with
    | nil => intro out; simp
    | cons row rows ih =>
      intro out
      rw [List.foldl_cons, ih, List.flatMap_cons, Array.toList_appendList, List.append_assoc]
  rw [encodeRows, ← Array.foldl_toList, h]
  rfl

theorem encodeRows_toArray (rows : List ρ) : encodeRows rows.toArray = (rows.flatMap Row.encode).toArray := by
  rw [← Array.toList_inj, toList_encodeRows]

variable [LawfulRow ρ]

theorem size_encodeRows (rows : Array ρ) : (encodeRows rows).size = rows.size * Row.size ρ := by
  rw [← Array.length_toList, toList_encodeRows, length_flatMap_of_const LawfulRow.length_encode,
    Array.length_toList]

theorem Bytes.HoldsAt.row {data : Bytes} {pos : Nat} {rows : Array ρ}
    (h : data.HoldsAt pos (encodeRows rows).toList) {i : Nat} (hi : i < rows.size) :
    data.HoldsAt (pos + i * Row.size ρ) (Row.encode rows[i]) := by
  rw [toList_encodeRows] at h
  have := h.flatMap (by simpa using hi)
  have hlen : (rows.toList.take i).length = i := by
    rw [List.length_take, Array.length_toList, Nat.min_eq_left (Nat.le_of_lt hi)]
  rwa [length_flatMap_of_const LawfulRow.length_encode, hlen, Array.getElem_toList] at this

end

theorem TableKind.all_take_next {kind next : TableKind} (h : kind.next? = some next) :
    all.take next.id = all.take kind.id ++ [kind] := by
  cases kind <;> cases h <;> rfl

theorem TableKind.getElem_all (kind : TableKind) (h : kind.id < all.length) : all[kind.id] = kind := by
  have := ofId?_id kind
  rwa [ofId?, List.getElem?_eq_getElem h, Option.some.injEq] at this

namespace Draft
variable (d : Draft)

def regions : List Bytes := TableKind.all.map d.region

theorem length_flatMap_padded_le {d : Draft} {size : Nat} {kinds : List TableKind}
    (h : ∀ kind ∈ kinds, (d.region kind).size ≤ size) :
    ((kinds.map d.region).flatMap padded).length ≤ kinds.length * (size + 3) := by
  induction kinds with
  | nil => exact Nat.zero_le _
  | cons kind kinds ih =>
    have hkinds := ih fun k hk => h k (List.mem_cons_of_mem _ hk)
    have hkind := h kind List.mem_cons_self
    have hpadding := paddingFor_lt (d.region kind).size
    rw [List.map_cons, List.flatMap_cons, List.length_append, length_padded, List.length_cons, Nat.add_mul]
    omega

def startOf (kind : TableKind) : Nat :=
  Header.size + ((d.regions.take kind.id).flatMap padded).length

def body : Bytes := layRegions d.regions

theorem dvd_startOf (kind : TableKind) : 4 ∣ d.startOf kind :=
  Nat.dvd_add (by decide) (dvd_length_flatMap_padded _)

theorem startOf_next {kind next : TableKind} (h : kind.next? = some next) :
    d.startOf next = d.startOf kind + (d.region kind).size + paddingFor (d.region kind).size := by
  simp only [startOf, regions, ← List.map_take, TableKind.all_take_next h, List.map_append,
    List.flatMap_append, List.length_append, List.map_cons, List.map_nil, List.flatMap_cons,
    List.flatMap_nil, List.append_nil, length_padded]
  omega

theorem startOf_mono {a b : TableKind} (h : a.id ≤ b.id) : d.startOf a ≤ d.startOf b := by
  obtain ⟨rest, hrest⟩ : d.regions.take a.id <+: d.regions.take b.id := List.take_prefix_take_left h
  simp only [startOf, ← hrest, List.flatMap_append, List.length_append]
  omega

theorem startOf_endOfAssembly : d.startOf .endOfAssembly = Header.size + d.body.size := by
  have h : d.regions = d.regions.take TableKind.endOfAssembly.id ++ [#[]] := rfl
  rw [startOf, body, ← Array.length_toList, toList_layRegions]
  conv => rhs; rw [h]
  rw [List.flatMap_append, List.length_append]
  rfl

theorem body_holdsAt (kind : TableKind) {image : Bytes}
    (h : image.HoldsAt Header.size d.body.toList) :
    image.HoldsAt (d.startOf kind) (d.region kind).toList := by
  rw [body, toList_layRegions] at h
  have hlt : kind.id < d.regions.length := by
    rw [regions, List.length_map]
    exact kind.id_lt
  have := (h.flatMap hlt).initial (List.prefix_append ..)
  simpa only [startOf, regions, List.getElem_map, TableKind.getElem_all] using this

theorem getElem?_starts (kind : TableKind) :
    (regionStarts Header.size (d.regions.map Array.size))[kind.slot.val]? = some (d.startOf kind) :=
  getElem?_regionStarts _ (by rw [regions, List.length_map]; exact kind.id_lt)

theorem getElem?_sizes (kind : TableKind) :
    (d.regions.map Array.size)[kind.slot.val]? = some (d.region kind).size := by
  have h : kind.id < (d.regions.map Array.size).length := by
    rw [regions, List.length_map, List.length_map]
    exact kind.id_lt
  show (d.regions.map Array.size)[kind.id]? = _
  rw [List.getElem?_eq_getElem h]
  simp only [regions, List.getElem_map, TableKind.getElem_all]

theorem start_headerFor (name : UInt16) (h : Header.size + d.body.size < 0x100000000) (kind : TableKind) :
    (d.headerFor name (d.regions.map Array.size)).start kind = d.startOf kind := by
  have hle : d.startOf kind < 0x100000000 := by
    refine Nat.lt_of_le_of_lt (d.startOf_mono (b := .endOfAssembly) ?_) (d.startOf_endOfAssembly ▸ h)
    exact Nat.le_of_lt_succ kind.id_lt
  simp only [Header.start, headerFor, Fin.getElem_fin, Vector.getElem_ofFn, getElem?_starts,
    Option.getD_some]
  exact UInt32.toNat_ofNat_of_lt' hle

theorem padding_headerFor (name : UInt16) (kind : TableKind) :
    (d.headerFor name (d.regions.map Array.size)).padding kind = paddingFor (d.region kind).size := by
  simp only [Header.padding, headerFor, Fin.getElem_fin, Vector.getElem_ofFn, getElem?_sizes,
    Option.getD_some]
  exact UInt8.toNat_ofNat_of_lt' (Nat.lt_trans (paddingFor_lt _) (by decide))

end Draft

end CompactAssembly
