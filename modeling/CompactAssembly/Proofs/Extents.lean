import CompactAssembly.Image.Basic
import CompactAssembly.Proofs.RowCodec
import CompactAssembly.Proofs.Traversal

/-!
# Extents of regions

`Header.Extents h available`: what the check of a header establishes. The start of a region is then at
or behind the end of every earlier one (`stop_le_start`), so regions do not meet, and all of them end
within the image (`stop_le_totalSize`). A region can be cut out, and a record can be read just below the
count of its table (`get_ok_iff`), from the bytes of its region alone (`Image.get_congr`).
-/

namespace CompactAssembly

namespace TableKind
variable {kind kind' next : TableKind}

theorem exists_next (h : kind.id < kind'.id) : ∃ next, kind.next? = some next ∧ next.id = kind.id + 1 := by
  cases kind with
  | endOfAssembly => exact absurd h (Nat.not_lt.2 (Nat.le_of_lt_succ kind'.id_lt))
  | _ => exact ⟨_, rfl, rfl⟩

theorem next?_eq_none (h : kind.next? = none) : kind = endOfAssembly := by
  cases kind with
  | endOfAssembly => rfl
  | _ => cases h

end TableKind

namespace Header
variable {h : Header} {data data' : Bytes} {available size : Nat} {kind kind' next : TableKind}

theorem regionSize_congr {h' : Header} (hstart : ∀ kind, h'.start kind = h.start kind)
    (hpadding : ∀ kind, h'.padding kind = h.padding kind) (kind : TableKind) :
    h'.regionSize kind = h.regionSize kind := by
  simp only [regionSize, hstart, hpadding]

/-- The described image holds a header and lies within the available bytes, and every region has an
extent. -/
structure Extents (h : Header) (available : Nat) : Prop where
  available : h.totalSize ≤ available
  size : Header.size ≤ h.totalSize
  region : ∀ kind, ∃ size, h.regionSize kind = .ok size

theorem checkExtents_iff : h.checkExtents available = .ok () ↔ h.Extents available := by
  unfold checkExtents
  constructor
  · intro hcheck
    split at hcheck
    · cases hcheck
    · next hbounds =>
      refine ⟨by omega, by omega, fun kind => ?_⟩
      obtain ⟨size, hsize, -⟩ := bind_eq_ok.1 (forM_eq_ok.1 hcheck kind kind.mem_all)
      exact ⟨size, hsize⟩
  · rintro ⟨havailable, hsize, hregion⟩
    rw [if_neg (by omega), forM_eq_ok]
    intro kind _
    obtain ⟨size, hsize⟩ := hregion kind
    exact bind_eq_ok.2 ⟨size, hsize, rfl⟩

def Covers (h : Header) (kind : TableKind) (pos : Nat) : Prop :=
  ∃ size, h.regionSize kind = .ok size ∧ h.start kind ≤ pos ∧ pos < h.start kind + size

theorem start_next (hsize : h.regionSize kind = .ok size) (hnext : kind.next? = some next) :
    h.start kind + size + h.padding kind = h.start next := by
  simp only [regionSize, hnext] at hsize
  split at hsize
  · cases hsize
    omega
  · cases hsize

namespace Extents

theorem start_mono (he : h.Extents available) (hle : kind.id ≤ kind'.id) : h.start kind ≤ h.start kind' := by
  obtain ⟨n, hn⟩ := Nat.exists_eq_add_of_le hle
  -- on the number of regions from one to the other
  induction n generalizing kind with
  | zero =>
    obtain rfl := TableKind.id_inj hn
    exact Nat.le_refl _
  | succ n ih =>
    obtain ⟨next, hnext, hid⟩ := TableKind.exists_next (show kind.id < kind'.id by omega)
    obtain ⟨size, hsize⟩ := he.region kind
    have hstep := start_next hsize hnext
    have hrest : h.start next ≤ h.start kind' := ih (by omega) (by omega)
    omega

theorem stop_le_start (he : h.Extents available) (hlt : kind.id < kind'.id)
    (hsize : h.regionSize kind = .ok size) : h.start kind + size ≤ h.start kind' := by
  obtain ⟨next, hnext, hid⟩ := TableKind.exists_next hlt
  have hstep := start_next hsize hnext
  have hrest : h.start next ≤ h.start kind' := he.start_mono (by omega)
  omega

theorem stop_le_totalSize (he : h.Extents available) (hsize : h.regionSize kind = .ok size) :
    h.start kind + size ≤ h.totalSize := by
  cases hnext : kind.next? with
  | none =>
    obtain rfl := TableKind.next?_eq_none hnext
    cases hsize
    exact Nat.le_refl _
  | some next =>
    have hstep := start_next hsize hnext
    have hrest : h.start next ≤ h.totalSize := he.start_mono (Nat.le_of_lt_succ next.id_lt)
    omega

theorem eq_of_covers (he : h.Extents available) {pos : Nat} (hpos : h.Covers kind pos)
    (hpos' : h.Covers kind' pos) : kind = kind' := by
  obtain ⟨size, hsize, hlow, hhigh⟩ := hpos
  obtain ⟨size', hsize', hlow', hhigh'⟩ := hpos'
  rcases Nat.lt_trichotomy kind.id kind'.id with hlt | heq | hlt
  · have := he.stop_le_start hlt hsize
    omega
  · exact TableKind.id_inj heq
  · have := he.stop_le_start hlt hsize'
    omega

end Extents

theorem cut_ok_iff {bytes : Bytes} : h.cut data kind = .ok bytes ↔
    ∃ size, h.regionSize kind = .ok size ∧ h.start kind + size ≤ data.size ∧
      bytes = data.extract (h.start kind) (h.start kind + size) := by
  unfold cut
  rw [bind_eq_ok]
  constructor
  · rintro ⟨size, hsize, hcut⟩
    dsimp only at hcut
    split at hcut
    · next hfit =>
      cases hcut
      exact ⟨size, hsize, hfit, rfl⟩
    · cases hcut
  · rintro ⟨size, hsize, hfit, rfl⟩
    exact ⟨size, hsize, if_pos hfit⟩

theorem Extents.cut (he : h.Extents data.size) (hsize : h.regionSize kind = .ok size) :
    h.cut data kind = .ok (data.extract (h.start kind) (h.start kind + size)) :=
  cut_ok_iff.2 ⟨size, hsize, Nat.le_trans (he.stop_le_totalSize hsize) he.available, rfl⟩

end Header

namespace Image
variable {image image' : Image} {data : Bytes} {kind : TableKind} {ρ : Type} [Row ρ]

theorem ofBytes_ok_iff : Image.ofBytes data = .ok image ↔
    ∃ header, Header.read data = .ok header ∧ header.Extents data.size ∧ image = Image.view data header := by
  unfold ofBytes
  simp only [bind_eq_ok, ← Header.checkExtents_iff]
  constructor
  · rintro ⟨header, hread, _, hcheck, ⟨⟩⟩
    exact ⟨header, hread, hcheck, rfl⟩
  · rintro ⟨header, hread, hcheck, rfl⟩
    exact ⟨header, hread, (), hcheck, rfl⟩

theorem count_congr (hsize : image'.header.regionSize kind = image.header.regionSize kind) :
    image'.count kind = image.count kind := by
  rw [count, hsize, count]

theorem get_eq (image : Image) (i : Nat) :
    image.get ρ i = (image.recordOffset (Row.kind ρ) i).bind ((Row.read : Reader ρ).value image.data) := rfl

variable [LawfulRow ρ]

theorem recordOffset_eq (image : Image) (i : Nat) :
    image.recordOffset (Row.kind ρ) i =
      if i < image.count (Row.kind ρ) then .ok (image.header.start (Row.kind ρ) + i * Row.size ρ)
      else .error .outOfBounds := by
  unfold recordOffset
  rw [LawfulRow.recordSize]

theorem record_le_region {i size : Nat} (hsize : image.header.regionSize (Row.kind ρ) = .ok size)
    (hi : i < image.count (Row.kind ρ)) : i * Row.size ρ + Row.size ρ ≤ size := by
  have hcount : image.count (Row.kind ρ) = size / Row.size ρ := by
    rw [count, hsize, LawfulRow.recordSize]
    rfl
  have hmul : (i + 1) * Row.size ρ ≤ size / Row.size ρ * Row.size ρ := Nat.mul_le_mul_right _ (hcount ▸ hi)
  have hdiv := Nat.div_mul_le_self size (Row.size ρ)
  rw [Nat.succ_mul] at hmul
  omega

/-- Of a region that can be cut out, each record below the count reads, and no other. -/
theorem get_ok_iff {bytes : Bytes} (hregion : image.region (Row.kind ρ) = .ok bytes) (i : Nat) :
    (∃ r, image.get ρ i = .ok r) ↔ i < image.count (Row.kind ρ) := by
  obtain ⟨size, hsize, hfit, -⟩ := Header.cut_ok_iff.1 hregion
  rw [get_eq, recordOffset_eq]
  split
  · next hi =>
    have hrecord := record_le_region hsize hi
    exact iff_of_true (LawfulRow.takes.value_ok (by omega)) hi
  · next hi => exact iff_of_false nofun hi

theorem fault_of_get {bytes : Bytes} {i : Nat} {fault : Fault} (hregion : image.region (Row.kind ρ) = .ok bytes)
    (h : image.get ρ i = .error fault) : fault = .outOfBounds := by
  by_cases hi : i < image.count (Row.kind ρ)
  · obtain ⟨r, hr⟩ := (get_ok_iff hregion i).2 hi
    cases hr.symm.trans h
  · rw [get_eq, recordOffset_eq, if_neg hi] at h
    cases h
    rfl

/-- A record is read from its own bytes alone. -/
theorem get_congr_at {i size : Nat} (hstart : image'.header.start (Row.kind ρ) = image.header.start (Row.kind ρ))
    (hsame : image'.header.regionSize (Row.kind ρ) = image.header.regionSize (Row.kind ρ))
    (hsize : image.header.regionSize (Row.kind ρ) = .ok size)
    (hfit : image.header.start (Row.kind ρ) + size ≤ image.data.size)
    (hfit' : image.header.start (Row.kind ρ) + size ≤ image'.data.size)
    (hbytes : i < image.count (Row.kind ρ) →
      image'.data.extract (image.header.start (Row.kind ρ) + i * Row.size ρ)
          (image.header.start (Row.kind ρ) + i * Row.size ρ + Row.size ρ) =
        image.data.extract (image.header.start (Row.kind ρ) + i * Row.size ρ)
          (image.header.start (Row.kind ρ) + i * Row.size ρ + Row.size ρ)) :
    image'.get ρ i = image.get ρ i := by
  rw [get_eq, get_eq, recordOffset_eq, recordOffset_eq, count_congr hsame, hstart]
  split
  · next hi =>
    have hrecord := record_le_region hsize hi
    exact LawfulRow.takes.value_congr (by omega) (by omega) (hbytes hi)
  · rfl

/-- A record is read from the bytes of its region alone. -/
theorem get_congr {bytes : Bytes} (hstart : image'.header.start (Row.kind ρ) = image.header.start (Row.kind ρ))
    (hsame : image'.header.regionSize (Row.kind ρ) = image.header.regionSize (Row.kind ρ))
    (hregion : image.region (Row.kind ρ) = .ok bytes) (hregion' : image'.region (Row.kind ρ) = .ok bytes) :
    image'.get ρ = image.get ρ := by
  funext i
  obtain ⟨size, hsize, hfit, rfl⟩ := Header.cut_ok_iff.1 hregion
  obtain ⟨size', hsize', hfit', hbytes⟩ := Header.cut_ok_iff.1 hregion'
  cases (hsame.symm.trans hsize').symm.trans hsize
  rw [hstart] at hfit' hbytes
  refine get_congr_at hstart hsame hsize hfit hfit' fun hi => ?_
  have hrecord := record_le_region hsize hi
  have hinner : ∀ xs : Bytes,
      xs.extract (image.header.start (Row.kind ρ) + i * Row.size ρ)
          (image.header.start (Row.kind ρ) + i * Row.size ρ + Row.size ρ) =
        (xs.extract (image.header.start (Row.kind ρ)) (image.header.start (Row.kind ρ) + size)).extract
          (i * Row.size ρ) (i * Row.size ρ + Row.size ρ) := by
    intro xs
    rw [Array.extract_extract]
    congr 1
    omega
  rw [hinner image'.data, hinner image.data, hbytes]

end Image

end CompactAssembly
