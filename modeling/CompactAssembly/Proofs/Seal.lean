import CompactAssembly.Image.Header
import CompactAssembly.Proofs.RowCodec

/-!
# Overwritten bytes and the two checksums

Overwriting changes the bytes it covers and no others. The checksum of the header leaves out the field
it is stored in, and the checksum of the assembly the whole header, so both still hold once they are
written (`seal_spec`).
-/

namespace CompactAssembly

namespace Bytes

theorem toList_overwrite {data : Bytes} {before old after new : List UInt8}
    (hd : data.toList = before ++ (old ++ after)) (hlen : old.length = new.length) :
    (data.overwrite before.length new).toList = before ++ (new ++ after) := by
  induction new generalizing data before old with
  | nil => rw [List.eq_nil_of_length_eq_zero hlen] at hd; exact hd
  | cons x new ih =>
    obtain ⟨y, old, rfl⟩ := List.exists_cons_of_length_eq_add_one hlen
    have hset : (data.setIfInBounds before.length x).toList = (before ++ [x]) ++ (old ++ after) := by
      rw [Array.toList_setIfInBounds, hd, List.set_append_right _ _ (Nat.le_refl _), Nat.sub_self]
      simp
    have := ih hset (by simpa using hlen)
    rw [List.length_append, List.length_singleton] at this
    rw [overwrite, this, List.append_assoc, List.singleton_append, List.cons_append]

theorem getElem?_overwrite_of_lt (data : Bytes) {pos i : Nat} (new : List UInt8) (h : i < pos) :
    (data.overwrite pos new)[i]? = data[i]? := by
  induction new generalizing data pos with
  | nil => rfl
  | cons x new ih =>
    rw [overwrite, ih _ (Nat.lt_succ_of_lt h), Array.getElem?_setIfInBounds_ne (Nat.ne_of_gt h)]

theorem getElem?_overwrite_of_le (data : Bytes) {pos i : Nat} {new : List UInt8}
    (h : pos + new.length ≤ i) : (data.overwrite pos new)[i]? = data[i]? := by
  induction new generalizing data pos with
  | nil => rfl
  | cons x new ih =>
    rw [List.length_cons] at h
    rw [overwrite, ih _ (by omega), Array.getElem?_setIfInBounds_ne (by omega)]

theorem extract_overwrite (data : Bytes) {pos start stop : Nat} {new : List UInt8}
    (h : stop ≤ pos ∨ pos + new.length ≤ start) :
    (data.overwrite pos new).extract start stop = data.extract start stop := by
  apply Array.ext_getElem?
  intro i
  simp only [Array.getElem?_extract, size_overwrite]
  split
  · rcases h with h | h
    · exact getElem?_overwrite_of_lt _ _ (by omega)
    · exact getElem?_overwrite_of_le _ (by omega)
  · rfl

theorem extract_putField (data : Bytes) {offset start stop : Nat} (value : UInt32)
    (h : stop ≤ offset ∨ offset + 4 ≤ start) :
    (data.putField offset value).extract start stop = data.extract start stop := by
  apply extract_overwrite
  rw [Word.length_bytes]
  exact h

theorem getElem?_putField (data : Bytes) {offset i : Nat} (value : UInt32) (h : i < offset ∨ offset + 4 ≤ i) :
    (data.putField offset value)[i]? = data[i]? := by
  rcases h with h | h
  · exact getElem?_overwrite_of_lt _ _ h
  · refine getElem?_overwrite_of_le _ ?_
    rw [Word.length_bytes]
    exact h

@[simp] theorem size_putField (data : Bytes) (offset : Nat) (value : UInt32) :
    (data.putField offset value).size = data.size := size_overwrite ..

end Bytes

namespace Header
variable {h : Header} {image : Bytes} {before after : List UInt8}

theorem toList_putField {xs ys : List UInt8} {old : UInt32}
    (hi : image.toList = before ++ ((xs ++ (Word.bytes old ++ ys)) ++ after)) {offset : Nat}
    (hoffset : before.length + xs.length = offset) (value : UInt32) :
    (image.putField offset value).toList = before ++ ((xs ++ (Word.bytes value ++ ys)) ++ after) := by
  have hsplit : image.toList = (before ++ xs) ++ (Word.bytes old ++ (ys ++ after)) := by
    rw [hi]
    simp only [List.append_assoc]
  have hlength : (Word.bytes old).length = (Word.bytes value).length := by simp only [Word.length_bytes]
  have hput := Bytes.toList_overwrite hsplit hlength
  rw [List.length_append, hoffset] at hput
  rw [Bytes.putField, hput]
  simp only [List.append_assoc]

/-! The fields that are written back, wherever a header is read. -/

section
variable (hi : image.toList = before ++ (h.fields ++ after)) (hbefore : before.length = marker.length)
include hi hbefore

theorem toList_putField_headerCrc (crc : UInt32) :
    (image.putField headerCrcOffset crc).toList = before ++ ({ h with headerCrc := crc }.fields ++ after) := by
  rw [fields_eq] at hi ⊢
  rw [← List.nil_append (Word.bytes h.headerCrc ++ _)] at hi
  exact toList_putField hi hbefore crc

theorem toList_putField_assemblyCrc (crc : UInt32) :
    (image.putField assemblyCrcOffset crc).toList = before ++ ({ h with assemblyCrc := crc }.fields ++ after) := by
  rw [fields_eq] at hi ⊢
  exact toList_putField hi (by rw [hbefore, Word.length_bytes]; rfl) crc

theorem toList_putField_nativeChecksum (checksum : UInt32) :
    (image.putField nativeChecksumOffset checksum).toList =
      before ++ ({ h with nativeChecksum := checksum }.fields ++ after) := by
  have hfields : ∀ h : Header, h.fields =
      (Word.bytes h.headerCrc ++ Word.bytes h.assemblyCrc ++ Word.bytes h.flags) ++
        (Word.bytes h.nativeChecksum ++ h.unmarked) := by
    intro h
    rw [fields_eq]
    simp only [List.append_assoc]
  rw [hfields] at hi ⊢
  refine toList_putField hi ?_ checksum
  simp only [hbefore, List.length_append, Word.length_bytes]
  rfl

end

end Header

theorem headerChecksum_putField_headerCrc (image : Bytes) (value : UInt32) :
    headerChecksum (image.putField Header.headerCrcOffset value) = headerChecksum image := by
  simp only [headerChecksum, Bytes.size_putField]
  rw [Bytes.extract_putField _ _ (.inl (Nat.le_refl _)), Bytes.extract_putField _ _ (.inr (by decide))]

theorem assemblyChecksum_putField (image : Bytes) {offset : Nat} (value : UInt32) (totalSize : Nat)
    (h : offset + 4 ≤ Header.size) :
    assemblyChecksum (image.putField offset value) totalSize = assemblyChecksum image totalSize := by
  simp only [assemblyChecksum, Bytes.size_putField]
  rw [Bytes.extract_putField _ _ (.inr h)]

/-- Sealing succeeds on whatever holds a header and the stated size, and writes two valid checksums. -/
theorem Bytes.seal_spec {image : Bytes} {totalSize : Nat} (hh : Header.size ≤ totalSize)
    (hs : totalSize ≤ image.size) :
    ∃ s, image.seal totalSize = .ok s ∧
      s.image = (image.putField Header.assemblyCrcOffset s.assemblyCrc).putField
        Header.headerCrcOffset s.headerCrc ∧
      assemblyChecksum s.image totalSize = .ok s.assemblyCrc ∧
      headerChecksum s.image = .ok s.headerCrc := by
  obtain ⟨assemblyCrc, ha⟩ : ∃ crc, assemblyChecksum image totalSize = .ok crc :=
    ⟨_, if_pos ⟨hh, hs⟩⟩
  have hsize : Header.size ≤ (image.putField Header.assemblyCrcOffset assemblyCrc).size := by
    rw [Bytes.size_putField]
    exact Nat.le_trans hh hs
  obtain ⟨headerCrc, hc⟩ : ∃ crc, headerChecksum (image.putField Header.assemblyCrcOffset assemblyCrc) =
      .ok crc := ⟨_, if_pos hsize⟩
  refine ⟨⟨assemblyCrc, headerCrc, (image.putField Header.assemblyCrcOffset assemblyCrc).putField
    Header.headerCrcOffset headerCrc⟩, ?_, by dsimp only, ?_, ?_⟩
  · simp only [Bytes.seal, ha, hc, bind, Except.bind, pure, Except.pure]
  · rw [assemblyChecksum_putField _ _ _ (by decide), assemblyChecksum_putField _ _ _ (by decide), ha]
  · rw [headerChecksum_putField_headerCrc, hc]

/-- What the checksum of the header is taken over: the header with zeros for the checksum itself. -/
def Header.hashed (image : Bytes) : List UInt8 :=
  (image.extract 0 headerCrcOffset).toList ++ Word.bytes (0 : UInt32) ++ (image.extract assemblyCrcOffset size).toList

theorem headerChecksum_eq {image : Bytes} (h : Header.size ≤ image.size) :
    headerChecksum image = .ok (Checksum.update 0 (Header.hashed image)) := by
  unfold headerChecksum
  rw [if_pos h]
  simp only [Header.hashed, Checksum.ofBytes_eq_update, Checksum.update_append]

theorem Header.hashed_of_toList {image : Bytes} {xs mid ys zs : List UInt8}
    (himage : image.toList = xs ++ (mid ++ (ys ++ zs))) (hx : xs.length = headerCrcOffset)
    (hmid : (xs ++ mid).length = assemblyCrcOffset) (hy : (xs ++ mid ++ ys).length = size) :
    hashed image = xs ++ Word.bytes (0 : UInt32) ++ ys := by
  have hbefore : (image.extract 0 headerCrcOffset).toList = xs := by
    rw [Array.toList_extract, himage, List.extract_eq_take_drop]
    exact List.take_left' hx
  have hafter : (image.extract assemblyCrcOffset size).toList = ys := by
    rw [Array.toList_extract, himage, List.extract_eq_take_drop, ← List.append_assoc, List.drop_left' hmid]
    refine List.take_left' ?_
    rw [← hy, ← hmid, List.length_append, Nat.add_sub_cancel_left]
  rw [hashed, hbefore, hafter]

section
variable (h : Header) (body : List UInt8)

theorem assemblyChecksum_encode :
    assemblyChecksum (h.encode ++ body).toArray (h.encode ++ body).toArray.size = .ok (Checksum.update 0 body) := by
  have hsize : Header.size ≤ (h.encode ++ body).toArray.size := by
    rw [List.size_toArray, List.length_append, h.length_encode]
    exact Nat.le_add_right ..
  have hbody : ((h.encode ++ body).toArray.extract Header.size (h.encode ++ body).toArray.size).toList = body := by
    rw [Array.toList_extract, ← h.length_encode, List.extract_eq_take_drop, List.drop_left, List.size_toArray,
      List.length_append, Nat.add_sub_cancel_left, List.take_length]
  rw [assemblyChecksum, if_pos ⟨hsize, Nat.le_refl _⟩, Checksum.ofBytes_eq_update, hbody]

theorem headerChecksum_encode :
    headerChecksum (h.encode ++ body).toArray = .ok (Checksum.update 0 { h with headerCrc := 0 }.encode) := by
  have hsize : Header.size ≤ (h.encode ++ body).toArray.size := by
    rw [List.size_toArray, List.length_append, h.length_encode]
    exact Nat.le_add_right ..
  have hencode : ∀ h : Header, h.encode = Header.marker ++ (Word.bytes h.headerCrc ++
      (Word.bytes h.assemblyCrc ++ (Word.bytes h.flags ++ (Word.bytes h.nativeChecksum ++ h.unmarked)))) := by
    intro h
    rw [Header.encode_eq, Header.fields_eq]
  have hlength := h.length_encode
  rw [hencode, ← List.append_assoc] at hlength
  rw [headerChecksum_eq hsize, hencode { h with headerCrc := 0 }, Header.hashed_of_toList
    (by rw [hencode, List.append_assoc, List.append_assoc]) rfl (by rw [List.length_append, Word.length_bytes]; rfl)
    hlength, List.append_assoc]
  rfl

theorem Bytes.seal_encode (hassembly : Checksum.update 0 body = h.assemblyCrc)
    (hheader : Checksum.update 0 { h with headerCrc := 0 }.encode = h.headerCrc) :
    Bytes.seal ({ h with headerCrc := 0, assemblyCrc := 0 }.encode ++ body).toArray
      ({ h with headerCrc := 0, assemblyCrc := 0 }.encode ++ body).toArray.size =
        .ok ⟨h.assemblyCrc, h.headerCrc, (h.encode ++ body).toArray⟩ := by
  have hput : ∀ (h' : Header) crc, Bytes.putField (h'.encode ++ body).toArray Header.assemblyCrcOffset crc =
      ({ h' with assemblyCrc := crc }.encode ++ body).toArray := by
    intro h' crc
    rw [← Array.toList_inj, Header.encode_eq, Header.encode_eq, List.append_assoc, List.append_assoc]
    exact Header.toList_putField_assemblyCrc rfl rfl crc
  have hput' : ∀ (h' : Header) crc, Bytes.putField (h'.encode ++ body).toArray Header.headerCrcOffset crc =
      ({ h' with headerCrc := crc }.encode ++ body).toArray := by
    intro h' crc
    rw [← Array.toList_inj, Header.encode_eq, Header.encode_eq, List.append_assoc, List.append_assoc]
    exact Header.toList_putField_headerCrc rfl rfl crc
  unfold Bytes.seal
  rw [assemblyChecksum_encode, hassembly]
  simp only [bind, Except.bind, hput, headerChecksum_encode, hheader, hput']
  rfl
end
namespace Checksum

/-- Whether these are the registers after each `n` bytes. -/
def passes (n : Nat) (register : UInt32) (bytes : List UInt8) : List UInt32 → Bool
  | [] => bytes.isEmpty
  | next :: rest => update register (bytes.take n) == next && passes n next (bytes.drop n) rest

theorem update_of_passes {n : Nat} {register : UInt32} {bytes : List UInt8} {registers : List UInt32}
    (h : passes n register bytes registers = true) :
    update register bytes = registers.getLastD register := by
  induction registers generalizing register bytes with
  | nil => rw [List.isEmpty_iff.1 h]; rfl
  | cons next rest ih =>
    obtain ⟨hnext, hrest⟩ := Bool.and_eq_true_iff.1 h
    rw [← List.take_append_drop n bytes, update_append, eq_of_beq hnext, ih hrest, List.getLastD_cons]

end Checksum

end CompactAssembly
