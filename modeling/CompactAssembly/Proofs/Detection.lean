import CompactAssembly.Proofs.Seal
import Mathlib.Data.Nat.Bitwise
import Mathlib.Logic.Function.Iterate

/-!
# Short changes are detected

Shifting a register is linear (`Checksum.shift_xor`) and loses nothing (`Checksum.shift_injective`), so what differs
once stays different, whatever bytes follow (`Checksum.update_injective`). Up to four bytes lie side by side in the
register before the first of them is shifted out, so taking them in one by one is the same as setting all of them
and shifting afterwards (`Checksum.update_eq_shift`), and two runs of bytes that differ leave different registers.
The checksum of a header is taken over its bytes with zeros in the place of the checksum itself (`Header.hashed`), so
all of this holds of a header that is changed anywhere else.
-/

namespace CompactAssembly

namespace Checksum
variable {r r' : UInt32} {bytes bytes' : List UInt8}

theorem and_top_eq_zero_iff : r &&& 0x80000000 = 0 ↔ r.toBitVec.msb = false := by
  have hmsb : r.toBitVec.msb = r.toNat.testBit 31 := BitVec.msb_eq_getLsbD_last _
  have htop : (0x80000000 : UInt32).toNat = 2 ^ 31 := rfl
  rw [← UInt32.toNat_inj, UInt32.toNat_and, htop, Nat.and_two_pow, hmsb]
  cases r.toNat.testBit 31 <;> simp

/-- What the bit that is shifted out adds to the register. -/
def feedback (out : Bool) : BitVec 32 := if out then polynomial.toBitVec else 0#32

theorem feedback_xor (a b : Bool) : feedback (a ^^ b) = feedback a ^^^ feedback b := by
  cases a <;> cases b <;> decide

theorem getLsbD_feedback (out : Bool) : (feedback out).getLsbD 0 = out := by
  cases out <;> decide

theorem toBitVec_shift (r : UInt32) : (shift r).toBitVec = r.toBitVec <<< 1 ^^^ feedback r.toBitVec.msb := by
  unfold shift feedback
  simp only [and_top_eq_zero_iff]
  cases r.toBitVec.msb <;> simp

theorem shift_xor (r r' : UInt32) : shift (r ^^^ r') = shift r ^^^ shift r' := by
  apply UInt32.toBitVec_inj.1
  simp only [toBitVec_shift, UInt32.toBitVec_xor, BitVec.shiftLeft_xor_distrib, BitVec.msb_xor, feedback_xor]
  ac_rfl

theorem getLsbD_shift_zero (r : UInt32) : (shift r).toBitVec.getLsbD 0 = r.toBitVec.msb := by
  rw [toBitVec_shift, BitVec.getLsbD_xor, getLsbD_feedback]
  simp

theorem shift_injective : Function.Injective shift := by
  intro r r' h
  have hmsb : r.toBitVec.msb = r'.toBitVec.msb := by
    rw [← getLsbD_shift_zero, ← getLsbD_shift_zero, h]
  have hbits : r.toBitVec <<< 1 = r'.toBitVec <<< 1 := by
    have h := congrArg UInt32.toBitVec h
    rwa [toBitVec_shift, toBitVec_shift, hmsb, BitVec.xor_left_inj] at h
  apply UInt32.toBitVec_inj.1
  apply BitVec.eq_of_getLsbD_eq
  intro i hi
  rcases Nat.lt_or_eq_of_le (Nat.le_of_lt_succ hi) with hlt | rfl
  · have hbit := congrArg (fun x => BitVec.getLsbD x (i + 1)) hbits
    have hin : i + 1 < 32 := Nat.succ_lt_succ hlt
    simpa [hin, BitVec.getLsbD_eq_getElem hi] using hbit
  · simpa [BitVec.msb_eq_getLsbD_last] using hmsb

theorem step_eq (r : UInt32) (b : UInt8) : step r b = shift^[8] (r ^^^ b.toUInt32 <<< 24) := rfl

theorem iterate_shift_xor (n : Nat) (r r' : UInt32) : shift^[n] (r ^^^ r') = shift^[n] r ^^^ shift^[n] r' := by
  induction n generalizing r r' with
  | zero => rfl
  | succ n ih =>
    rw [Function.iterate_succ_apply, shift_xor, ih, Function.iterate_succ_apply, Function.iterate_succ_apply]

theorem step_injective (b : UInt8) : Function.Injective fun r => step r b := by
  intro r r' h
  have h := shift_injective.iterate 8 h
  exact UInt32.xor_left_inj _ |>.1 h

theorem update_injective (bytes : List UInt8) : Function.Injective fun r => update r bytes := by
  induction bytes with
  | nil => exact fun _ _ h => h
  | cons b bytes ih => exact fun r r' h => step_injective b (ih h)

theorem toNat_iterate_shift {n : Nat} (h : r.toNat * 2 ^ n < 2 ^ 32) : (shift^[n] r).toNat = r.toNat * 2 ^ n := by
  induction n with
  | zero => rw [Function.iterate_zero_apply, pow_zero, Nat.mul_one]
  | succ n ih =>
    rw [pow_succ, ← Nat.mul_assoc] at h ⊢
    have ih := ih (by omega)
    have hmsb : (shift^[n] r).toBitVec.msb = false := by
      rw [BitVec.msb_eq_false_iff_two_mul_lt]
      rw [UInt32.toNat_toBitVec, ih]
      omega
    have hmove : shift (shift^[n] r) = shift^[n] r <<< 1 := if_pos (and_top_eq_zero_iff.2 hmsb)
    have hone : (1 : UInt32).toNat % 32 = 1 := rfl
    rw [Function.iterate_succ_apply', hmove, UInt32.toNat_shiftLeft, ih, hone, Nat.shiftLeft_eq, pow_one,
      Nat.mod_eq_of_lt h]

/-- Up to four bytes side by side in a register, the first one on top. -/
def lead : List UInt8 → UInt32
  | [] => 0
  | b :: bytes => b.toUInt32 <<< 24 ^^^ lead bytes >>> 8

theorem toNat_lead_cons (b : UInt8) (bytes : List UInt8) :
    (lead (b :: bytes)).toNat = b.toNat * 2 ^ 24 ^^^ (lead bytes).toNat / 2 ^ 8 := by
  have hb := b.toNat_lt
  have hup : (24 : UInt32).toNat % 32 = 24 := rfl
  have hdown : (8 : UInt32).toNat % 32 = 8 := rfl
  rw [lead, UInt32.toNat_xor, UInt32.toNat_shiftLeft, UInt32.toNat_shiftRight, hup, hdown, UInt8.toNat_toUInt32,
    Nat.shiftLeft_eq, Nat.shiftRight_eq_div_pow, Nat.mod_eq_of_lt (by omega)]

theorem toNat_lead_mod (h : bytes.length ≤ 4) : (lead bytes).toNat % 2 ^ (32 - 8 * bytes.length) = 0 := by
  induction bytes with
  | nil => rfl
  | cons b bytes ih =>
    rw [List.length_cons] at h ⊢
    have ih := ih (by omega)
    have hroom : 32 - 8 * bytes.length = 32 - 8 * (bytes.length + 1) + 8 := by omega
    have hsmall : 32 - 8 * (bytes.length + 1) ≤ 24 := by omega
    generalize 32 - 8 * (bytes.length + 1) = k at hroom hsmall ⊢
    have hbyte : b.toNat * 2 ^ 24 % 2 ^ k = 0 :=
      Nat.mod_eq_zero_of_dvd ((pow_dvd_pow 2 hsmall).mul_left _)
    have hbytes : (lead bytes).toNat / 2 ^ 8 % 2 ^ k = 0 := by
      rw [hroom, pow_add] at ih
      obtain ⟨c, hc⟩ := Nat.dvd_of_mod_eq_zero ih
      rw [hc, Nat.mul_assoc, Nat.mul_comm (2 ^ 8), ← Nat.mul_assoc, Nat.mul_div_cancel _ (by decide)]
      exact Nat.mul_mod_right _ _
    rw [toNat_lead_cons, Nat.xor_mod_two_pow, hbyte, hbytes, Nat.xor_zero]

theorem toNat_lead_mod_byte (h : bytes.length ≤ 3) : (lead bytes).toNat % 2 ^ 8 = 0 := by
  have hroom : 8 ≤ 32 - 8 * bytes.length := by omega
  exact Nat.mod_eq_zero_of_dvd
    ((pow_dvd_pow 2 hroom).trans (Nat.dvd_of_mod_eq_zero (toNat_lead_mod (Nat.le_succ_of_le h))))

theorem lead_cons_inj {b b' : UInt8} (h : lead (b :: bytes) = lead (b' :: bytes')) (hlen : bytes.length ≤ 3)
    (hlen' : bytes'.length ≤ 3) : b = b' ∧ lead bytes = lead bytes' := by
  have h := congrArg UInt32.toNat h
  rw [toNat_lead_cons, toNat_lead_cons] at h
  have hlt := (lead bytes).toNat_lt
  have hlt' := (lead bytes').toNat_lt
  have hclear := toNat_lead_mod_byte hlen
  have hclear' := toNat_lead_mod_byte hlen'
  constructor
  · -- the eight bits on top
    have htop := congrArg (· / 2 ^ 24) h
    simp only [Nat.xor_div_two_pow, Nat.mul_div_cancel _ (Nat.two_pow_pos 24)] at htop
    have hnone : (lead bytes).toNat / 2 ^ 8 / 2 ^ 24 = 0 := by omega
    have hnone' : (lead bytes').toNat / 2 ^ 8 / 2 ^ 24 = 0 := by omega
    rw [hnone, hnone', Nat.xor_zero, Nat.xor_zero] at htop
    exact UInt8.toNat_inj.1 htop
  · -- the bits below them
    have hrest := congrArg (· % 2 ^ 24) h
    simp only [Nat.xor_mod_two_pow, Nat.mul_mod_left, Nat.zero_xor] at hrest
    apply UInt32.toNat_inj.1
    omega

theorem lead_injective (hlen : bytes.length = bytes'.length) (hfour : bytes.length ≤ 4) (h : lead bytes = lead bytes') :
    bytes = bytes' := by
  induction bytes generalizing bytes' with
  | nil => exact (List.eq_nil_of_length_eq_zero hlen.symm).symm
  | cons b bytes ih =>
    obtain ⟨b', bytes', rfl⟩ := List.exists_cons_of_length_eq_add_one hlen.symm
    simp only [List.length_cons, Nat.add_right_cancel_iff] at hlen hfour
    obtain ⟨rfl, hrest⟩ := lead_cons_inj h (by omega) (by omega)
    rw [ih hlen (by omega) hrest]

theorem iterate_shift_lead (h : bytes.length ≤ 3) : shift^[8] (lead bytes >>> 8) = lead bytes := by
  have hclear := toNat_lead_mod_byte h
  have hlt := (lead bytes).toNat_lt
  have hdown : (lead bytes >>> 8).toNat = (lead bytes).toNat / 2 ^ 8 := by
    have height : (8 : UInt32).toNat % 32 = 8 := rfl
    rw [UInt32.toNat_shiftRight, height, Nat.shiftRight_eq_div_pow]
  apply UInt32.toNat_inj.1
  rw [toNat_iterate_shift (by omega), hdown]
  omega

theorem update_eq_shift (h : bytes.length ≤ 4) (r : UInt32) :
    update r bytes = shift^[8 * bytes.length] (r ^^^ lead bytes) := by
  induction bytes generalizing r with
  | nil => exact (UInt32.xor_zero).symm
  | cons b bytes ih =>
    rw [List.length_cons] at h ⊢
    calc update r (b :: bytes) = shift^[8 * bytes.length] (step r b ^^^ lead bytes) := ih (by omega) _
      _ = shift^[8 * bytes.length] (shift^[8] (r ^^^ b.toUInt32 <<< 24 ^^^ lead bytes >>> 8)) := by
        rw [iterate_shift_xor 8, iterate_shift_lead (by omega), ← step_eq]
      _ = shift^[8 * (bytes.length + 1)] (r ^^^ lead (b :: bytes)) := by
        rw [← Function.iterate_add_apply, Nat.mul_succ, UInt32.xor_assoc, lead]

theorem update_ne (hlen : bytes.length = bytes'.length) (hfour : bytes.length ≤ 4) (hne : bytes ≠ bytes') (r : UInt32) :
    update r bytes ≠ update r bytes' := by
  intro h
  rw [update_eq_shift hfour, update_eq_shift (hlen ▸ hfour), ← hlen] at h
  exact hne (lead_injective hlen hfour ((UInt32.xor_right_inj r).1 (shift_injective.iterate _ h)))

/-- A change of up to four bytes shows behind whatever stands before and after it. -/
theorem update_append_ne (hlen : bytes.length = bytes'.length) (hfour : bytes.length ≤ 4) (hne : bytes ≠ bytes')
    (before after : List UInt8) (r : UInt32) :
    update r (before ++ bytes ++ after) ≠ update r (before ++ bytes' ++ after) := by
  intro h
  simp only [update_append] at h
  exact update_ne hlen hfour hne _ (update_injective after h)

end Checksum

namespace Bytes

theorem extract_overwrite_self (data : Bytes) {pos : Nat} {new : List UInt8} (hfit : pos + new.length ≤ data.size) :
    ((data.overwrite pos new).extract pos (pos + new.length)).toList = new := by
  have hlength : data.toList.length = data.size := Array.length_toList
  have hpos : (data.toList.take pos).length = pos := by
    rw [List.length_take]
    omega
  have hold : ((data.toList.drop pos).take new.length).length = new.length := by
    rw [List.length_take, List.length_drop]
    omega
  have hsplit : data.toList = data.toList.take pos ++
      ((data.toList.drop pos).take new.length ++ (data.toList.drop pos).drop new.length) := by
    rw [List.take_append_drop, List.take_append_drop]
  have hnew := toList_overwrite hsplit hold
  rw [hpos] at hnew
  rw [Array.toList_extract, hnew, List.extract_eq_take_drop, List.drop_left' hpos, Nat.add_sub_cancel_left,
    List.take_left]

/-- A window around overwritten bytes. -/
theorem toList_extract_overwrite (data : Bytes) {start pos stop : Nat} {new : List UInt8} (hstart : start ≤ pos)
    (hfit : pos + new.length ≤ stop) (hstop : stop ≤ data.size) :
    ((data.overwrite pos new).extract start stop).toList =
      (data.extract start pos).toList ++ new ++ (data.extract (pos + new.length) stop).toList := by
  have hmid : start ≤ pos + new.length := Nat.le_trans hstart (Nat.le_add_right ..)
  have hsplit : (data.overwrite pos new).extract start stop = (data.overwrite pos new).extract start pos ++
      (data.overwrite pos new).extract pos (pos + new.length) ++
      (data.overwrite pos new).extract (pos + new.length) stop := by
    rw [Array.extract_append_extract, Nat.min_eq_left hstart, Nat.max_eq_right (Nat.le_add_right ..),
      Array.extract_append_extract, Nat.min_eq_left hmid, Nat.max_eq_right hfit]
  rw [hsplit, Array.toList_append, Array.toList_append, extract_overwrite_self data (Nat.le_trans hfit hstop),
    extract_overwrite data (.inl (Nat.le_refl _)), extract_overwrite data (.inr (Nat.le_refl _))]

end Bytes

section
variable {image : Bytes}

namespace Header

/-- A place in the header that the field of its checksum does not reach into. -/
def Hashes (offset width : Nat) : Prop :=
  offset + width ≤ headerCrcOffset ∨ assemblyCrcOffset ≤ offset ∧ offset + width ≤ size

theorem Hashes.exists_hashed {offset width : Nat} (h : Hashes offset width) (hsize : size ≤ image.size) :
    ∃ before after, ∀ bytes : List UInt8, bytes.length = width →
      hashed (image.overwrite offset bytes) = before ++ bytes ++ after := by
  have hcrc : headerCrcOffset ≤ size := by decide
  rcases h with hbelow | ⟨habove, hfit⟩
  · refine ⟨(image.extract 0 offset).toList, (image.extract (offset + width) headerCrcOffset).toList ++
      Word.bytes (0 : UInt32) ++ (image.extract assemblyCrcOffset size).toList, ?_⟩
    rintro bytes rfl
    have hrest : offset + bytes.length ≤ assemblyCrcOffset := Nat.le_trans hbelow (by decide)
    rw [hashed, Bytes.toList_extract_overwrite image (Nat.zero_le _) hbelow (Nat.le_trans hcrc hsize),
      Bytes.extract_overwrite image (.inr hrest)]
    simp only [List.append_assoc]
  · refine ⟨(image.extract 0 headerCrcOffset).toList ++ Word.bytes (0 : UInt32) ++
      (image.extract assemblyCrcOffset offset).toList, (image.extract (offset + width) size).toList, ?_⟩
    rintro bytes rfl
    have hrest : headerCrcOffset ≤ offset := Nat.le_trans (by decide) habove
    rw [hashed, Bytes.extract_overwrite image (.inl hrest), Bytes.toList_extract_overwrite image habove hfit hsize]
    simp only [List.append_assoc]

end Header

/-- Two images with a header whose checksums differ. -/
def HeadersDiffer (image image' : Bytes) : Prop :=
  ∃ crc crc', headerChecksum image = .ok crc ∧ headerChecksum image' = .ok crc' ∧ crc ≠ crc'

theorem headersDiffer_overwrite (hsize : Header.size ≤ image.size) {offset : Nat} {bytes bytes' : List UInt8}
    (hplace : Header.Hashes offset bytes.length) (hlen : bytes.length = bytes'.length) (hfour : bytes.length ≤ 4)
    (hne : bytes ≠ bytes') : HeadersDiffer (image.overwrite offset bytes) (image.overwrite offset bytes') := by
  obtain ⟨before, after, hhashed⟩ := hplace.exists_hashed hsize
  have hcrc : ∀ new : List UInt8, new.length = bytes.length → headerChecksum (image.overwrite offset new) =
      .ok (Checksum.update 0 (before ++ new ++ after)) := by
    intro new hnew
    rw [headerChecksum_eq (by rwa [Bytes.size_overwrite]), hhashed new hnew]
  exact ⟨_, _, hcrc bytes rfl, hcrc bytes' hlen.symm, Checksum.update_append_ne hlen hfour hne before after 0⟩

theorem headersDiffer_putField (hsize : Header.size ≤ image.size) {offset : Nat} {value value' : UInt32}
    (hplace : Header.Hashes offset 4) (hne : value ≠ value') :
    HeadersDiffer (image.putField offset value) (image.putField offset value') := by
  have hlength : ∀ value : UInt32, (Word.bytes value).length = 4 := Word.length_bytes
  refine headersDiffer_overwrite hsize ?_ ((hlength value).trans (hlength value').symm) (Nat.le_of_eq (hlength _)) ?_
  · rwa [hlength]
  · intro h
    have hvalue := congrArg unsigned h
    rw [Word.unsigned_bytes, Word.unsigned_bytes] at hvalue
    exact hne (UInt32.toNat_inj.1 hvalue)

end

/-- A change of up to four bytes is detected wherever it stands: two runs of bytes that differ nowhere else have
different checksums from every seed, two seeds give different checksums of all bytes, and a header changed in one
place outside its own checksum has a different one. -/
theorem short_changes_detected :
    (∀ (before after bytes bytes' : List UInt8) (seed : UInt32),
      bytes.length = bytes'.length → bytes.length ≤ 4 → bytes ≠ bytes' →
      Checksum.ofBytes (before ++ bytes ++ after).toArray seed ≠
        Checksum.ofBytes (before ++ bytes' ++ after).toArray seed) ∧
    (∀ data : Bytes, Function.Injective (Checksum.ofBytes data)) ∧
    ∀ image : Bytes, Header.size ≤ image.size →
      (∀ (offset : Nat) (bytes bytes' : List UInt8), Header.Hashes offset bytes.length →
        bytes.length = bytes'.length → bytes.length ≤ 4 → bytes ≠ bytes' →
        HeadersDiffer (image.overwrite offset bytes) (image.overwrite offset bytes')) ∧
      (∀ (offset : Nat) (value value' : UInt32), Header.Hashes offset 4 → value ≠ value' →
        HeadersDiffer (image.putField offset value) (image.putField offset value')) ∧
      (∀ checksum checksum' : UInt32, checksum ≠ checksum' →
        HeadersDiffer (image.putField Header.nativeChecksumOffset checksum)
          (image.putField Header.nativeChecksumOffset checksum')) ∧
      ∃ crc, headerChecksum image = .ok crc ∧
        ∀ value, headerChecksum (image.putField Header.headerCrcOffset value) = .ok crc := by
  refine ⟨?_, ?_, ?_⟩
  · intro before after bytes bytes' seed hlen hfour hne
    simp only [Checksum.ofBytes_eq_update]
    exact Checksum.update_append_ne hlen hfour hne before after seed
  · intro data seed seed' h
    simp only [Checksum.ofBytes_eq_update] at h
    exact Checksum.update_injective _ h
  · intro image hsize
    have hnative : Header.Hashes Header.nativeChecksumOffset 4 := by
      simp only [Header.Hashes, Header.nativeChecksumOffset, Header.headerCrcOffset, Header.assemblyCrcOffset,
        Header.size]
      omega
    refine ⟨?_, ?_, ?_, ?_⟩
    · intro offset bytes bytes' hplace hlen hfour hne
      exact headersDiffer_overwrite hsize hplace hlen hfour hne
    · intro offset value value' hplace hne
      exact headersDiffer_putField hsize hplace hne
    · intro checksum checksum' hne
      exact headersDiffer_putField hsize hnative hne
    · refine ⟨_, headerChecksum_eq hsize, ?_⟩
      intro value
      rw [headerChecksum_putField_headerCrc, headerChecksum_eq hsize]

/-- A header of zeros takes two native checksums, and one bit among other bytes is not lost. -/
theorem short_changes_detected_zeros :
    HeadersDiffer (Bytes.putField (Array.replicate Header.size 0) Header.nativeChecksumOffset 1)
      (Bytes.putField (Array.replicate Header.size 0) Header.nativeChecksumOffset 2) ∧
    Checksum.ofBytes ([0x4E] ++ [1, 2, 3, 4] ++ [0x46] : List UInt8).toArray 0 ≠
      Checksum.ofBytes ([0x4E] ++ [1, 2, 3, 5] ++ [0x46] : List UInt8).toArray 0 := by
  obtain ⟨hbytes, -, hheader⟩ := short_changes_detected
  have hsize : Header.size ≤ (Array.replicate Header.size (0 : UInt8)).size := by
    rw [Array.size_replicate]
  have hnative := (hheader _ hsize).2.2.1
  exact ⟨hnative 1 2 (by decide), hbytes [0x4E] [0x46] [1, 2, 3, 4] [1, 2, 3, 5] 0 rfl (by decide) (by decide)⟩

end CompactAssembly
