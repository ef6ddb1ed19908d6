import CompactAssembly.Proofs.TokenWidth

/-!
# Shortest forms of compressed integers

What a reader takes as a number are the forms that `Compressed.Spells` lists, and none of them goes on as another
one (`Compressed.Spells.prefix_free`). A writer puts the shortest form of a number behind what a buffer holds, or
nothing at all (`Compressed.write_eq`).
-/

namespace CompactAssembly

namespace Compressed
variable {n m : Nat} {xs ys form : List UInt8} {data : Bytes} {pos stop : Nat}

theorem write_eq (n : Nat) (buffer : Bytes) : write n buffer = match encode n with
    | .ok form => .ok () (buffer ++ form)
    | .error fault => .error fault buffer := by
  unfold write encode
  split_ifs <;> rfl

theorem length_encode_eq (h : encode n = .ok form) :
    form.length = if n < 0x80 then 1 else if n < 0x4000 then 2 else 4 := by
  unfold encode at h
  split_ifs at h ⊢ <;> cases h <;> rfl

theorem encode_of_limit_lt (h : limit < n) : encode n = .error .outOfBounds := by
  have hn := h
  unfold limit at hn
  unfold encode
  rw [if_neg (by omega), if_neg (by omega), if_neg (Nat.not_le_of_lt h)]

/-- A reader at the start of these bytes takes all of them as a number. -/
def Accepts (xs : List UInt8) (n : Nat) : Prop := read.outcome xs.toArray 0 = (.ok n, xs.length)

theorem accepts_iff : Accepts xs n ↔ Spells xs n := by
  unfold Accepts
  rw [outcome_read_ok_iff, read_ok_iff]
  constructor
  · rintro ⟨form, hspells, ⟨before, after, hxs, hbefore⟩, hlength⟩
    obtain rfl := List.length_eq_zero_iff.1 hbefore
    rw [Nat.zero_add] at hlength
    have hform : xs ++ [] = form ++ after := (List.append_nil xs).trans hxs
    rwa [(List.append_inj hform hlength).1]
  · intro hspells
    exact ⟨xs, hspells, ⟨[], [], by simp, rfl⟩, (Nat.zero_add _).symm⟩

theorem Spells.prefix_free (hx : Spells xs n) (hy : Spells ys m) (h : xs <+: ys) : xs = ys := by
  by_contra hne
  have hread := accepts_iff.2 hx
  have hend : Bytes.EndsWith xs.toArray 0 xs := ⟨[], rfl, rfl⟩
  have hshort := (consumes_read hy).short xs.toArray 0 xs h hne hend
  exact hshort.ne_ok n (outcome_read_ok_iff.1 hread)

theorem length_encode_le_of_read (hform : encode n = .ok form) (h : read.outcome data pos = (.ok n, stop)) :
    pos + form.length ≤ stop := by
  obtain ⟨xs, hspells, -, rfl⟩ := read_ok_iff.1 (outcome_read_ok_iff.1 h)
  exact Nat.add_le_add_left (hspells.length_encode_le (Nat.le_refl n) hform) pos

end Compressed

/-- A number of at most 29 bits is written as one, two or four bytes behind what a buffer holds, which read back as
this number whatever is around them. Nothing shorter reads as the number, no form that is read goes on as another
one, and a higher number is refused with the buffer as it was. -/
theorem compressed_forms_shortest (buffer : Bytes) :
    (∀ n ≤ 0x1FFFFFFF, ∃ form : List UInt8,
      Compressed.write n buffer = .ok () (buffer ++ form) ∧
      form.length = (if n < 0x80 then 1 else if n < 0x4000 then 2 else 4) ∧
      (∀ suffix : Bytes, Compressed.read.outcome (buffer ++ form ++ suffix) buffer.size =
        (.ok n, buffer.size + form.length)) ∧
      ∀ data pos stop, Compressed.read.outcome data pos = (.ok n, stop) → pos + form.length ≤ stop) ∧
    (∀ xs ys m n, Compressed.Accepts xs m → Compressed.Accepts ys n → xs <+: ys → xs = ys) ∧
    ∀ n, 0x1FFFFFFF < n → Compressed.write n buffer = .error .outOfBounds buffer := by
  refine ⟨fun n hn => ?_, fun xs ys m n hx hy h => ?_, fun n hn => ?_⟩
  · obtain ⟨form, hform⟩ := Compressed.exists_encode hn
    refine ⟨form, ?_, Compressed.length_encode_eq hform, fun suffix => ?_,
      fun data pos stop => Compressed.length_encode_le_of_read hform⟩
    · rw [Compressed.write_eq, hform]
    · rw [Compressed.outcome_read_ok_iff, Compressed.read_ok_iff]
      exact ⟨form, Compressed.spells_encode hform, (Bytes.holdsAt_size_append buffer form).append_right suffix, rfl⟩
  · exact (Compressed.accepts_iff.1 hx).prefix_free (Compressed.accepts_iff.1 hy) h
  · rw [Compressed.write_eq, Compressed.encode_of_limit_lt hn]

/-- The least number of four bytes, behind one byte and before another. -/
theorem compressed_forms_shortest_four :
    Compressed.write 0x4000 #[0xAA] = .ok () #[0xAA, 0xC0, 0x00, 0x40, 0x00] ∧
      Compressed.read.outcome #[0xAA, 0xC0, 0x00, 0x40, 0x00, 0x7F] 1 = (.ok 0x4000, 5) ∧
      Compressed.write 0x20000000 #[0xAA] = .error .outOfBounds #[0xAA] := by
  have hwritten : Compressed.write 0x4000 #[0xAA] = .ok () #[0xAA, 0xC0, 0x00, 0x40, 0x00] := rfl
  obtain ⟨hforms, -, hhigh⟩ := compressed_forms_shortest #[0xAA]
  obtain ⟨form, hform, -, hread, -⟩ := hforms 0x4000 (by decide)
  obtain rfl : form = [0xC0, 0x00, 0x40, 0x00] := by
    have hbuffer := hform.symm.trans hwritten
    injection hbuffer with _ hbuffer
    have hbytes : [0xAA] ++ form = [0xAA] ++ [0xC0, 0x00, 0x40, 0x00] := by
      simpa using congrArg Array.toList hbuffer
    exact List.append_cancel_left hbytes
  exact ⟨hwritten, hread #[0x7F], hhigh 0x20000000 (by decide)⟩

end CompactAssembly
