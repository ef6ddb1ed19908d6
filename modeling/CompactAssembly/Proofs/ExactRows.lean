import CompactAssembly.Proofs.RowCodec

/-!
# Records and headers are stored exactly

The converse of the laws of records: what reads as a record is written again as the same bytes, but for the
two bytes without meaning of some records, which become zeros (`blank`). `ExactRow`: so it is for a record
type, and its reader fails in no other way than by running out of bytes, hence just on the blocks that are
shorter than a record (`ExactRow.short`). All eleven record types are exact, and the header is.
-/

namespace CompactAssembly
open Reader

/-- Where the two bytes without meaning begin in a record of a table, if it has them. -/
def TableKind.fillerAt? : TableKind → Option Nat
  | assemblyRef | typeSpec | resourcesFiles => some 2
  | typeRef | fieldRef | methodRef => some 6
  | typeDef | fieldDef | methodDef | attributes | resources => none
  | resourcesData | strings | signatures | byteCode | endOfAssembly => none

/-- Where the marker of a header has its two bytes that are not checked. -/
def Header.fillerAt : Nat := 6

/-- Bytes with zeros for the two without meaning. -/
def blank (at? : Option Nat) (bytes : List UInt8) : List UInt8 :=
  match at? with
  | none => bytes
  | some i => bytes.take i ++ Word.bytes filler ++ bytes.drop (i + 2)

theorem blank_append {i : Nat} {xs ys : List UInt8} (hxs : xs.length = i) (hys : ys.length = 2) (zs : List UInt8) :
    blank (some i) (xs ++ (ys ++ zs)) = xs ++ (Word.bytes filler ++ zs) := by
  have hdrop : (xs ++ (ys ++ zs)).drop (i + 2) = zs := by
    rw [← List.append_assoc]
    exact List.drop_left' (by rw [List.length_append, hxs, hys])
  rw [blank, List.take_left' hxs, hdrop, List.append_assoc]

theorem stores_filler : Reader.filler.Stores fun _ xs => xs.length = 2 := by
  refine stores_word.bind ?_
  rintro _ _ rfl
  exact stores_pure rfl

theorem moves_filler : Reader.filler.Moves 2 :=
  moves_word.bind (by decide) fun _ => moves_pure ()

theorem Version.moves : Version.read.Moves 8 := by
  iterate 4 refine moves_word.bind (by decide) fun _ => ?_
  exact moves_pure _

/-- A record type whose records are written as they were read, and which is read or out of bounds. -/
class ExactRow (ρ : Type) [Row ρ] : Prop extends LawfulRow ρ where
  stores : (Row.read : Reader ρ).Stores fun r xs => Row.encode r = blank (Row.kind ρ).fillerAt? xs
  moves : (Row.read : Reader ρ).Moves (Row.size ρ)

instance : ExactRow AssemblyRef where
  stores := by
    refine stores_word.bind ?_
    rintro name _ rfl
    refine stores_filler.bind fun _ pad hpad => Version.stores.bind ?_
    rintro version _ rfl
    refine stores_pure ?_
    rw [List.append_nil]
    exact (List.append_assoc ..).trans (blank_append rfl hpad _).symm
  moves :=
    moves_word.bind (by decide) fun _ => moves_filler.bind (by decide) fun _ =>
      Version.moves.bind (by decide) fun _ => moves_pure _

/-- Three references and two bytes without meaning, as the records of references have them. -/
theorem stores_references {ρ : Type} {make : UInt16 → UInt16 → UInt16 → ρ} {form : ρ → List UInt8 → Prop}
    (hform : ∀ (a b c : UInt16) (pad : List UInt8), pad.length = 2 →
      form (make a b c) (Word.bytes a ++ (Word.bytes b ++ (Word.bytes c ++ pad)))) :
    Stores (do
      let a ← word
      let b ← word
      let c ← word
      Reader.filler
      return make a b c) form := by
  iterate 3
    refine stores_word.bind ?_
    rintro _ _ rfl
  refine stores_filler.bind fun _ pad hpad => stores_pure ?_
  rw [List.append_nil]
  exact hform _ _ _ pad hpad

theorem blank_references (a b c : UInt16) {pad : List UInt8} (hpad : pad.length = 2) :
    blank (some 6) (Word.bytes a ++ (Word.bytes b ++ (Word.bytes c ++ pad))) =
      Word.bytes a ++ Word.bytes b ++ Word.bytes c ++ Word.bytes filler := by
  have h := blank_append (show (Word.bytes a ++ Word.bytes b ++ Word.bytes c).length = 6 from rfl) hpad []
  simpa only [List.append_assoc, List.append_nil] using h

theorem moves_references {ρ : Type} (make : UInt16 → UInt16 → UInt16 → ρ) :
    Moves (do
      let a ← word
      let b ← word
      let c ← word
      Reader.filler
      return make a b c) 8 := by
  iterate 3 refine moves_word.bind (by decide) fun _ => ?_
  exact moves_filler.bind (by decide) fun _ => moves_pure _

instance : ExactRow TypeRef where
  stores := stores_references fun a b c _ hpad => (blank_references a b c hpad).symm
  moves := moves_references TypeRef.mk

instance : ExactRow FieldRef where
  stores := stores_references fun a b c _ hpad => (blank_references a b c hpad).symm
  moves := moves_references FieldRef.mk

instance : ExactRow MethodRef where
  stores := stores_references fun a b c _ hpad => (blank_references a b c hpad).symm
  moves := moves_references MethodRef.mk

instance : ExactRow TypeSpec where
  stores := by
    refine stores_word.bind ?_
    rintro sig _ rfl
    refine stores_filler.bind fun _ pad hpad => stores_pure ?_
    exact (blank_append rfl hpad []).symm
  moves := moves_word.bind (by decide) fun _ => moves_filler.bind (by decide) fun _ => moves_pure _

instance : ExactRow TypeDef where
  stores := by
    iterate 15
      refine stores_word.bind ?_
      rintro _ _ rfl
    refine stores_pure ?_
    simp only [Row.encode, Row.kind, TableKind.fillerAt?, blank, List.append_assoc, List.append_nil]
  moves := by
    iterate 15 refine moves_word.bind (by decide) fun _ => ?_
    exact moves_pure _

instance : ExactRow FieldDef where
  stores := by
    iterate 4
      refine stores_word.bind ?_
      rintro _ _ rfl
    refine stores_pure ?_
    simp only [Row.encode, Row.kind, TableKind.fillerAt?, blank, List.append_assoc, List.append_nil]
  moves := by
    iterate 4 refine moves_word.bind (by decide) fun _ => ?_
    exact moves_pure _

instance : ExactRow MethodDef where
  stores := by
    iterate 9
      refine stores_word.bind ?_
      rintro _ _ rfl
    refine stores_pure ?_
    simp only [Row.encode, Row.kind, TableKind.fillerAt?, blank, List.append_assoc, List.append_nil]
  moves := by
    iterate 9 refine moves_word.bind (by decide) fun _ => ?_
    exact moves_pure _

instance : ExactRow Attribute where
  stores := by
    iterate 4
      refine stores_word.bind ?_
      rintro _ _ rfl
    refine stores_pure ?_
    simp only [Row.encode, Row.kind, TableKind.fillerAt?, blank, List.append_assoc, List.append_nil]
  moves := by
    iterate 4 refine moves_word.bind (by decide) fun _ => ?_
    exact moves_pure _

instance : ExactRow Resource where
  stores := by
    iterate 4
      refine stores_word.bind ?_
      rintro _ _ rfl
    refine stores_pure ?_
    simp only [Row.encode, Row.kind, TableKind.fillerAt?, blank, List.append_assoc, List.append_nil]
  moves := by
    iterate 4 refine moves_word.bind (by decide) fun _ => ?_
    exact moves_pure _

instance : ExactRow ResourceFile where
  stores := by
    refine stores_word.bind ?_
    rintro name _ rfl
    refine stores_filler.bind fun _ pad hpad => stores_word.bind ?_
    rintro resourceCount _ rfl
    refine stores_pure ?_
    rw [List.append_nil]
    exact (List.append_assoc ..).trans (blank_append rfl hpad _).symm
  moves :=
    moves_word.bind (by decide) fun _ => moves_filler.bind (by decide) fun _ =>
      moves_word.bind (by decide) fun _ => moves_pure _

theorem EveryRow.of_exact {P : ∀ (ρ : Type) [Row ρ], Prop} (h : ∀ (ρ : Type) [Row ρ] [ExactRow ρ], P ρ) :
    EveryRow P :=
  ⟨h _, h _, h _, h _, h _, h _, h _, h _, h _, h _, h _⟩

theorem Bytes.size_le_append (before : Bytes) (block : List UInt8) : before.size ≤ (before ++ block).size := by
  rw [← Array.length_toList, ← Array.length_toList, Array.toList_appendList, List.length_append]
  exact Nat.le_add_right ..

theorem Bytes.holdsAt_between (before : Bytes) (xs : List UInt8) (after : Bytes) :
    Bytes.HoldsAt (before ++ xs ++ after) before.size xs :=
  (holdsAt_size_append before xs).append_right after

theorem Bytes.eq_take_of_holdsAt {before : Bytes} {block xs : List UInt8}
    (h : Bytes.HoldsAt (before ++ block) before.size xs) : xs = block.take xs.length := by
  obtain ⟨before', after, hsplit, hlen⟩ := h
  rw [Array.toList_appendList] at hsplit
  obtain ⟨-, rfl⟩ := List.append_inj hsplit (by rw [hlen, Array.length_toList])
  exact List.take_left.symm

theorem Bytes.HoldsAt.behind {data : Bytes} {pos : Nat} {xs : List UInt8} (h : data.HoldsAt pos xs) :
    Bytes.HoldsAt (data.extract pos) 0 xs := by
  obtain ⟨before, after, hdata, rfl⟩ := h
  refine ⟨[], after, ?_, rfl⟩
  rw [Array.toList_extract, List.extract_eq_take_drop, hdata, List.drop_left, List.nil_append]
  refine List.take_of_length_le (Nat.le_of_eq ?_)
  rw [← Array.length_toList, hdata, @List.length_append _ before, Nat.add_sub_cancel_left]

namespace ExactRow
variable {ρ : Type} [Row ρ] [ExactRow ρ]

theorem reads_between (r : ρ) (before after : Bytes) :
    (Row.read : Reader ρ) (before ++ Row.encode r ++ after) before.size = .ok r (before.size + Row.size ρ) := by
  rw [LawfulRow.reads r _ _ (Bytes.holdsAt_between ..), LawfulRow.length_encode]

/-- A record that was read is written as the bytes it was read from. -/
theorem encode_of_read {before : Bytes} {block : List UInt8} {r : ρ} {stop : Nat}
    (h : (Row.read : Reader ρ) (before ++ block) before.size = .ok r stop) :
    stop = before.size + Row.size ρ ∧
      Row.encode r = blank (Row.kind ρ).fillerAt? (block.take (Row.size ρ)) := by
  have hmoves := ExactRow.moves (ρ := ρ) (before ++ block) before.size
  rw [h] at hmoves
  obtain ⟨xs, hencode, hholds, rfl⟩ := ExactRow.stores _ _ _ _ (Bytes.size_le_append before block) h
  have hxs := Bytes.eq_take_of_holdsAt hholds
  rw [Nat.add_left_cancel hmoves] at hxs
  exact ⟨hmoves, hxs ▸ hencode⟩

theorem short {before : Bytes} {block : List UInt8} (h : block.length < Row.size ρ) :
    ∃ stop, (Row.read : Reader ρ) (before ++ block) before.size = .error .outOfBounds stop := by
  have hmoves := ExactRow.moves (ρ := ρ) (before ++ block) before.size
  cases hread : (Row.read : Reader ρ) (before ++ block) before.size with
  | error fault stop =>
    rw [hread] at hmoves
    exact ⟨stop, congrArg (EStateM.Result.error · stop) hmoves⟩
  | ok r stop =>
    rw [hread] at hmoves
    obtain ⟨xs, -, hholds, rfl⟩ := ExactRow.stores _ _ _ _ (Bytes.size_le_append before block) hread
    have hxs := congrArg List.length (Bytes.eq_take_of_holdsAt hholds)
    rw [List.length_take] at hxs
    omega

end ExactRow

namespace Header

theorem length_fields (h : Header) : h.fields.length = size - marker.length := by
  rw [fields, List.length_drop, length_encode]

theorem encode_of_read {block : Bytes} {h : Header} (hread : Header.read block = .ok h) :
    size ≤ block.size ∧ h.encode = blank (some fillerAt) (block.toList.take size) := by
  obtain ⟨hsize, hsig, hfields⟩ := read_ok_iff.1 hread
  refine ⟨hsize, ?_⟩
  obtain ⟨before, after, hblock, hbefore⟩ := hfields
  have htake : block.toList.take size = before ++ h.fields := by
    have hlength : (before ++ h.fields).length = size := by
      rw [List.length_append, hbefore, length_fields]
      rfl
    rw [hblock, ← List.append_assoc, List.take_left' hlength]
  have hchecked : before.take signature.length = signature := by
    rw [Array.toList_extract, List.extract_eq_take_drop, hblock] at hsig
    rwa [List.drop_zero, Nat.sub_zero, List.take_append_of_le_length (hbefore ▸ by decide)] at hsig
  -- the marker is what is checked and two bytes more
  have hmarker : before = signature ++ before.drop signature.length :=
    (List.take_append_drop ..).symm.trans (congrArg (· ++ _) hchecked)
  have hpad : (before.drop signature.length).length = 2 := by
    rw [List.length_drop, hbefore]
    rfl
  calc h.encode = signature ++ (Word.bytes filler ++ h.fields) := encode_eq h
    _ = blank (some fillerAt) (signature ++ (before.drop signature.length ++ h.fields)) :=
      (blank_append rfl hpad _).symm
    _ = blank (some fillerAt) (block.toList.take size) := by
      rw [← List.append_assoc, ← hmarker, htake]

theorem read_short {block : Bytes} (hsize : block.size < size) (hmarker : marker.length ≤ block.size)
    (hsig : (block.extract 0 signature.length).toList = signature) : Header.read block = .error .outOfBounds := by
  have hpos : 0 < marker.length := by decide
  unfold read
  rw [if_neg (by omega), if_neg (not_or.2 ⟨Nat.not_lt.2 hmarker, Decidable.not_not.2 hsig⟩), if_pos hsize]

end Header

/-- Each record type and the header are stored exactly. What is written has the size of a record and reads
back, whatever stands before and behind it; what reads is written again as the same bytes, with zeros for the
two without meaning; and a block that is too short is out of bounds. -/
theorem rows_and_header_exact :
    (EveryRow fun ρ =>
      (Row.kind ρ).recordSize? = some (Row.size ρ) ∧
      (∀ r : ρ, (Row.encode r).length = Row.size ρ) ∧
      (∀ (r : ρ) (before after : Bytes), (Row.read : Reader ρ) (before ++ Row.encode r ++ after) before.size =
        .ok r (before.size + Row.size ρ)) ∧
      (∀ (before : Bytes) (block : List UInt8) (r : ρ) (stop : Nat),
        (Row.read : Reader ρ) (before ++ block) before.size = .ok r stop →
        stop = before.size + Row.size ρ ∧
          Row.encode r = blank (Row.kind ρ).fillerAt? (block.take (Row.size ρ))) ∧
      ∀ (before : Bytes) (block : List UInt8), block.length < Row.size ρ →
        ∃ stop, (Row.read : Reader ρ) (before ++ block) before.size = .error .outOfBounds stop) ∧
    (∀ h : Header, h.encode.length = Header.size) ∧
    (∀ (h : Header) (before after : Bytes),
      Header.read ((before ++ h.encode ++ after).extract before.size) = .ok h ∧
      Header.readFields (before ++ h.encode ++ after) (before.size + Header.marker.length) =
        .ok h (before.size + Header.size)) ∧
    (∀ (block : Bytes) (h : Header), Header.read block = .ok h →
      Header.size ≤ block.size ∧ h.encode = blank (some Header.fillerAt) (block.toList.take Header.size)) ∧
    ∀ block : Bytes, block.size < Header.size → Header.marker.length ≤ block.size →
      (block.extract 0 Header.signature.length).toList = Header.signature →
      Header.read block = .error .outOfBounds := by
  refine ⟨.of_exact fun ρ _ _ => ⟨LawfulRow.recordSize, LawfulRow.length_encode, ExactRow.reads_between,
    fun _ _ _ _ => ExactRow.encode_of_read, fun _ _ => ExactRow.short⟩, Header.length_encode, ?_,
    fun _ _ => Header.encode_of_read, fun _ => Header.read_short⟩
  intro h before after
  have hholds := Bytes.holdsAt_between before h.encode after
  refine ⟨Header.read_of_holdsAt hholds.behind, ?_⟩
  have hmarked := hholds
  rw [Header.encode_eq] at hmarked
  have hread := h.reads_fields _ _ (Bytes.holdsAt_append.1 hmarked).2
  rwa [h.length_fields, Nat.add_assoc, Nat.add_sub_cancel' (by decide)] at hread

/-- A reference behind one byte and before another, with something in the two bytes without meaning. -/
def paddedReference : List UInt8 := [5, 0, 7, 7, 1, 0, 2, 0, 3, 0, 4, 0, 8]

theorem rows_and_header_exact_padded :
    (Row.read : Reader AssemblyRef) ((#[9] : Bytes) ++ paddedReference) 1 = .ok ⟨5, ⟨1, 2, 3, 4⟩⟩ 13 ∧
      Row.encode (⟨5, ⟨1, 2, 3, 4⟩⟩ : AssemblyRef) = [5, 0, 0, 0, 1, 0, 2, 0, 3, 0, 4, 0] ∧
      (∃ stop, (Row.read : Reader AssemblyRef) ((#[9] : Bytes) ++ paddedReference.take 11) 1 =
        .error .outOfBounds stop) ∧
      Header.read Header.marker.toArray = .error .outOfBounds := by
  obtain ⟨hrows, -, -, -, hheader⟩ := rows_and_header_exact
  obtain ⟨-, -, -, hwrites, hshort⟩ := hrows.assemblyRefs
  have hread : (Row.read : Reader AssemblyRef) ((#[9] : Bytes) ++ paddedReference) 1 =
      .ok ⟨5, ⟨1, 2, 3, 4⟩⟩ 13 := rfl
  exact ⟨hread, (hwrites #[9] _ _ _ hread).2, hshort #[9] (paddedReference.take 11) (by decide),
    hheader Header.marker.toArray (by decide) (by decide) (by decide)⟩

end CompactAssembly
