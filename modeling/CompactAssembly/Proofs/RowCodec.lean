import CompactAssembly.Image.Header
import CompactAssembly.Proofs.Reads
import CompactAssembly.Record.Attachment
import CompactAssembly.Record.Definition
import CompactAssembly.Record.Reference

/-!
# Records and headers read back

`LawfulRow`: the stored form of a record is as long as its table says, and reading takes exactly it. All
eleven record types are lawful. The header obeys the same law behind its marker, and is read only where it
is stored (`Header.read_ok_iff`).
-/

namespace CompactAssembly
open Reader

theorem length_flatMap_of_const {α β : Type} {f : α → List β} {n : Nat} (hf : ∀ a, (f a).length = n)
    (xs : List α) : (xs.flatMap f).length = xs.length * n := by
  induction xs with
  | nil => simp
  | cons x xs ih =>
    rw [List.flatMap_cons, List.length_append, ih, hf, List.length_cons, Nat.succ_mul, Nat.add_comm]

/-- A record type whose stored form has the size of its table and reads back; any bytes of that size are
a record. -/
class LawfulRow (ρ : Type) [Row ρ] : Prop where
  recordSize : (Row.kind ρ).recordSize? = some (Row.size ρ)
  size_pos : 0 < Row.size ρ
  length_encode : ∀ r : ρ, (Row.encode r).length = Row.size ρ
  reads : ∀ r : ρ, Reads Row.read (Row.encode r) r
  takes : Takes (Row.read : Reader ρ) (Row.size ρ)

theorem Version.length_encode (v : Version) : v.encode.length = 8 := by
  simp only [encode, List.length_append, Word.length_bytes, Word.width]

theorem Version.reads (v : Version) : Version.read.Reads v.encode v := by
  simp only [encode, List.append_assoc]
  exact (reads_word _).bind ((reads_word _).bind ((reads_word _).bind (reads_word _).bind_pure))

theorem Version.takes : Version.read.Takes 8 := by
  iterate 4 refine takes_word.bind (by decide) fun _ => ?_
  exact takes_pure _

theorem Version.stores : Version.read.Stores fun v xs => xs = v.encode := by
  iterate 4
    refine stores_word.bind ?_
    rintro _ _ rfl
  refine stores_pure ?_
  simp only [encode, List.append_assoc, List.append_nil]

theorem takes_filler : Reader.filler.Takes 2 :=
  takes_word.bind (by decide) fun _ => takes_pure ()

theorem reads_filler : Reader.filler.Reads (Word.bytes filler) () :=
  (reads_word filler).bind_pure

instance : LawfulRow AssemblyRef where
  recordSize := rfl
  size_pos := by decide
  length_encode r := by
    simp only [Row.encode, List.length_append, Word.length_bytes, Version.length_encode]; rfl
  reads r := by
    simp only [Row.encode, List.append_assoc]
    exact (reads_word _).bind (reads_filler.bind (Version.reads _).bind_pure)
  takes :=
    takes_word.bind (by decide) fun _ => takes_filler.bind (by decide) fun _ =>
      Version.takes.bind (by decide) fun _ => takes_pure _

instance : LawfulRow TypeRef where
  recordSize := rfl
  size_pos := by decide
  length_encode r := by simp only [Row.encode, List.length_append, Word.length_bytes]; rfl
  reads r := by
    simp only [Row.encode, List.append_assoc]
    exact (reads_word _).bind ((reads_word _).bind ((reads_word _).bind reads_filler.bind_pure))
  takes := by
    iterate 3 refine takes_word.bind (by decide) fun _ => ?_
    exact takes_filler.bind (by decide) fun _ => takes_pure _

instance : LawfulRow FieldRef where
  recordSize := rfl
  size_pos := by decide
  length_encode r := by simp only [Row.encode, List.length_append, Word.length_bytes]; rfl
  reads r := by
    simp only [Row.encode, List.append_assoc]
    exact (reads_word _).bind ((reads_word _).bind ((reads_word _).bind reads_filler.bind_pure))
  takes := by
    iterate 3 refine takes_word.bind (by decide) fun _ => ?_
    exact takes_filler.bind (by decide) fun _ => takes_pure _

instance : LawfulRow MethodRef where
  recordSize := rfl
  size_pos := by decide
  length_encode r := by simp only [Row.encode, List.length_append, Word.length_bytes]; rfl
  reads r := by
    simp only [Row.encode, List.append_assoc]
    exact (reads_word _).bind ((reads_word _).bind ((reads_word _).bind reads_filler.bind_pure))
  takes := by
    iterate 3 refine takes_word.bind (by decide) fun _ => ?_
    exact takes_filler.bind (by decide) fun _ => takes_pure _

instance : LawfulRow TypeSpec where
  recordSize := rfl
  size_pos := by decide
  length_encode r := by simp only [Row.encode, List.length_append, Word.length_bytes]; rfl
  reads r := (reads_word _).bind reads_filler.bind_pure
  takes := takes_word.bind (by decide) fun _ => takes_filler.bind (by decide) fun _ => takes_pure _

instance : LawfulRow TypeDef where
  recordSize := rfl
  size_pos := by decide
  length_encode r := by simp only [Row.encode, List.length_append, Word.length_bytes]; rfl
  reads r := by
    simp only [Row.encode, List.append_assoc]
    iterate 14 refine (reads_word _).bind ?_
    exact (reads_word r.instanceFieldCount).bind_pure
  takes := by
    iterate 15 refine takes_word.bind (by decide) fun _ => ?_
    exact takes_pure _

instance : LawfulRow FieldDef where
  recordSize := rfl
  size_pos := by decide
  length_encode r := by simp only [Row.encode, List.length_append, Word.length_bytes]; rfl
  reads r := by
    simp only [Row.encode, List.append_assoc]
    iterate 3 refine (reads_word _).bind ?_
    exact (reads_word r.flags.bits).bind_pure
  takes := by
    iterate 4 refine takes_word.bind (by decide) fun _ => ?_
    exact takes_pure _

instance : LawfulRow MethodDef where
  recordSize := rfl
  size_pos := by decide
  length_encode r := by simp only [Row.encode, List.length_append, Word.length_bytes]; rfl
  reads r := by
    simp only [Row.encode, List.append_assoc]
    iterate 8 refine (reads_word _).bind ?_
    exact (reads_word r.sig).bind_pure
  takes := by
    iterate 9 refine takes_word.bind (by decide) fun _ => ?_
    exact takes_pure _

instance : LawfulRow Attribute where
  recordSize := rfl
  size_pos := by decide
  length_encode r := by simp only [Row.encode, List.length_append, Word.length_bytes]; rfl
  reads r := by
    simp only [Row.encode, List.append_assoc]
    iterate 3 refine (reads_word _).bind ?_
    exact (reads_word r.data).bind_pure
  takes := by
    iterate 4 refine takes_word.bind (by decide) fun _ => ?_
    exact takes_pure _

instance : LawfulRow Resource where
  recordSize := rfl
  size_pos := by decide
  length_encode r := by simp only [Row.encode, List.length_append, Word.length_bytes]; rfl
  reads r := by
    simp only [Row.encode, List.append_assoc]
    iterate 3 refine (reads_word _).bind ?_
    exact (reads_word r.offset).bind_pure
  takes := by
    iterate 4 refine takes_word.bind (by decide) fun _ => ?_
    exact takes_pure _

instance : LawfulRow ResourceFile where
  recordSize := rfl
  size_pos := by decide
  length_encode r := by simp only [Row.encode, List.length_append, Word.length_bytes]; rfl
  reads r := by
    simp only [Row.encode, List.append_assoc]
    exact (reads_word _).bind (reads_filler.bind (reads_word r.resourceCount).bind_pure)
  takes :=
    takes_word.bind (by decide) fun _ => takes_filler.bind (by decide) fun _ =>
      takes_word.bind (by decide) fun _ => takes_pure _

/-- What holds of each of the eleven record types. -/
structure EveryRow (P : ∀ (ρ : Type) [Row ρ], Prop) : Prop where
  assemblyRefs : P AssemblyRef
  typeRefs : P TypeRef
  fieldRefs : P FieldRef
  methodRefs : P MethodRef
  typeDefs : P TypeDef
  fieldDefs : P FieldDef
  methodDefs : P MethodDef
  attributes : P Attribute
  typeSpecs : P TypeSpec
  resources : P Resource
  resourceFiles : P ResourceFile

theorem EveryRow.of_lawful {P : ∀ (ρ : Type) [Row ρ], Prop} (h : ∀ (ρ : Type) [Row ρ] [LawfulRow ρ], P ρ) :
    EveryRow P :=
  ⟨h _, h _, h _, h _, h _, h _, h _, h _, h _, h _, h _⟩

namespace Header

theorem length_encode (h : Header) : h.encode.length = size := by
  simp only [encode, List.length_append, Word.length_bytes, Version.length_encode,
    length_flatMap_of_const Word.length_bytes, Vector.length_toList]
  rfl

def fields (h : Header) : List UInt8 := h.encode.drop marker.length

theorem encode_eq (h : Header) : h.encode = marker ++ h.fields := by
  simp only [fields, encode, List.append_assoc, List.drop_left]

/-- What is stored behind the checksum of the native methods, where nothing is written back. -/
def unmarked (h : Header) : List UInt8 :=
  Word.bytes h.patchEntryOffset ++ (h.version.encode ++ (Word.bytes h.assemblyName ++
    (Word.bytes h.stringTableVersion ++ (h.starts.toList.flatMap Word.bytes ++
      (Word.bytes h.patchedMethodCount ++ h.paddings.toList.flatMap Word.bytes)))))

theorem fields_eq (h : Header) : h.fields = Word.bytes h.headerCrc ++ (Word.bytes h.assemblyCrc ++
    (Word.bytes h.flags ++ (Word.bytes h.nativeChecksum ++ h.unmarked))) := by
  simp only [fields, encode, List.append_assoc, List.drop_left, unmarked]

theorem reads_fields (h : Header) : readFields.Reads h.fields h := by
  simp only [fields, encode, List.append_assoc, List.drop_left]
  iterate 5 refine (reads_word _).bind ?_
  refine (Version.reads _).bind ?_
  iterate 2 refine (reads_word _).bind ?_
  refine (reads_words h.starts).bind ?_
  refine (reads_word _).bind ?_
  exact (reads_words h.paddings).bind_pure

theorem stores_fields : readFields.Stores fun h xs => xs = h.fields := by
  iterate 5
    refine stores_word.bind ?_
    rintro _ _ rfl
  refine Version.stores.bind ?_
  rintro _ _ rfl
  iterate 2
    refine stores_word.bind ?_
    rintro _ _ rfl
  refine (stores_words 16).bind ?_
  rintro _ _ rfl
  refine stores_word.bind ?_
  rintro _ _ rfl
  refine (stores_words 16).bind ?_
  rintro _ _ rfl
  refine stores_pure ?_
  simp only [fields, encode, List.append_assoc, List.append_nil, List.drop_left]

theorem takes_fields : readFields.Takes (size - marker.length) := by
  iterate 5 refine takes_word.bind (by decide) fun _ => ?_
  refine Version.takes.bind (by decide) fun _ => ?_
  iterate 2 refine takes_word.bind (by decide) fun _ => ?_
  refine (Takes.words 16).bind (by decide) fun _ => ?_
  refine takes_word.bind (by decide) fun _ => ?_
  refine (Takes.words 16).bind (by decide) fun _ => ?_
  exact takes_pure _

theorem fault_of_read {data : Bytes} {fault : Fault} (h : Header.read data = .error fault) :
    fault = .empty ∨ fault = .notSupported ∨ fault = .outOfBounds := by
  unfold read at h
  split at h
  · cases h
    exact .inl rfl
  split at h
  · cases h
    exact .inr (.inl rfl)
  split at h
  · cases h
    exact .inr (.inr rfl)
  next hsize =>
  have hmarker : marker.length ≤ size := by decide
  obtain ⟨header, hread⟩ := takes_fields.value_ok (show marker.length + (size - marker.length) ≤ data.size by omega)
  cases hread.symm.trans h

/-- A header is read just where it is stored, whatever the two bytes of the marker that are not checked. -/
theorem read_ok_iff {h : Header} {data : Bytes} : Header.read data = .ok h ↔
    size ≤ data.size ∧ (data.extract 0 signature.length).toList = signature ∧
      data.HoldsAt marker.length h.fields := by
  have hpos : 0 < marker.length := by decide
  have hmarker : marker.length < size := by decide
  unfold read
  constructor
  · intro hread
    split at hread
    · cases hread
    split at hread
    · cases hread
    next hsig =>
    split at hread
    · cases hread
    next hsize =>
    rw [not_or, ne_eq, Decidable.not_not] at hsig
    refine ⟨Nat.le_of_not_lt hsize, hsig.2, ?_⟩
    cases hrun : readFields data marker.length with
    | error fault stop =>
      simp only [Reader.value, outcome, hrun] at hread
      cases hread
    | ok h' stop =>
      simp only [Reader.value, outcome, hrun] at hread
      cases hread
      obtain ⟨_, rfl, hholds, -⟩ := stores_fields _ _ _ _ (Nat.le_of_not_lt hsig.1) hrun
      exact hholds
  · rintro ⟨hsize, hsig, hholds⟩
    rw [if_neg (by omega), if_neg (not_or.2 ⟨by omega, Decidable.not_not.2 hsig⟩), if_neg (by omega)]
    exact h.reads_fields.value hholds

theorem read_of_holdsAt {h : Header} {data : Bytes} (hd : data.HoldsAt 0 h.encode) :
    Header.read data = .ok h := by
  have hsize := hd.le_size
  rw [length_encode, Nat.zero_add] at hsize
  rw [encode_eq] at hd
  obtain ⟨hmarker, hfields⟩ := Bytes.holdsAt_append.1 hd
  have hprefix : signature <+: marker := List.take_prefix ..
  have hsig := (hmarker.initial hprefix).extract
  rw [Nat.zero_add] at hsig hfields
  exact read_ok_iff.2 ⟨hsize, by rw [hsig], hfields⟩

end Header

end CompactAssembly
