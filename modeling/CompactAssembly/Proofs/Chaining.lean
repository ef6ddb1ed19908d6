import CompactAssembly.Proofs.Detection
import CompactAssembly.Proofs.Planning

/-!
# Chained checksums

A checksum that is carried from piece to piece is the checksum of all pieces in one. So the checksum of the
native methods is that of one text (`walkText`), however the methods are grouped into plans (`slots_of_walk`),
and the checksum of a header is that of its bytes with zeros for the checksum itself.
-/

namespace CompactAssembly

/-- The methods of plans in order, each with the name of its class. -/
def walk (plans : List TypePlan) : List (String × MethodPlan) :=
  plans.flatMap fun plan => plan.methods.map fun m => (plan.className, m)

/-- What a method of a class adds to the text under the checksum. -/
def MethodPlan.walkText (assemblyName className : String) (m : MethodPlan) : String :=
  match m.native? with
  | some bound => assemblyName ++ className ++ bound.identifier
  | none => "NULL"

/-- The text under the checksum, as one piece. -/
def walkText (assemblyName : String) (plans : List TypePlan) : String :=
  String.join ((walk plans).map fun (className, m) => m.walkText assemblyName className)

theorem slots_of_walk (plans : List TypePlan) :
    slots plans = (walk plans).map fun (className, m) =>
      m.native?.map fun native => ⟨className, native.identifier⟩ := by
  rw [slots, walk, List.map_flatMap]
  simp only [List.map_map]
  rfl

theorem join_slotTexts (assemblyName className : String) (m : MethodPlan) :
    String.join (slotTexts assemblyName (m.native?.map fun native => ⟨className, native.identifier⟩)) =
      m.walkText assemblyName className := by
  unfold MethodPlan.walkText
  cases m.native? with
  | none => rfl
  | some native =>
    show String.join [assemblyName, className, native.identifier] = _
    simp only [String.join_cons, String.join_nil, String.append_assoc, String.append_empty]

theorem join_flatMap {α : Type} (f : α → List String) (xs : List α) :
    String.join (xs.flatMap f) = String.join (xs.map fun x => String.join (f x)) := by
  induction xs with
  | nil => rfl
  | cons x xs ih => rw [List.flatMap_cons, List.map_cons, String.join_append, String.join_cons, ih]

theorem nativeChecksum_eq_walkText (plans : List TypePlan) (assemblyName : String) :
    nativeChecksum plans assemblyName = Checksum.updateText 0 (walkText assemblyName plans) := by
  rw [nativeChecksum, foldl_updateText_eq_join, join_flatMap, slots_of_walk, List.map_map, walkText]
  simp only [Function.comp_def, join_slotTexts]

theorem nativeChecksum_congr {plans plans' : List TypePlan} (h : walk plans = walk plans') (assemblyName : String) :
    nativeChecksum plans assemblyName = nativeChecksum plans' assemblyName := by
  rw [nativeChecksum, nativeChecksum, slots_of_walk, slots_of_walk, h]

theorem Header.hashed_eq {image : Bytes} (h : size ≤ image.size) :
    hashed image = (Bytes.putField (image.extract 0 size) headerCrcOffset 0).toList := by
  have hsize : (image.extract 0 size).size = size := by
    rw [Array.size_extract]
    omega
  have hfield : headerCrcOffset + (Word.bytes (0 : UInt32)).length = assemblyCrcOffset := rfl
  have hput := Bytes.toList_extract_overwrite (image.extract 0 size) (Nat.zero_le headerCrcOffset)
    (show headerCrcOffset + (Word.bytes (0 : UInt32)).length ≤ size by decide) (Nat.le_of_eq hsize.symm)
  rw [hfield, Array.extract_extract, Array.extract_extract] at hput
  have hwhole : ∀ data : Bytes, data.size = size → data.extract 0 size = data := fun data hdata => by
    rw [← hdata, Array.extract_size]
  rw [hwhole _ (by rw [Bytes.size_overwrite, hsize])] at hput
  exact hput.symm

/-- A checksum that is carried on is the checksum of everything at once. Texts taken one after the other count as
the text they make up; the checksum of the native methods is that of one text, the same for all plans with these
methods in this order, whichever plan of their class they are in; and the checksum of a header is that of its
bytes with zeros for the checksum. -/
theorem chained_checksums_are_one :
    (∀ (texts : List String) (seed : UInt32),
      texts.foldl Checksum.updateText seed = Checksum.ofBytes (String.join texts).toUTF8.data seed) ∧
    (∀ (plans : List TypePlan) (assemblyName : String),
      nativeChecksum plans assemblyName = Checksum.ofBytes (walkText assemblyName plans).toUTF8.data 0) ∧
    (∀ (plans plans' : List TypePlan), walk plans = walk plans' → ∀ assemblyName,
      nativeChecksum plans assemblyName = nativeChecksum plans' assemblyName) ∧
    ∀ image : Bytes, Header.size ≤ image.size → headerChecksum image =
      .ok (Checksum.ofBytes (Bytes.putField (image.extract 0 Header.size) Header.headerCrcOffset 0) 0) := by
  refine ⟨fun texts => foldl_updateText_eq_join texts, nativeChecksum_eq_walkText, fun _ _ => nativeChecksum_congr,
    fun image hsize => ?_⟩
  rw [headerChecksum_eq hsize, Header.hashed_eq hsize, Checksum.ofBytes_eq_update]

def lampPlan (methods : List MethodPlan) : TypePlan where
  index := 0
  record := ⟨0, noReference, noReference, noReference, ⟨0⟩, noReference, 0, 0, 0, 2, 0, 0, 0, 0, 0⟩
  className := "Lamp"
  methods

def lampOn : MethodPlan where
  record := ⟨0, noReference, ⟨MethodFlags.static⟩, 0, 0, 0, 0, noReference, 0⟩
  native? := some ⟨"On___STATIC__VOID", ⟨false, .primitive .void, []⟩⟩

def lampOff : MethodPlan where
  record := ⟨0, 0, ⟨MethodFlags.static⟩, 0, 0, 0, 0, noReference, 0⟩
  native? := none

theorem chained_checksums_are_one_lamp :
    walk [lampPlan [lampOn, lampOff]] = walk [lampPlan [lampOn], lampPlan [], lampPlan [lampOff]] ∧
      nativeChecksum [lampPlan [lampOn, lampOff]] "Home" =
        nativeChecksum [lampPlan [lampOn], lampPlan [], lampPlan [lampOff]] "Home" ∧
      nativeChecksum [lampPlan [lampOn, lampOff]] "Home" =
        Checksum.ofBytes "HomeLampOn___STATIC__VOIDNULL".toUTF8.data 0 ∧
      headerChecksum (Array.replicate 200 1) = .ok (Checksum.ofBytes
        (Array.replicate 8 1 ++ Array.replicate 4 0 ++ Array.replicate 112 1) 0) := by
  obtain ⟨-, hone, hregrouped, hheader⟩ := chained_checksums_are_one
  have htext : walkText "Home" [lampPlan [lampOn, lampOff]] = "HomeLampOn___STATIC__VOIDNULL" := by decide +kernel
  refine ⟨rfl, hregrouped _ _ rfl "Home", ?_, ?_⟩
  · rw [hone, htext]
  · rw [hheader _ (by rw [Array.size_replicate]; decide)]
    have hbytes : Bytes.putField ((Array.replicate 200 1).extract 0 Header.size) Header.headerCrcOffset 0 =
        Array.replicate 8 1 ++ Array.replicate 4 0 ++ Array.replicate 112 1 := by decide +kernel
    rw [hbytes]

end CompactAssembly
