import CompactAssembly.Proofs.Acceptance
import CompactAssembly.Proofs.Lookup

/-!
# Owners in images with more types than sixteen bits name

Whatever the ranges of an image are, a member that some type holds has an owner, and the owner is the last such
type as far as sixteen bits tell it (`Image.OwnedByLast`). Nothing bounds the table of types but the extents, so
an image can have types behind the last one that sixteen bits tell apart, and a member of such a type is given to
one that does not hold it (`Draft.owner_wraps_overfull`).
-/

namespace CompactAssembly

namespace Image
variable {image : Image} {holds : TypeDef → Prop} {types : List TypeDef} {owner? : Option UInt16} {i j : Nat}

/-- Of the types that hold something, this one is the last. -/
def LastHolding (image : Image) (holds : TypeDef → Prop) (index : Nat) : Prop :=
  ∃ t, image.get TypeDef index = .ok t ∧ holds t ∧
    ∀ j t', index < j → image.get TypeDef j = .ok t' → ¬ holds t'

theorem LastHolding.unique (h : image.LastHolding holds i) (h' : image.LastHolding holds j) : i = j := by
  obtain ⟨t, ht, hholds, hlast⟩ := h
  obtain ⟨t', ht', hholds', hlast'⟩ := h'
  rcases Nat.lt_trichotomy i j with hlt | heq | hlt
  · exact absurd hholds' (hlast j t' hlt ht')
  · exact heq
  · exact absurd hholds (hlast' i t hlt ht)

theorem LastHolding.lt_typeCount (h : image.LastHolding holds i) : i < image.typeCount := by
  obtain ⟨t, ht, -⟩ := h
  exact Image.lt_typeCount ht

/-- A member has an owner exactly if some type holds it. The owner is the last of these types: its index in sixteen
bits, and the index itself if these tell all types of the image apart. -/
structure OwnedByLast (image : Image) (holds : TypeDef → Prop) (owner? : Option UInt16) : Prop where
  isSome : owner?.isSome ↔ ∃ i t, image.get TypeDef i = .ok t ∧ holds t
  wraps : ∀ owner, owner? = some owner ↔ ∃ index, image.LastHolding holds index ∧ owner = UInt16.ofNat index
  names : image.typeCount ≤ 0x10000 → ∀ owner, owner? = some owner ↔ image.LastHolding holds owner.toNat

theorem get_iff_of_records (h : image.records TypeDef = .ok types) {t : TypeDef} :
    image.get TypeDef i = .ok t ↔ types[i]? = some t := by
  obtain ⟨hlen, hget⟩ := mapM_range_eq_ok.1 h
  rw [List.getElem?_eq_some_iff]
  constructor
  · intro ht
    have hi : i < types.length := hlen ▸ Image.lt_typeCount ht
    exact ⟨hi, Except.ok.inj ((hget i hi).symm.trans ht)⟩
  · rintro ⟨hi, rfl⟩
    exact hget i hi

theorem not_holds_of_none (hrecords : image.records TypeDef = .ok types) (h : LastOwner holds types none) {t : TypeDef}
    (ht : image.get TypeDef i = .ok t) : ¬ holds t :=
  h t (List.mem_of_getElem? ((get_iff_of_records hrecords).1 ht))

theorem exists_lastHolding (hrecords : image.records TypeDef = .ok types) {owner : UInt16}
    (h : LastOwner holds types (some owner)) :
    ∃ index, image.LastHolding holds index ∧ owner = UInt16.ofNat index := by
  obtain ⟨earlier, t, later, rfl, hholds, hlater, howner⟩ := h
  refine ⟨earlier.length, ⟨t, ?_, hholds, fun j t' hj ht' => ?_⟩, howner⟩
  · rw [get_iff_of_records hrecords, List.getElem?_append_right (Nat.le_refl _), Nat.sub_self,
      List.getElem?_cons_zero]
  · obtain ⟨k, rfl⟩ := Nat.exists_eq_add_of_lt hj
    rw [get_iff_of_records hrecords, List.getElem?_append_right (by omega)] at ht'
    refine hlater t' (List.mem_of_getElem? (i := k) ?_)
    rwa [show earlier.length + k + 1 - earlier.length = k + 1 by omega, List.getElem?_cons_succ] at ht'

theorem ownedByLast (hrecords : image.records TypeDef = .ok types) (h : LastOwner holds types owner?) :
    image.OwnedByLast holds owner? := by
  have hwraps : ∀ owner, owner? = some owner ↔
      ∃ index, image.LastHolding holds index ∧ owner = UInt16.ofNat index := by
    intro owner
    constructor
    · rintro rfl
      exact exists_lastHolding hrecords h
    · rintro ⟨index, hlast, rfl⟩
      cases owner? with
      | none =>
        obtain ⟨t, ht, hholds, -⟩ := hlast
        exact absurd hholds (not_holds_of_none hrecords h ht)
      | some owner =>
        obtain ⟨index', hlast', rfl⟩ := exists_lastHolding hrecords h
        rw [hlast.unique hlast']
  refine ⟨?_, hwraps, fun hfew owner => ?_⟩
  · cases owner? with
    | none =>
      refine iff_of_false nofun ?_
      rintro ⟨i, t, ht, hholds⟩
      exact not_holds_of_none hrecords h ht hholds
    | some owner =>
      obtain ⟨index, ⟨t, ht, hholds, -⟩, -⟩ := exists_lastHolding hrecords h
      exact iff_of_true rfl ⟨index, t, ht, hholds⟩
  · rw [hwraps]
    constructor
    · rintro ⟨index, hlast, rfl⟩
      rwa [UInt16.toNat_ofNat_of_lt' (Nat.lt_of_lt_of_le hlast.lt_typeCount hfew)]
    · intro hlast
      exact ⟨owner.toNat, hlast, UInt16.ofNat_toNat.symm⟩

end Image

namespace Assembly
variable {layout : BaseLayout} {data : Bytes} {a : Assembly}

theorem ownedByLast_method (h : Assembly.load layout data = .ok a) (method : Nat) :
    a.OwnedByLast (method ∈ ·.methods) (a.methodOwner? method) := by
  obtain ⟨types, hrecords, hlast⟩ := Image.resolveOwners_last (load_ok h).2.1
  exact Image.ownedByLast hrecords (hlast.methods method)

theorem ownedByLast_field (h : Assembly.load layout data = .ok a) (field : Nat) :
    a.OwnedByLast (fun t => field ∈ t.staticFields ∨ field ∈ t.instanceFields) (a.fieldOwner? field) := by
  obtain ⟨types, hrecords, hlast⟩ := Image.resolveOwners_last (load_ok h).2.1
  exact Image.ownedByLast hrecords (hlast.fields field)

/-- In every image that loads, a member has an owner exactly if some type holds it. The owner is the index of the
last such type, in sixteen bits: the type itself wherever there are no more types than these tell apart. -/
theorem owners_of_load (h : Assembly.load layout data = .ok a) :
    (∀ method, a.OwnedByLast (method ∈ ·.methods) (a.methodOwner? method)) ∧
      ∀ field, a.OwnedByLast (fun t => field ∈ t.staticFields ∨ field ∈ t.instanceFields) (a.fieldOwner? field) :=
  ⟨ownedByLast_method h, ownedByLast_field h⟩

theorem owners_of_load_home :
    Assembly.load .bare Draft.homeImage = .ok Draft.home ∧ Draft.home.methodOwner? 1 = some 0 ∧
      Draft.home.LastHolding (1 ∈ ·.methods) 0 := by
  have howner : Draft.home.methodOwner? 1 = some 0 := by decide
  have hfew : Draft.home.typeCount ≤ 0x10000 := by decide +kernel
  have howned := (owners_of_load Draft.load_home).1 1
  exact ⟨Draft.load_home, howner, (howned.names hfew 0).1 howner⟩

end Assembly

/-! ### A type that sixteen bits cannot name -/

namespace Draft

def emptyType : TypeDef := ⟨0xFFFF, 0xFFFF, 0xFFFF, 0xFFFF, ⟨0⟩, 0xFFFF, 0, 0, 0, 0, 17, 0, 0, 0, 0⟩

/-- A type with one static method, the first of all. -/
def soleType : TypeDef := { emptyType with staticMethodCount := 1 }

def soleMethod : MethodDef := ⟨0xFFFF, 0xFFFF, ⟨16⟩, 0, 0, 0, 0, 0xFFFF, 0xFFFF⟩

/-- So many types without members, and one more, which has the only method. -/
def manyTypes (n : Nat) : Array TypeDef := (Array.replicate n emptyType).push soleType

def overfull (n : Nat) : Draft :=
  { Draft.named "" .zero with typeDefs := manyTypes n, methodDefs := #[soleMethod] }

def overfullHeader (n : Nat) : Header := (overfull n).headerFor noReference ((overfull n).regions.map Array.size)

def overfullImage (n : Nat) : Bytes := (overfull n).unsealed noReference

section
variable {n i : Nat}

theorem size_manyTypes (n : Nat) : (manyTypes n).size = n + 1 := by
  rw [manyTypes, Array.size_push, Array.size_replicate]

theorem getElem_manyTypes (hi : i < (manyTypes n).size) :
    (manyTypes n)[i] = if i < n then emptyType else soleType := by
  simp only [manyTypes, Array.getElem_push, Array.size_replicate, Array.getElem_replicate, dite_eq_ite]

theorem within_manyTypes : (if i < n then emptyType else soleType).Within 1 0 := by
  split <;> exact TypeDef.within_of_stop_le (by decide) (by decide) (by decide)

theorem size_body_overfull (n : Nat) : (overfull n).body.size ≤ 16 * ((n + 1) * 24 + 3) := by
  rw [body, ← Array.length_toList, toList_layRegions]
  refine length_flatMap_padded_le fun kind _ => ?_
  cases kind with
  | typeDef =>
    show (encodeRows (manyTypes n)).size ≤ _
    rw [size_encodeRows, size_manyTypes]
    exact Nat.le_refl _
  | methodDef =>
    show (encodeRows #[soleMethod]).size ≤ _
    rw [size_encodeRows]
    exact Nat.le_trans (show 1 * Row.size MethodDef ≤ 24 by decide) (by omega)
  | _ => exact Nat.zero_le _

variable (hn : n ≤ 0x10000)
include hn

theorem laid_overfull : (overfull n).Laid (overfullHeader n) (overfullImage n) := by
  have hbody := size_body_overfull n
  have hheader : Header.size ≤ 256 := by decide
  exact (overfull n).laid_unsealed (by omega) noReference

theorem stores_typeDefs_overfull : (overfullHeader n).Stores (overfullImage n) (manyTypes n) :=
  (laid_overfull hn).stores rfl

theorem typeCount_overfull : (Image.view (overfullImage n) (overfullHeader n)).typeCount = n + 1 :=
  (stores_typeDefs_overfull hn).count_view.trans (size_manyTypes n)

theorem methodCount_overfull : (Image.view (overfullImage n) (overfullHeader n)).methodCount = 1 := by
  have hstored : (overfullHeader n).Stores (overfullImage n) #[soleMethod] := (laid_overfull hn).stores rfl
  exact hstored.count_view

theorem fieldCount_overfull : (Image.view (overfullImage n) (overfullHeader n)).fieldCount = 0 := by
  have hstored : (overfullHeader n).Stores (overfullImage n) (#[] : Array FieldDef) := (laid_overfull hn).stores rfl
  exact hstored.count_view

theorem get_overfull (hi : i < n + 1) :
    (Image.view (overfullImage n) (overfullHeader n)).get TypeDef i =
      .ok (if i < n then emptyType else soleType) := by
  have hsize : i < (manyTypes n).size := size_manyTypes n ▸ hi
  rw [(stores_typeDefs_overfull hn).get_view hsize, getElem_manyTypes]

theorem acceptable_overfull : (Image.view (overfullImage n) (overfullHeader n)).Acceptable .bare where
  extents := (laid_overfull hn).extents
  types i hi := by
    rw [typeCount_overfull hn] at hi
    rw [methodCount_overfull hn, fieldCount_overfull hn]
    have ht := get_overfull hn hi
    have hroot : (if i < n then emptyType else soleType).base? = none := by split <;> rfl
    have hcount : (if i < n then emptyType else soleType).instanceFieldCount = 0 := by split <;> rfl
    have hancestry := Image.Ancestry.root ht fun b hb => nomatch hroot.symm.trans hb
    refine ⟨_, ht, within_manyTypes, [], _, hancestry, fun p hp => ?_⟩
    rw [hcount] at hp
    cases hp

theorem load_overfull : ∃ a, Assembly.load .bare (overfullImage n) = .ok a := by
  refine Assembly.load_of_bases_first (laid_overfull hn).read (acceptable_overfull hn) ?_
  rintro i j ⟨t, b, ht, hb, -⟩
  have hi : i < n + 1 := typeCount_overfull hn ▸ Image.lt_typeCount ht
  cases (get_overfull hn hi).symm.trans ht
  split at hb <;> cases hb

theorem lastHolding_overfull : (Image.view (overfullImage n) (overfullHeader n)).LastHolding (0 ∈ ·.methods) n := by
  refine ⟨soleType, ?_, by decide, fun j t' hj ht' => ?_⟩
  · rw [get_overfull hn (Nat.lt_succ_self n), if_neg (Nat.lt_irrefl n)]
  · have := Image.lt_typeCount ht'
    rw [typeCount_overfull hn] at this
    omega

end

/-- The only method of this image is held by its last type alone, and given to the first. -/
theorem owner_wraps_overfull :
    ∃ a, Assembly.load .bare (overfullImage 0x10000) = .ok a ∧ a.LastHolding (0 ∈ ·.methods) 0x10000 ∧
      a.methodOwner? 0 = some 0 ∧ ¬ a.LastHolding (0 ∈ ·.methods) 0 := by
  obtain ⟨a, hload⟩ := load_overfull (n := 0x10000) (Nat.le_refl _)
  have hlast := lastHolding_overfull (n := 0x10000) (Nat.le_refl _)
  have himage : Image.ofBytes (overfullImage 0x10000) = .ok _ := (laid_overfull (Nat.le_refl _)).ofBytes
  rw [← Except.ok.inj ((Assembly.load_ok hload).1.symm.trans himage)] at hlast
  refine ⟨a, hload, hlast, ?_, fun hfirst => absurd (hlast.unique hfirst) (by decide)⟩
  exact ((Assembly.ownedByLast_method hload 0).wraps 0).2 ⟨0x10000, hlast, rfl⟩

end Draft

end CompactAssembly
