import CompactAssembly.Image.Assembly
import CompactAssembly.Proofs.RowCodec
import CompactAssembly.Proofs.Traversal
import Mathlib.Data.List.Nodup

/-!
# The owner of a member is the last type that holds it

`LastOwner holds types owner?`: of the types that hold a member, `owner?` is the last one's index. Giving
the ranges of one more type to it keeps this (`LastOwner.snoc`), so it holds of the owners of every image
(`resolveOwners_last`).
-/

namespace CompactAssembly

instance (i : Nat) (range : IndexRange) : Decidable (i ∈ range) :=
  inferInstanceAs (Decidable (_ ∧ _))

namespace Owners
variable {owners owners' : Owners} {range : IndexRange} {owner : UInt16}

theorem owner?_foldl (members : List Nat) (owners : Owners) (owner : UInt16)
    (h : ∀ member ∈ members, member < owners.size) (member : Nat) :
    owner? (members.foldl (fun owners member => owners.setIfInBounds member (some owner)) owners) member =
      if member ∈ members then some owner else owners.owner? member := by
  induction members generalizing owners with
  | nil => rfl
  | cons first members ih =>
    rw [List.foldl_cons, ih _ fun m hm => by
      rw [Array.size_setIfInBounds]
      exact h m (List.mem_cons_of_mem _ hm)]
    have hfirst := h first List.mem_cons_self
    by_cases hm : member ∈ members
    · rw [if_pos hm, if_pos (List.mem_cons_of_mem _ hm)]
    · rw [if_neg hm, owner?, Array.getElem?_setIfInBounds]
      by_cases he : first = member
      · subst he
        rw [if_pos rfl, if_pos hfirst, if_pos List.mem_cons_self]
        rfl
      · rw [if_neg he, if_neg (by simp [hm, Ne.symm he])]
        rfl

theorem size_foldl (members : List Nat) (owners : Owners) (owner : UInt16) :
    (members.foldl (fun owners member => owners.setIfInBounds member (some owner)) owners).size =
      owners.size := by
  induction members generalizing owners with
  | nil => rfl
  | cons first members ih => rw [List.foldl_cons, ih, Array.size_setIfInBounds]

theorem assign_ok (h : owners.assign range owner = .ok owners') :
    owners'.size = owners.size ∧
      ∀ member, owners'.owner? member = if member ∈ range then some owner else owners.owner? member := by
  unfold assign at h
  split at h
  · next hrange =>
    cases h
    refine ⟨size_foldl .., fun member => ?_⟩
    rw [owner?_foldl _ _ _ fun m hm => ?_]
    · simp only [IndexRange.mem_toList]
    · obtain ⟨hlow, hhigh⟩ := IndexRange.mem_toList.1 hm
      simp only [IndexRange.stop] at hhigh hrange
      omega
  · cases h

end Owners

/-- Of the types that hold a member, the owner is the last one. -/
def LastOwner (holds : TypeDef → Prop) (types : List TypeDef) : Option UInt16 → Prop
  | none => ∀ t ∈ types, ¬ holds t
  | some owner => ∃ earlier t later, types = earlier ++ t :: later ∧ holds t ∧
      (∀ t' ∈ later, ¬ holds t') ∧ owner = UInt16.ofNat earlier.length

namespace LastOwner
variable {holds : TypeDef → Prop} {types : List TypeDef} {owner? : Option UInt16}

theorem nil : LastOwner holds [] none := nofun

theorem snoc (h : LastOwner holds types owner?) (t : TypeDef) [Decidable (holds t)] :
    LastOwner holds (types ++ [t]) (if holds t then some (UInt16.ofNat types.length) else owner?) := by
  by_cases ht : holds t
  · rw [if_pos ht]
    exact ⟨types, t, [], rfl, ht, nofun, rfl⟩
  · rw [if_neg ht]
    cases owner? with
    | none =>
      intro t' ht'
      rcases List.mem_append.1 ht' with ht' | ht'
      · exact h t' ht'
      · exact List.mem_singleton.1 ht' ▸ ht
    | some owner =>
      obtain ⟨earlier, t₀, later, rfl, hholds, hlater, howner⟩ := h
      refine ⟨earlier, t₀, later ++ [t], by simp, hholds, fun t' ht' => ?_, howner⟩
      rcases List.mem_append.1 ht' with ht' | ht'
      · exact hlater t' ht'
      · exact List.mem_singleton.1 ht' ▸ ht

/-- Where no two types hold the same member, the owner is the type that holds it. -/
theorem eq_of_nodup {f : TypeDef → List Nat} {member index : Nat} {t : TypeDef}
    (h : LastOwner holds types owner?) (hf : ∀ t, holds t → member ∈ f t)
    (hd : (types.flatMap f).Nodup) (ht : types[index]? = some t) (hholds : holds t) :
    owner? = some (UInt16.ofNat index) := by
  obtain ⟨hlt, rfl⟩ := List.getElem?_eq_some_iff.1 ht
  cases owner? with
  | none => exact absurd hholds (h _ (List.getElem_mem hlt))
  | some owner =>
    obtain ⟨earlier, t₀, later, rfl, hholds₀, -, rfl⟩ := h
    have hmid : (earlier ++ t₀ :: later)[earlier.length]? = some t₀ := by
      rw [List.getElem?_append_right (Nat.le_refl _), Nat.sub_self, List.getElem?_cons_zero]
    obtain ⟨hlt₀, hget₀⟩ := List.getElem?_eq_some_iff.1 hmid
    have hmem₀ : member ∈ f (earlier ++ t₀ :: later)[earlier.length] := by
      rw [hget₀]
      exact hf _ hholds₀
    have hpair := List.pairwise_iff_getElem.1 (List.nodup_flatMap.1 hd).2
    rcases Nat.lt_trichotomy index earlier.length with hlt' | rfl | hlt'
    · exact absurd hmem₀ (hpair _ _ hlt hlt₀ hlt' (hf _ hholds))
    · rfl
    · exact absurd (hf _ hholds) (hpair _ _ hlt₀ hlt hlt' hmem₀)

end LastOwner

namespace Image
variable {image : Image} {owners owners' : MemberOwners}

/-- The owners of all members after these types. -/
structure MemberOwners.Last (types : List TypeDef) (owners : MemberOwners) : Prop where
  methods : ∀ method, LastOwner (method ∈ ·.methods) types (owners.methods.owner? method)
  fields : ∀ field, LastOwner (fun t => field ∈ t.staticFields ∨ field ∈ t.instanceFields) types
    (owners.fields.owner? field)

theorem MemberOwners.Last.claim {types : List TypeDef} {t : TypeDef} (h : owners.Last types)
    (hc : owners.claim types.length t = .ok owners') : owners'.Last (types ++ [t]) := by
  unfold MemberOwners.claim at hc
  obtain ⟨statics, hstatics, hc⟩ := bind_eq_ok.1 hc
  obtain ⟨fields, hfields, hc⟩ := bind_eq_ok.1 hc
  obtain ⟨methods, hmethods, hc⟩ := bind_eq_ok.1 hc
  cases hc
  constructor
  · intro method
    rw [(Owners.assign_ok hmethods).2]
    exact (h.methods method).snoc t
  · intro field
    have heither : (if field ∈ t.instanceFields then some (UInt16.ofNat types.length)
        else if field ∈ t.staticFields then some (UInt16.ofNat types.length)
        else owners.fields.owner? field) =
        if field ∈ t.staticFields ∨ field ∈ t.instanceFields then some (UInt16.ofNat types.length)
        else owners.fields.owner? field := by
      by_cases hi : field ∈ t.instanceFields
      · rw [if_pos hi, if_pos (.inr hi)]
      · simp only [hi, ↓reduceIte, or_false]
    rw [(Owners.assign_ok hfields).2, (Owners.assign_ok hstatics).2, heither]
    exact (h.fields field).snoc t

theorem zipIdx_split {types : List TypeDef} {earlier later : List (TypeDef × Nat)} {t : TypeDef} {index : Nat}
    (h : types.zipIdx = earlier ++ (t, index) :: later) : index = earlier.length := by
  have hget := congrArg (·[earlier.length]?) h
  simp only [List.getElem?_zipIdx, List.getElem?_append_right (Nat.le_refl _), Nat.sub_self,
    List.getElem?_cons_zero, Option.map_eq_some_iff, Prod.mk.injEq, Nat.zero_add] at hget
  obtain ⟨_, -, -, hindex⟩ := hget
  exact hindex.symm

/-- In every image whose owners resolve, a member belongs to the last type that holds it. -/
theorem resolveOwners_last (h : image.resolveOwners = .ok owners) :
    ∃ types, image.records TypeDef = .ok types ∧ owners.Last types := by
  unfold resolveOwners at h
  obtain ⟨types, htypes, h⟩ := bind_eq_ok.1 h
  refine ⟨types, htypes, ?_⟩
  have hlast : owners.Last (types.zipIdx.map Prod.fst) := by
    refine foldlM_keeps (P := fun earlier owners => owners.Last (earlier.map Prod.fst)) ?_ ?_ h
    · rintro earlier ⟨t, index⟩ later owners owners' hxs hl hc
      obtain rfl := zipIdx_split hxs
      have hlen : earlier.length = (earlier.map Prod.fst).length := (List.length_map _).symm
      rw [hlen] at hc
      rw [List.map_append]
      exact hl.claim hc
    · have hnone : ∀ count member, Owners.owner? (Array.replicate count none) member = none := by
        intro count member
        rw [Owners.owner?, Array.getElem?_replicate]
        split <;> rfl
      constructor
      · intro method
        rw [hnone]
        exact LastOwner.nil
      · intro field
        rw [hnone]
        exact LastOwner.nil
  rwa [List.zipIdx_map_fst] at hlast

theorem resolveOwners_congr {image' : Image} (hcount : image'.count = image.count)
    (hget : image'.get TypeDef = image.get TypeDef) : image'.resolveOwners = image.resolveOwners := by
  simp only [resolveOwners, records, fieldCount, methodCount, hcount, hget]

end Image

namespace Assembly
variable {layout : BaseLayout}

theorem load_ok {data : Bytes} {a : Assembly} (h : Assembly.load layout data = .ok a) :
    Image.ofBytes data = .ok a.toImage ∧ a.resolveOwners = .ok a.owners ∧
      a.resolveOffsets layout = .ok a.fieldOffsets := by
  unfold load at h
  obtain ⟨image, himage, h⟩ := bind_eq_ok.1 h
  obtain ⟨owners, howners, h⟩ := bind_eq_ok.1 h
  obtain ⟨offsets, hoffsets, h⟩ := bind_eq_ok.1 h
  cases h
  exact ⟨himage, howners, hoffsets⟩

theorem load_of {data : Bytes} {a : Assembly} (himage : Image.ofBytes data = .ok a.toImage)
    (howners : a.resolveOwners = .ok a.owners) (hoffsets : a.resolveOffsets layout = .ok a.fieldOffsets) :
    Assembly.load layout data = .ok a := by
  simp only [load, himage, howners, hoffsets, bind, Except.bind, pure, Except.pure]

theorem load_encode {image : Bytes} {header : Header} {body : List UInt8} {owners : Image.MemberOwners}
    {offsets : FieldOffsets} (himage : image.toList = header.encode ++ body)
    (hextents : header.checkExtents image.size = .ok ())
    (howners : (Image.view image header).resolveOwners = .ok owners)
    (hoffsets : (Image.view image header).resolveOffsets layout = .ok offsets) :
    Assembly.load layout image = .ok ⟨Image.view image header, owners, offsets⟩ := by
  have hread : Header.read image = .ok header := Header.read_of_holdsAt ⟨[], body, himage, rfl⟩
  refine load_of ?_ howners hoffsets
  simp only [Image.ofBytes, hread, hextents, bind, Except.bind, pure, Except.pure]

end Assembly

end CompactAssembly
