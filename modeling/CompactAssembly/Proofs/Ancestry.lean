import CompactAssembly.Proofs.Ownership
import Mathlib.Algebra.Order.Ring.Nat
import Mathlib.Logic.Relation

/-!
# Base types and field totals

`Image.Ancestry i ancestors root`: from type `i` the links to base types lead through exactly these types
to one without a base here. Where an ancestry exists it is the only one and repeats no type. Its total is
counted without bound (`inheritedFields`); a table holds the word of it. A table of totals is `Tallied` if each
total in it is that of the ancestry, and if with a type it has the type's base. The walk that totals a type
(`Totals`) keeps this and adds no more than it must (`Totals.least`), so that a fuller table never makes it fail
(`Totals.fuller`).
-/

namespace CompactAssembly

def FieldTotals.at? (totals : FieldTotals) (index : Nat) : Option UInt64 := totals[index]?.join

namespace FieldTotals
variable {totals totals' : FieldTotals} {i index : Nat} {total : UInt64}

theorem at?_set (h : index < totals.size) :
    at? (totals.setIfInBounds index (some total)) i = if index = i then some total else totals.at? i := by
  rw [at?, Array.getElem?_setIfInBounds, if_pos h]
  split <;> rfl

theorem at?_replicate (count i : Nat) : at? (Array.replicate count none) i = none := by
  rw [at?, Array.getElem?_replicate]
  split <;> rfl

/-- Every type that is totalled here is totalled there. -/
def Below (totals totals' : FieldTotals) : Prop := ∀ i, (totals.at? i).isSome → (totals'.at? i).isSome

theorem Below.set (h : totals.Below totals') (hsize : totals.size = totals'.size)
    (hindex : index < totals.size) {total' : UInt64} :
    Below (totals.setIfInBounds index (some total)) (totals'.setIfInBounds index (some total')) := by
  intro i hi
  rw [at?_set hindex] at hi
  rw [at?_set (hsize ▸ hindex)]
  split
  · rfl
  · next hne => exact h i (by rwa [if_neg hne] at hi)

end FieldTotals

def TypeDef.root? (t : TypeDef) : Option UInt16 :=
  match t.base? with
  | some (.typeRef r) => some r
  | _ => none

namespace Image
variable {image : Image} {layout : BaseLayout}

/-- The types that a type extends here, nearest first, and the referenced type that the last one
extends. -/
inductive Ancestry (image : Image) : Nat → List (Nat × TypeDef) → Option UInt16 → Prop
  | root {i : Nat} {t : TypeDef} (ht : image.get TypeDef i = .ok t) (hb : ∀ b, t.base? ≠ some (.own b)) :
    Ancestry image i [] t.root?
  | own {i : Nat} {t base : TypeDef} {b : UInt16} {ancestors : List (Nat × TypeDef)} {root : Option UInt16}
    (ht : image.get TypeDef i = .ok t) (hb : t.base? = some (.own b))
    (hbase : image.get TypeDef b.toNat = .ok base) (h : Ancestry image b.toNat ancestors root) :
    Ancestry image i ((b.toNat, base) :: ancestors) root

def Extends (image : Image) (i j : Nat) : Prop :=
  ∃ t b, image.get TypeDef i = .ok t ∧ t.base? = some (.own b) ∧ b.toNat = j

namespace Ancestry
variable {i j : Nat} {ancestors ancestors' : List (Nat × TypeDef)} {root root' : Option UInt16}

theorem unique (h : image.Ancestry i ancestors root) (h' : image.Ancestry i ancestors' root') :
    ancestors = ancestors' ∧ root = root' := by
  induction h generalizing ancestors' root' with
  | root ht hb =>
    cases h' with
    | root ht' hb' =>
      cases ht.symm.trans ht'
      exact ⟨rfl, rfl⟩
    | own ht' hb' =>
      cases ht.symm.trans ht'
      exact absurd hb' (hb _)
  | own ht hb hbase _ ih =>
    cases h' with
    | root ht' hb' =>
      cases ht.symm.trans ht'
      exact absurd hb (hb' _)
    | own ht' hb' hbase' h' =>
      cases ht.symm.trans ht'
      cases hb.symm.trans hb'
      cases hbase.symm.trans hbase'
      obtain ⟨rfl, rfl⟩ := ih h'
      exact ⟨rfl, rfl⟩

theorem of_extends (h : image.Ancestry i ancestors root) (he : image.Extends i j) :
    ∃ base rest, ancestors = (j, base) :: rest ∧ image.Ancestry j rest root := by
  obtain ⟨t, b, ht, hb, rfl⟩ := he
  cases h with
  | root ht' hb' =>
    cases ht.symm.trans ht'
    exact absurd hb (hb' _)
  | own ht' hb' hbase' h' =>
    cases ht.symm.trans ht'
    cases hb.symm.trans hb'
    exact ⟨_, _, rfl, h'⟩

theorem of_mem (h : image.Ancestry i ancestors root) {t : TypeDef} (hj : (j, t) ∈ ancestors) :
    ∃ earlier rest, ancestors = earlier ++ (j, t) :: rest ∧ image.Ancestry j rest root := by
  induction h with
  | root => cases hj
  | @own _ _ base b rest _ _ _ _ h ih =>
    rcases List.mem_cons.1 hj with hj | hj
    · cases hj
      exact ⟨[], rest, rfl, h⟩
    · obtain ⟨earlier, rest, rfl, hrest⟩ := ih hj
      exact ⟨(b.toNat, base) :: earlier, rest, rfl, hrest⟩

theorem not_mem (h : image.Ancestry i ancestors root) : i ∉ ancestors.map Prod.fst := by
  intro hi
  obtain ⟨⟨_, t⟩, ht, rfl⟩ := List.mem_map.1 hi
  obtain ⟨earlier, rest, hsplit, hrest⟩ := h.of_mem ht
  obtain ⟨hsame, -⟩ := h.unique hrest
  have hlen := congrArg List.length (hsame.symm.trans hsplit)
  rw [List.length_append, List.length_cons] at hlen
  omega

theorem nodup (h : image.Ancestry i ancestors root) : (i :: ancestors.map Prod.fst).Nodup := by
  refine List.nodup_cons.2 ⟨h.not_mem, ?_⟩
  induction h with
  | root => exact List.nodup_nil
  | own _ _ _ h ih => exact List.nodup_cons.2 ⟨h.not_mem, ih⟩

theorem acyclic (h : image.Ancestry i ancestors root) : ¬ Relation.TransGen image.Extends i i := by
  have hreach : ∀ j, Relation.TransGen image.Extends i j → ∃ t, (j, t) ∈ ancestors := by
    intro j hj
    induction hj with
    | single he =>
      obtain ⟨t, rest, rfl, -⟩ := h.of_extends he
      exact ⟨t, List.mem_cons_self⟩
    | tail _ he ih =>
      obtain ⟨t, ht⟩ := ih
      obtain ⟨earlier, rest, rfl, hrest⟩ := h.of_mem ht
      obtain ⟨t', rest', rfl, -⟩ := hrest.of_extends he
      exact ⟨t', by simp⟩
  intro hcycle
  obtain ⟨t, ht⟩ := hreach i hcycle
  exact h.not_mem (List.mem_map.2 ⟨_, ht, rfl⟩)

end Ancestry

theorem lt_typeCount {i : Nat} {t : TypeDef} (h : image.get TypeDef i = .ok t) : i < image.typeCount := by
  obtain ⟨offset, hoffset, -⟩ := bind_eq_ok.1 h
  unfold recordOffset at hoffset
  split at hoffset
  · cases hoffset
  · split at hoffset
    · next hi => exact hi
    · cases hoffset

/-- Number of instance fields below those of a type. -/
def inheritedFields (layout : BaseLayout) (ancestors : List (Nat × TypeDef)) (root : Option UInt16) : Nat :=
  (root.map fun r => (layout r).toNat).getD 0 +
    (ancestors.map fun ancestor => ancestor.2.instanceFieldCount.toNat).sum

theorem inheritedFields_nil (root : Option UInt16) :
    inheritedFields layout [] root = (root.map fun r => (layout r).toNat).getD 0 := rfl

theorem inheritedFields_cons (ancestor : Nat × TypeDef) (ancestors : List (Nat × TypeDef)) (root : Option UInt16) :
    inheritedFields layout (ancestor :: ancestors) root =
      inheritedFields layout ancestors root + ancestor.2.instanceFieldCount.toNat := by
  simp only [inheritedFields, List.map_cons, List.sum_cons]
  omega

/-- The word of the number of instance fields of a type with those it inherits. -/
def HasTotal (image : Image) (layout : BaseLayout) (i : Nat) (total : UInt64) : Prop :=
  ∃ t ancestors root, image.get TypeDef i = .ok t ∧ image.Ancestry i ancestors root ∧
    total = UInt64.ofNat (inheritedFields layout ancestors root + t.instanceFieldCount.toNat)

theorem HasTotal.unique {i : Nat} {total total' : UInt64} (h : image.HasTotal layout i total)
    (h' : image.HasTotal layout i total') : total = total' := by
  obtain ⟨t, ancestors, root, ht, ha, rfl⟩ := h
  obtain ⟨t', ancestors', root', ht', ha', rfl⟩ := h'
  cases ht.symm.trans ht'
  obtain ⟨rfl, rfl⟩ := ha.unique ha'
  rfl

/-- A table of right totals that has with a type also its base. -/
structure Tallied (image : Image) (layout : BaseLayout) (totals : FieldTotals) : Prop where
  size : totals.size = image.typeCount
  sound : ∀ i total, totals.at? i = some total → image.HasTotal layout i total
  closed : ∀ i j, (totals.at? i).isSome → image.Extends i j → (totals.at? j).isSome

namespace Tallied
variable {totals totals' : FieldTotals} {room index : Nat} {total : UInt64}

theorem empty (image : Image) (layout : BaseLayout) :
    image.Tallied layout (Array.replicate image.typeCount none) := by
  refine ⟨Array.size_replicate, fun i total h => ?_, fun i j h => ?_⟩
  · rw [FieldTotals.at?_replicate] at h
    cases h
  · rw [FieldTotals.at?_replicate] at h
    cases h

theorem set (h : image.Tallied layout totals) (ht : image.HasTotal layout index total)
    (hbase : ∀ j, image.Extends index j → (totals.at? j).isSome) :
    image.Tallied layout (totals.setIfInBounds index (some total)) := by
  have hindex : index < totals.size := by
    obtain ⟨t, -, -, ht, -⟩ := ht
    exact h.size ▸ lt_typeCount ht
  refine ⟨by rw [Array.size_setIfInBounds, h.size], fun i total' hi => ?_, fun i j hi hij => ?_⟩
  · rw [FieldTotals.at?_set hindex] at hi
    split at hi
    · next he =>
      cases hi
      exact he ▸ ht
    · exact h.sound i total' hi
  · rw [FieldTotals.at?_set hindex] at hi ⊢
    split
    · rfl
    · split at hi
      · next he => exact hbase j (he ▸ hij)
      · exact h.closed i j hi hij

end Tallied

/-- What a walk to the total of a type does: it ends at a total that is known, or at a type without a
base here, or goes on to the base and adds. -/
inductive Totals (image : Image) (layout : BaseLayout) : (room index : Nat) → FieldTotals → UInt64 →
    FieldTotals → Prop
  | known {room index : Nat} {total : UInt64} {totals : FieldTotals} (h : totals.at? index = some total) :
    Totals image layout room index totals total totals
  | root {room index : Nat} {totals : FieldTotals} {t : TypeDef} (h : totals.at? index = none)
    (ht : image.get TypeDef index = .ok t) (hb : ∀ b, t.base? ≠ some (.own b)) :
    Totals image layout (room + 1) index totals ((t.root?.map layout).getD 0 + t.instanceFieldCount.toUInt64)
      (totals.setIfInBounds index (some ((t.root?.map layout).getD 0 + t.instanceFieldCount.toUInt64)))
  | own {room index : Nat} {inherited : UInt64} {totals totals' : FieldTotals} {t : TypeDef} {b : UInt16}
    (h : totals.at? index = none) (ht : image.get TypeDef index = .ok t)
    (hb : t.base? = some (.own b)) (hbase : Totals image layout room b.toNat totals inherited totals') :
    Totals image layout (room + 1) index totals (inherited + t.instanceFieldCount.toUInt64)
      (totals'.setIfInBounds index (some (inherited + t.instanceFieldCount.toUInt64)))

/-- What a type inherits: the total of its base here, or what is known of its root. -/
def inheritedTotal (image : Image) (layout : BaseLayout) (room : Nat) (t : TypeDef) (totals : FieldTotals) :
    Except Fault (UInt64 × FieldTotals) :=
  match t.base? with
  | some (.own b) => image.totalFields layout room b.toNat totals
  | _ => .ok ((t.root?.map layout).getD 0, totals)

section
variable {room index : Nat} {totals : FieldTotals}

theorem inheritedTotal_own {t : TypeDef} {b : UInt16} (hb : t.base? = some (.own b)) :
    image.inheritedTotal layout room t totals = image.totalFields layout room b.toNat totals := by
  rw [inheritedTotal, hb]

theorem inheritedTotal_root {t : TypeDef} (hb : ∀ b, t.base? ≠ some (.own b)) :
    image.inheritedTotal layout room t totals = .ok ((t.root?.map layout).getD 0, totals) := by
  unfold inheritedTotal
  split
  · next b hbase => exact absurd hbase (hb b)
  · rfl

theorem totalFields_known {total : UInt64} (h : totals.at? index = some total) :
    image.totalFields layout room index totals = .ok (total, totals) := by
  rw [FieldTotals.at?] at h
  rw [totalFields.eq_def, h]

theorem totalFields_zero (h : totals.at? index = none) :
    image.totalFields layout 0 index totals = .error (.nestingLimit baseLimit) := by
  rw [FieldTotals.at?] at h
  rw [totalFields.eq_def, h]

theorem totalFields_succ (h : totals.at? index = none) : image.totalFields layout (room + 1) index totals = do
    let t ← image.get TypeDef index
    let (inherited, totals) ← image.inheritedTotal layout room t totals
    return (inherited + t.instanceFieldCount.toUInt64,
      totals.setIfInBounds index (some (inherited + t.instanceFieldCount.toUInt64))) := by
  rw [FieldTotals.at?] at h
  rw [totalFields.eq_def, h]
  refine congrArg (image.get TypeDef index >>= ·) (funext fun t => ?_)
  unfold inheritedTotal TypeDef.root?
  cases t.base? with
  | none => rfl
  | some origin => cases origin <;> rfl

end

theorem totalFields_iff {room index : Nat} {total : UInt64} {totals totals' : FieldTotals} :
    image.totalFields layout room index totals = .ok (total, totals') ↔
      Totals image layout room index totals total totals' := by
  constructor
  · intro hrun
    induction room generalizing index total totals' with
    | zero =>
      cases hknown : totals.at? index with
      | none =>
        rw [totalFields_zero hknown] at hrun
        cases hrun
      | some total =>
        rw [totalFields_known hknown] at hrun
        cases hrun
        exact .known hknown
    | succ room ih =>
      cases hknown : totals.at? index with
      | none =>
        rw [totalFields_succ hknown] at hrun
        obtain ⟨t, ht, hrun⟩ := bind_eq_ok.1 hrun
        obtain ⟨⟨inherited, totals₁⟩, hbase, hrun⟩ := bind_eq_ok.1 hrun
        cases hrun
        by_cases hb : ∃ b, t.base? = some (.own b)
        · obtain ⟨b, hb⟩ := hb
          rw [inheritedTotal_own hb] at hbase
          exact .own hknown ht hb (ih hbase)
        · rw [inheritedTotal_root (not_exists.1 hb)] at hbase
          cases hbase
          exact .root hknown ht (not_exists.1 hb)
      | some total =>
        rw [totalFields_known hknown] at hrun
        cases hrun
        exact .known hknown
  · intro h
    induction h with
    | known h => exact totalFields_known h
    | root h ht hb =>
      rw [totalFields_succ h]
      exact bind_eq_ok.2 ⟨_, ht, bind_eq_ok.2 ⟨_, inheritedTotal_root hb, rfl⟩⟩
    | own h ht hb _ ih =>
      rw [totalFields_succ h]
      exact bind_eq_ok.2 ⟨_, ht, bind_eq_ok.2 ⟨_, (inheritedTotal_own hb).trans ih, rfl⟩⟩

theorem ofNat_add_count (n : Nat) (count : UInt8) :
    UInt64.ofNat n + count.toUInt64 = UInt64.ofNat (n + count.toNat) := by
  rw [UInt64.ofNat_add, UInt64.ofNat_uInt8ToNat]

theorem HasTotal.root {i : Nat} {t : TypeDef} (ht : image.get TypeDef i = .ok t)
    (hb : ∀ b, t.base? ≠ some (.own b)) :
    image.HasTotal layout i ((t.root?.map layout).getD 0 + t.instanceFieldCount.toUInt64) := by
  refine ⟨t, [], t.root?, ht, .root ht hb, ?_⟩
  rw [← ofNat_add_count, inheritedFields_nil]
  cases t.root? with
  | none => rfl
  | some r => simp only [Option.map_some, Option.getD_some, UInt64.ofNat_toNat]

theorem HasTotal.own {i : Nat} {inherited : UInt64} {t : TypeDef} {b : UInt16}
    (ht : image.get TypeDef i = .ok t) (hb : t.base? = some (.own b))
    (h : image.HasTotal layout b.toNat inherited) :
    image.HasTotal layout i (inherited + t.instanceFieldCount.toUInt64) := by
  obtain ⟨base, ancestors, root, hbase, ha, rfl⟩ := h
  refine ⟨t, (b.toNat, base) :: ancestors, root, ht, .own ht hb hbase ha, ?_⟩
  rw [ofNat_add_count, inheritedFields_cons]

namespace Totals
variable {room index : Nat} {total : UInt64} {totals totals' more : FieldTotals}

theorem tallied (hrun : image.Totals layout room index totals total totals')
    (h : image.Tallied layout totals) :
    image.Tallied layout totals' ∧ totals'.at? index = some total ∧ image.HasTotal layout index total := by
  induction hrun with
  | known hknown => exact ⟨h, hknown, h.sound _ _ hknown⟩
  | @root _ _ totals t _ ht hb =>
    have htotal : image.HasTotal layout _ _ := .root ht hb
    refine ⟨h.set htotal fun j hj => ?_, ?_, htotal⟩
    · obtain ⟨t', b, ht', hb', -⟩ := hj
      cases ht.symm.trans ht'
      exact absurd hb' (hb b)
    · rw [FieldTotals.at?_set (h.size ▸ lt_typeCount ht), if_pos rfl]
  | own _ ht hb _ ih =>
    obtain ⟨h', hbase, hinherited⟩ := ih h
    have htotal := HasTotal.own ht hb hinherited
    refine ⟨h'.set htotal fun j hj => ?_, ?_, htotal⟩
    · obtain ⟨t', b', ht', hb', rfl⟩ := hj
      cases ht.symm.trans ht'
      cases hb.symm.trans hb'
      rw [hbase]
      rfl
    · rw [FieldTotals.at?_set (h'.size ▸ lt_typeCount ht), if_pos rfl]

theorem grows (hrun : image.Totals layout room index totals total totals') (h : image.Tallied layout totals) :
    totals.Below totals' := by
  induction hrun with
  | known => exact fun _ hi => hi
  | root _ ht =>
    intro i hi
    rw [FieldTotals.at?_set (h.size ▸ lt_typeCount ht)]
    split
    · rfl
    · exact hi
  | own _ ht _ hbase ih =>
    intro i hi
    rw [FieldTotals.at?_set ((hbase.tallied h).1.size ▸ lt_typeCount ht)]
    split
    · rfl
    · exact ih h i hi

theorem least (hrun : image.Totals layout room index totals total totals')
    (h : image.Tallied layout totals) (hm : image.Tallied layout more) (hbelow : totals.Below more)
    (hindex : (more.at? index).isSome) : totals'.Below more := by
  induction hrun with
  | known => exact hbelow
  | root _ ht =>
    intro i hi
    rw [FieldTotals.at?_set (h.size ▸ lt_typeCount ht)] at hi
    split at hi
    · next he => exact he ▸ hindex
    · exact hbelow i hi
  | own _ ht hb hbase ih =>
    have hrest := ih h hbelow (hm.closed _ _ hindex ⟨_, _, ht, hb, rfl⟩)
    intro i hi
    rw [FieldTotals.at?_set ((hbase.tallied h).1.size ▸ lt_typeCount ht)] at hi
    split at hi
    · next he => exact he ▸ hindex
    · exact hrest i hi

theorem of_known (hrun : image.Totals layout room index totals total totals')
    (h : image.Tallied layout totals) (hm : image.Tallied layout more) (hbelow : totals.Below more)
    {total' : UInt64} (hknown : more.at? index = some total') (room' : Nat) :
    ∃ more', image.Totals layout room' index more total more' ∧ totals'.Below more' := by
  obtain ⟨-, -, htotal⟩ := hrun.tallied h
  obtain rfl := htotal.unique (hm.sound _ _ hknown)
  exact ⟨more, .known hknown, hrun.least h hm hbelow (Option.isSome_of_eq_some hknown)⟩

/-- With more totals known the walk gives the same total, and again more totals are known. -/
theorem fuller (hrun : image.Totals layout room index totals total totals')
    (h : image.Tallied layout totals) (hm : image.Tallied layout more) (hbelow : totals.Below more) :
    ∃ more', image.Totals layout room index more total more' ∧ totals'.Below more' := by
  induction hrun with
  | @known room index total totals hknown =>
    obtain ⟨total', htotal'⟩ := Option.isSome_iff_exists.1 (hbelow _ (Option.isSome_of_eq_some hknown))
    exact of_known (.known hknown : image.Totals layout room index totals total totals) h hm hbelow htotal' _
  | @root room index totals t hunknown ht hb =>
    cases hknown : more.at? index with
    | none =>
      have hindex : index < totals.size := h.size ▸ lt_typeCount ht
      exact ⟨_, .root hknown ht hb, hbelow.set (h.size.trans hm.size.symm) hindex⟩
    | some total' =>
      have hroot : image.Totals layout (room + 1) index totals _ _ := .root hunknown ht hb
      exact of_known hroot h hm hbelow hknown _
  | own hunknown ht hb hbase ih =>
    cases hknown : more.at? _ with
    | none =>
      obtain ⟨more', hmore', hbelow'⟩ := ih h hbelow
      have h' := (hbase.tallied h).1
      have hm' := (hmore'.tallied hm).1
      exact ⟨_, .own hknown ht hb hmore',
        hbelow'.set (h'.size.trans hm'.size.symm) (h'.size ▸ lt_typeCount ht)⟩
    | some total' => exact of_known (.own hunknown ht hb hbase) h hm hbelow hknown _

end Totals

end Image
end CompactAssembly
