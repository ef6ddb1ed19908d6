import CompactAssembly.Proofs.Names

/-!
# Pools of strings

`Pool.internAll strings values`: the pool after texts were interned one behind the other. A pool never forgets a
text (`Pool.Knows.internAll`), so a text keeps its reference. A reference that did not overflow lies inside the
heap, whose bytes from there on are the text (`Pool.Sound`): it is never taken for a built-in text, and texts
without zero characters do not share one (`Pool.Sound.reference_inj`). Whatever steps led to a draft that has not
overflowed, its pool is sound (`Draft.soundTexts_built`).
-/

namespace CompactAssembly

theorem Text.untilZero_eq_self {value : String} (h : '\x00' ∉ value.toList) : Text.untilZero value = value := by
  have hall : value.toList.takeWhile (· ≠ '\x00') = value.toList :=
    List.takeWhile_eq_self_iff.2 fun c hc => decide_eq_true fun hzero => h (hzero ▸ hc)
  rw [Text.untilZero, hall, String.ofList_toList]

namespace Pool
variable {strings : Pool String} {value other : String} {values more : List String} {index : UInt16}

/-- Where a text is in the heap, or where it will be. -/
def reference (strings : Pool String) (value : String) : UInt16 :=
  if value.isEmpty then noReference else (strings.find? value).getD (referenceFor strings.heap.size)

def intern (strings : Pool String) (value : String) : Pool String :=
  if value.isEmpty ∨ (strings.find? value).isSome then strings
  else strings.insert value (value.toUTF8.data.toList ++ [0]) (referenceFor strings.heap.size)

/-- The pool with texts in it, interned in this order. -/
def internAll (strings : Pool String) (values : List String) : Pool String := values.foldl intern strings

theorem internAll_append (strings : Pool String) (values more : List String) :
    strings.internAll (values ++ more) = (strings.internAll values).internAll more := List.foldl_append

theorem internAll_concat (strings : Pool String) (values : List String) (value : String) :
    strings.internAll (values ++ [value]) = (strings.internAll values).intern value := internAll_append ..

theorem find?_intern_of_some (h : strings.find? value = some index) (other : String) :
    (strings.intern other).find? value = some index := by
  unfold intern
  split
  · exact h
  · next hnew =>
    have hne : other ≠ value := by
      rintro rfl
      exact hnew (.inr (Option.isSome_of_eq_some h))
    rwa [find?_insert_of_ne _ _ _ hne]

def Knows (strings : Pool String) (value : String) : Prop := value.isEmpty ∨ (strings.find? value).isSome

theorem intern_of_knows (h : strings.Knows value) : strings.intern value = strings := if_pos h

theorem knows_intern (strings : Pool String) (value : String) : (strings.intern value).Knows value := by
  unfold intern
  split
  · next h => exact h
  · exact .inr (by rw [find?_insert_self]; rfl)

theorem reference_intern (strings : Pool String) (value : String) :
    (strings.intern value).reference value = strings.reference value := by
  unfold intern
  split
  · rfl
  · next hnew =>
    obtain ⟨hempty, hf⟩ := not_or.1 hnew
    rw [reference, reference, if_neg hempty, if_neg hempty, find?_insert_self,
      Option.not_isSome_iff_eq_none.1 hf]
    rfl

namespace Knows

theorem intern (h : strings.Knows value) (other : String) :
    (strings.intern other).Knows value ∧ (strings.intern other).reference value = strings.reference value := by
  unfold Knows reference
  obtain hempty | hf := h
  · exact ⟨.inl hempty, by rw [if_pos hempty, if_pos hempty]⟩
  · obtain ⟨index, hindex⟩ := Option.isSome_iff_exists.1 hf
    rw [find?_intern_of_some hindex, hindex]
    exact ⟨.inr rfl, rfl⟩

theorem internAll (h : strings.Knows value) (values : List String) :
    (strings.internAll values).Knows value ∧
      (strings.internAll values).reference value = strings.reference value := by
  induction values generalizing strings with
  | nil => exact ⟨h, rfl⟩
  | cons other values ih =>
    obtain ⟨hknows, hreference⟩ := h.intern other
    obtain ⟨hall, hsame⟩ := ih hknows
    exact ⟨hall, hsame.trans hreference⟩

end Knows

theorem knows_of_mem (strings : Pool String) (h : value ∈ values) : (strings.internAll values).Knows value := by
  obtain ⟨before, after, rfl⟩ := List.append_of_mem h
  rw [List.append_cons, internAll_append, internAll_concat]
  exact ((knows_intern _ value).internAll after).1

theorem reference_internAll_cons (strings : Pool String) (value : String) (more : List String) :
    (strings.internAll (value :: more)).reference value = strings.reference value :=
  ((strings.knows_intern value).internAll more).2.trans (strings.reference_intern value)

theorem map_reference_internAll (strings : Pool String) (values more : List String) :
    values.map ((strings.internAll values).internAll more).reference =
      values.map (strings.internAll values).reference :=
  List.map_congr_left fun _ h => ((strings.knows_of_mem h).internAll more).2

/-- Each text that is remembered is in the heap, where its reference says. -/
def Sound (strings : Pool String) : Prop :=
  ∀ value index, strings.find? value = some index →
    index ≠ noReference ∧ strings.heap.HoldsAt index.toNat (value.toUTF8.data.toList ++ [0])

namespace Sound

theorem empty : (Pool.empty : Pool String).Sound := by
  intro value index h
  simp [Pool.empty, find?] at h

theorem intern (h : strings.Sound) (hroom : strings.heap.size < 0xFFFF) (value : String) :
    (strings.intern value).Sound := by
  unfold Pool.intern
  split
  · exact h
  refine forall_find?_insert ⟨fun hnone => ?_, ?_⟩ fun other index hother => ?_
  · -- there is room, so the reference is the size that the heap had
    have := congrArg UInt16.toNat hnone
    rw [toNat_referenceFor hroom] at this
    exact absurd this (Nat.ne_of_lt hroom)
  · rw [toNat_referenceFor hroom]
    exact Bytes.holdsAt_size_append ..
  · obtain ⟨hne, hholds⟩ := h other index hother
    exact ⟨hne, hholds.grow (Draft.prefix_appendList ..)⟩

theorem text_reference (h : strings.Sound) (hv : strings.Knows value) :
    builtinText? (strings.reference value) strings.heap.size = none ∧
      strings.heap.text (strings.reference value) = .ok (Text.untilZero value) := by
  unfold reference
  by_cases hempty : value.isEmpty = true
  · rw [if_pos hempty]
    obtain rfl := String.isEmpty_iff.1 hempty
    exact ⟨if_pos (.inl rfl), rfl⟩
  · obtain ⟨index, hindex⟩ := Option.isSome_iff_exists.1 (hv.resolve_left hempty)
    obtain ⟨hne, hholds⟩ := h value index hindex
    rw [if_neg hempty, hindex]
    refine ⟨if_pos (.inr (.inr ?_)), Bytes.text_of_holdsAt hholds hne⟩
    have hsize := hholds.le_size
    rw [List.length_append, List.length_singleton] at hsize
    exact Nat.lt_of_lt_of_le (Nat.lt_add_of_pos_right (Nat.succ_pos _)) hsize

theorem reference_inj (h : strings.Sound) (hv : strings.Knows value) (ho : strings.Knows other)
    (hzero : '\x00' ∉ value.toList) (hzero' : '\x00' ∉ other.toList)
    (heq : strings.reference value = strings.reference other) : value = other := by
  have hvalue := (h.text_reference hv).2
  have hother := (h.text_reference ho).2
  rw [Text.untilZero_eq_self hzero, heq] at hvalue
  rw [Text.untilZero_eq_self hzero'] at hother
  exact Except.ok.inj (hvalue.symm.trans hother)

end Sound

end Pool

namespace Draft
variable {d : Draft}

theorem withText_eq_intern (d : Draft) (value : String) :
    ∃ overflow, d.withText value = { d with strings := d.strings.intern value, overflow } := by
  unfold withText Pool.intern
  split
  · exact ⟨d.overflow, rfl⟩
  · exact ⟨_, rfl⟩

theorem strings_withText (d : Draft) (value : String) :
    (d.withText value).strings = d.strings.intern value := by
  obtain ⟨overflow, hd⟩ := d.withText_eq_intern value
  rw [hd]

theorem withText_of_knows {d : Draft} {value : String} (h : d.strings.Knows value) : d.withText value = d :=
  if_pos h

theorem strings_withBlob (d : Draft) (value : List UInt8) : (d.withBlob value).strings = d.strings := by
  obtain ⟨signatures, overflow, hd⟩ := d.withBlob_eq value
  rw [hd]

theorem reference_withText (d : Draft) (value : String) :
    d.textReference value = (d.withText value).strings.reference value := by
  rw [strings_withText, Pool.reference_intern]
  rfl

theorem references_pair (d : Draft) (value other : String) :
    [d.textReference value, (d.withText value).textReference other] =
      [value, other].map ((d.withText value).withText other).strings.reference := by
  have hvalue := ((d.strings.knows_intern value).intern other).2
  rw [← strings_withText, ← strings_withText] at hvalue
  rw [List.map_cons, List.map_singleton, hvalue, reference_withText, reference_withText]

theorem withBlob_withText_eq (d : Draft) (value : List UInt8) (name : String) :
    ∃ signatures overflow,
      (d.withBlob value).withText name = { d with strings := d.strings.intern name, signatures, overflow } ∧
      (d.withBlob value).textReference name = (d.strings.intern name).reference name := by
  obtain ⟨signatures, _, hb⟩ := d.withBlob_eq value
  obtain ⟨overflow, hd⟩ := (d.withBlob value).withText_eq_intern name
  rw [reference_withText, hd, hb]
  exact ⟨signatures, overflow, rfl, rfl⟩

/-- A draft that has not overflowed has a sound pool of strings. -/
def SoundTexts (d : Draft) : Prop := d.overflow = false → d.strings.Sound

def KeepsTexts (d d' : Draft) : Prop := d.SoundTexts → d'.SoundTexts

theorem SoundTexts.withText (h : d.SoundTexts) (value : String) : (d.withText value).SoundTexts := by
  intro hov
  rw [strings_withText]
  unfold Draft.withText at hov
  split at hov
  · next hknown => exact (Pool.intern_of_knows hknown).symm ▸ h hov
  · obtain ⟨hov, hroom⟩ := overflow_noting.1 hov
    exact (h hov).intern hroom value

instance : Additive KeepsTexts where
  refl _ h := h
  trans h h' hd := h' (h hd)
  noting _ _ h hov := h (overflow_noting.1 hov).1
  withText _ value h := h.withText value
  withBlob d value h hov := d.strings_withBlob value ▸ h ((Extends.withBlob d value).overflow hov)
  overflowed _ _ := nofun
  byteCode _ _ h := h
  assemblyRef _ _ h := h
  typeRef _ _ h := h
  attach _ _ h := h
  resource _ _ _ h := h
  resourceFile _ _ h := h
  fieldRef _ _ h := h
  methodRef _ _ h := h
  typeSpec _ _ h := h
  fieldDef _ _ h := h
  methodDef _ _ h := h
  typeDef _ _ h := h

theorem soundTexts_built (name : String) (version : Version) (steps : List Step) :
    (built name version steps).SoundTexts :=
  applyAll_of_additive (R := KeepsTexts) (named name version) steps fun _ => .empty

end Draft

end CompactAssembly
