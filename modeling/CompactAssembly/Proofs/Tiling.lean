import CompactAssembly.Proofs.DraftRun

/-!
# Ranges of members tile their tables

`Draft.Gains fields methods types d d'`: so many field and method definitions and these type definitions
were added, and nothing else to these tables. A type definition that succeeds gains its members and a
record whose ranges hold exactly them (`wp_typeDef`); every other step gains nothing. So the ranges of
the types in table order run through the members without gap or overlap (`Tiled`) as long as no type
definition failed and no reference overflowed.
-/

namespace CompactAssembly

namespace Draft

/-- What was added to the tables of definitions. -/
structure Gains (fields methods : Nat) (types : List TypeDef) (d d' : Draft) : Prop where
  fieldDefs : d'.fieldDefs.size = d.fieldDefs.size + fields
  methodDefs : d'.methodDefs.size = d.methodDefs.size + methods
  typeDefs : d'.typeDefs.toList = d.typeDefs.toList ++ types
  overflow : d'.overflow = false → d.overflow = false

namespace Gains
variable {f f' m m' : Nat} {ts ts' : List TypeDef} {a b c : Draft}

theorem refl (d : Draft) : Gains 0 0 [] d d where
  fieldDefs := rfl
  methodDefs := rfl
  typeDefs := (List.append_nil _).symm
  overflow := id

theorem trans (h : Gains f m ts a b) (h' : Gains f' m' ts' b c) :
    Gains (f + f') (m + m') (ts ++ ts') a c where
  fieldDefs := by rw [h'.fieldDefs, h.fieldDefs, Nat.add_assoc]
  methodDefs := by rw [h'.methodDefs, h.methodDefs, Nat.add_assoc]
  typeDefs := by rw [h'.typeDefs, h.typeDefs, List.append_assoc]
  overflow ho := h.overflow (h'.overflow ho)

theorem noting (d : Draft) (position : Nat) : Gains 0 0 [] d (d.noting position) :=
  { refl d with overflow := (Extends.noting d position).overflow }

theorem withText (d : Draft) (value : String) : Gains 0 0 [] d (d.withText value) := by
  have ho := (Extends.withText d value).overflow
  obtain ⟨strings, overflow, hd⟩ := d.withText_eq value
  rw [hd] at ho ⊢
  exact { refl d with overflow := ho }

theorem withBlob (d : Draft) (value : List UInt8) : Gains 0 0 [] d (d.withBlob value) := by
  have ho := (Extends.withBlob d value).overflow
  obtain ⟨signatures, overflow, hd⟩ := d.withBlob_eq value
  rw [hd] at ho ⊢
  exact { refl d with overflow := ho }

end Gains

/-- Members were added, then this record, whose ranges hold exactly them. -/
structure Declares (record : TypeDef) (d d' : Draft) : Prop where
  gains : Gains (record.staticFieldCount.toNat + record.instanceFieldCount.toNat) record.methodCount
    [record] d d'
  staticFields : record.staticFieldsFirst.toNat = d.fieldDefs.size
  instanceFields : record.instanceFieldsFirst.toNat = d.fieldDefs.size + record.staticFieldCount.toNat
  methods : record.methodsFirst.toNat = d.methodDefs.size
  room : d.typeDefs.size < 0xFFFF

instance : Referring (Gains 0 0 []) where
  refl := .refl
  trans h h' := h.trans h'
  noting := .noting
  withText := .withText
  withBlob := .withBlob
  overflowed d := { Gains.refl d with overflow := nofun }
  byteCode d _ := { Gains.refl d with }
  assemblyRef d _ := { Gains.refl d with }
  typeRef d _ := { Gains.refl d with }
  attach d _ := { Gains.refl d with }
  resource d _ _ := { Gains.refl d with }
  resourceFile d _ := { Gains.refl d with }
  fieldRef d _ := { Gains.refl d with }
  methodRef d _ := { Gains.refl d with }
  typeSpec d _ := { Gains.refl d with }

end Draft

namespace Drafting
open Draft

variable {d : Draft}

theorem wp_fieldDef (f : FieldDraft) (d : Draft) :
    wp (fieldDef f) (fun _ d' => Gains 1 0 [] d d') (fun _ => True) d := by
  unfold fieldDef
  simp only [wp_bind, wp_ofExcept, wp_blob, wp_text, wp_modify, implies_true, and_true]
  intro sig _
  have h := (Gains.withBlob d sig).trans (Gains.withText _ f.name)
  exact { h with fieldDefs := by rw [Array.size_push, h.fieldDefs] }

theorem wp_methodDef (m : MethodDraft) (d : Draft) :
    wp (methodDef m) (fun _ d' => Gains 0 1 [] d d') (fun _ => True) d := by
  unfold methodDef
  simp only [wp_bind, wp_ofExcept, wp_blob, wp_text, wp_count, wp_modify, implies_true, and_true]
  intro sig _ _
  have h := (Gains.withBlob d sig).trans (Gains.withText _ m.name)
  exact { h with methodDefs := by rw [Array.size_push, h.methodDefs] }

theorem wp_forM_fieldDef (fs : List FieldDraft) (d : Draft) :
    wp (fs.forM fieldDef) (fun _ d' => Gains fs.length 0 [] d d') (fun _ => True) d := by
  refine wp_forM (P := fun done d' => Gains done.length 0 [] d d') (fun done f d₁ h => ?_) [] fs
    (Gains.refl d)
  rw [List.length_append]
  exact wp_mono (wp_fieldDef f d₁) (fun _ _ h' => h.trans h') (fun _ _ => trivial)

theorem wp_forM_methodDef (ms : List MethodDraft) (d : Draft) :
    wp (ms.forM methodDef) (fun _ d' => Gains 0 ms.length [] d d') (fun _ => True) d := by
  refine wp_forM (P := fun done d' => Gains 0 done.length [] d d') (fun done m d₁ h => ?_) [] ms
    (Gains.refl d)
  rw [List.length_append]
  exact wp_mono (wp_methodDef m d₁) (fun _ _ h' => h.trans h') (fun _ _ => trivial)

theorem length_orderedMethods (t : TypeDraft) :
    t.orderedMethods.length = t.methods.countP MethodDraft.isVirtual +
      t.methods.countP MethodDraft.isInstance + t.methods.countP MethodDraft.isStatic := by
  simp only [TypeDraft.orderedMethods, List.length_append, List.countP_eq_length_filter]

/-- A type definition that succeeds gains its members and a record whose ranges hold them. -/
theorem wp_typeDef (t : TypeDraft) (d : Draft) :
    wp (typeDef t) (fun _ d' => d'.overflow = false → ∃ record, Declares record d d') (fun _ => True) d := by
  rw [wp_typeDef_groups]
  refine wp_mono (wp_forM_fieldDef t.staticFields _) (fun _ d₁ h₁ => ?_) (fun _ _ => trivial)
  refine wp_mono (wp_forM_fieldDef t.instanceFields _) (fun _ d₂ h₂ => ?_) (fun _ _ => trivial)
  refine wp_mono (wp_forM_methodDef t.orderedMethods _) (fun _ d₃ h₃ => ?_) (fun _ _ => trivial)
  simp only [typeRecord, wp_bind, wp_get, wp_reference, wp_text, wp_count, wp_modify, implies_true, and_true]
  intro hv hi hs hsf hif ho
  have h₄ := (Gains.withText d₃ t.name).trans (Gains.withText _ t.nameSpace)
  have hfields := ((Gains.noting d d.fieldDefs.size).trans h₁).trans (Gains.noting d₁ d₁.fieldDefs.size)
  have hmembers := hfields.trans (h₂.trans (Gains.noting d₂ d₂.methodDefs.size))
  have hall := hmembers.trans (h₃.trans h₄)
  simp only [Nat.zero_add, Nat.add_zero, List.append_nil] at hfields hmembers hall
  obtain ⟨ho, htypes⟩ := overflow_noting.1 ho
  obtain ⟨ho₂, hmethods⟩ := overflow_noting.1 (h₃.overflow (h₄.overflow ho))
  obtain ⟨ho₁, hinstance⟩ := overflow_noting.1 (h₂.overflow ho₂)
  obtain ⟨-, hstatic⟩ := overflow_noting.1 (h₁.overflow ho₁)
  have hpush : ∀ record, (((d₃.withText t.name).withText t.nameSpace).typeDefs.push record).toList =
      d.typeDefs.toList ++ [record] := fun record => by
    rw [Array.toList_push, hall.typeDefs, List.append_nil]
  refine ⟨_, ⟨hall.fieldDefs.trans ?_, hall.methodDefs.trans ?_, hpush _, fun _ => hall.overflow ho⟩,
    toNat_referenceFor hstatic, (toNat_referenceFor hinstance).trans (hfields.fieldDefs.trans ?_),
    (toNat_referenceFor hmethods).trans hmembers.methodDefs, ?_⟩
  · simp only [UInt8.toNat_ofNat_of_lt' hsf, UInt8.toNat_ofNat_of_lt' hif]
  · simp only [TypeDef.methodCount, UInt8.toNat_ofNat_of_lt' hv, UInt8.toNat_ofNat_of_lt' hi,
      UInt8.toNat_ofNat_of_lt' hs, length_orderedMethods]
  · simp only [UInt8.toNat_ofNat_of_lt' hsf]
  · have hlen := congrArg List.length hall.typeDefs
    simp only [List.append_nil, Array.length_toList] at hlen
    simpa only [Array.size_push, Nat.add_sub_cancel, hlen] using htypes

end Drafting

namespace Draft

/-- The ranges of the types run through the members in order, each member once. -/
structure Tiled (d : Draft) : Prop where
  methods : d.typeDefs.toList.flatMap (fun t => t.methods.toList) = List.range d.methodDefs.size
  fields : d.typeDefs.toList.flatMap (fun t => t.staticFields.toList ++ t.instanceFields.toList) =
    List.range d.fieldDefs.size
  typeDefs : d.typeDefs.size ≤ 0xFFFF

namespace Tiled
variable {d d' : Draft}

theorem named (name : String) (version : Version) : (Draft.named name version).Tiled :=
  ⟨rfl, rfl, Nat.zero_le _⟩

theorem gains (h : d.Tiled) (hg : Gains 0 0 [] d d') : d'.Tiled where
  methods := by rw [hg.typeDefs, hg.methodDefs, List.append_nil, h.methods, Nat.add_zero]
  fields := by rw [hg.typeDefs, hg.fieldDefs, List.append_nil, h.fields, Nat.add_zero]
  typeDefs := by
    rw [← Array.length_toList, hg.typeDefs, List.append_nil]
    exact h.typeDefs

theorem declares {record : TypeDef} (h : d.Tiled) (hr : Declares record d d') : d'.Tiled where
  methods := by
    rw [hr.gains.typeDefs, hr.gains.methodDefs, List.flatMap_append, h.methods, List.flatMap_singleton,
      TypeDef.methods, IndexRange.toList, hr.methods, List.range_eq_range', List.range_eq_range']
    exact (congrArg (_ ++ List.range' · _) (Nat.zero_add _).symm).trans List.range'_append_1
  fields := by
    rw [hr.gains.typeDefs, hr.gains.fieldDefs, List.flatMap_append, h.fields, List.flatMap_singleton,
      TypeDef.staticFields, TypeDef.instanceFields, IndexRange.toList, IndexRange.toList,
      hr.staticFields, hr.instanceFields, List.range'_append_1, List.range_eq_range', List.range_eq_range']
    exact (congrArg (_ ++ List.range' · _) (Nat.zero_add _).symm).trans List.range'_append_1
  typeDefs := by
    have hlen := congrArg List.length hr.gains.typeDefs
    simp only [Array.length_toList, List.length_append, List.length_singleton] at hlen
    exact hlen ▸ hr.room

theorem apply (h : d.Tiled) (step : Step)
    (hstep : ∀ type, step = .typeDef type → ∃ index, (d.apply step).1 = .ok index)
    (ho : (d.apply step).2.overflow = false) : (d.apply step).2.Tiled := by
  by_cases ht : ∃ type, step = .typeDef type
  · obtain ⟨type, rfl⟩ := ht
    obtain ⟨index, hindex⟩ := hstep type rfl
    obtain ⟨record, hr⟩ := Drafting.wp_ok (Drafting.wp_typeDef type d) (perform_of_apply hindex) ho
    exact h.declares hr
  · exact h.gains (apply_of_follows (Drafting.follows_perform_of_ne fun type hs => ht ⟨type, hs⟩) d)

theorem applyAll (h : d.Tiled) (steps : List Step)
    (hsteps : ∀ (i : Nat) type, steps[i]? = some (.typeDef type) →
      ∃ index, (d.applyAll steps).1[i]? = some (.ok index))
    (ho : (d.applyAll steps).2.overflow = false) : (d.applyAll steps).2.Tiled := by
  induction steps generalizing d with
  | nil => exact h
  | cons step steps ih =>
    have ho' := (extends_applyAll (d.apply step).2 steps).overflow ho
    refine ih (h.apply step (fun type ht => ?_) ho') (fun i type ht => ?_) ho
    · obtain ⟨index, hindex⟩ := hsteps 0 type (congrArg some ht)
      exact ⟨index, Option.some.inj hindex⟩
    · exact hsteps (i + 1) type ht

end Tiled

end Draft

end CompactAssembly
