import CompactAssembly.Proofs.Lookup

/-!
# Members belong to the types that declare them

`Draft.Made fields methods types d`: the definitions of `d` were entered, in this order, from these
declarations. A type definition that succeeds enters its fields, its methods in table order and itself
(`wp_typeDef_made`); every other step leaves the definitions as they are (`Draft.Keeps`). The ranges of the
types tile the tables, so the range of each group holds what its type declared for the group, in order.
-/

namespace CompactAssembly

namespace Draft

def NamesText (d : Draft) (value : String) (index : UInt16) : Prop :=
  if value.isEmpty then index = noReference else d.strings.find? value = some index

structure EntersField (d : Draft) (f : FieldDraft) (row : FieldDef) : Prop where
  name : d.NamesText f.name row.name
  sig : ∃ xs, encodeField f.type = .ok xs ∧ d.signatures.find? xs = some row.sig
  flags : row.flags = f.flags

structure EntersMethod (d : Draft) (m : MethodDraft) (row : MethodDef) : Prop where
  name : d.NamesText m.name row.name
  sig : ∃ xs, m.signature.encode = .ok xs ∧ d.signatures.find? xs = some row.sig
  flags : row.flags = m.flags
  rva : row.rva = m.rva

structure EntersType (d : Draft) (t : TypeDraft) (row : TypeDef) : Prop where
  name : d.NamesText t.name row.name
  nameSpace : d.NamesText t.nameSpace row.nameSpace
  flags : row.flags = t.flags
  base : row.base = t.base
  enclosing : row.enclosing = t.enclosing
  virtualMethods : row.virtualMethodCount.toNat = (t.methods.filter MethodDraft.isVirtual).length
  instanceMethods : row.instanceMethodCount.toNat = (t.methods.filter MethodDraft.isInstance).length
  staticMethods : row.staticMethodCount.toNat = (t.methods.filter MethodDraft.isStatic).length
  staticFields : row.staticFieldCount.toNat = t.staticFields.length
  instanceFields : row.instanceFieldCount.toNat = t.instanceFields.length

/-- What is interned in `d` is interned in `d'` under the same reference. -/
structure Remembers (d d' : Draft) : Prop where
  texts : ∀ value index, d.strings.find? value = some index → d'.strings.find? value = some index
  blobs : ∀ value index, d.signatures.find? value = some index → d'.signatures.find? value = some index

/-- Nothing new in the tables of definitions. -/
structure Keeps (d d' : Draft) : Prop extends Remembers d d' where
  fieldDefs : d'.fieldDefs = d.fieldDefs
  methodDefs : d'.methodDefs = d.methodDefs
  typeDefs : d'.typeDefs = d.typeDefs

namespace Keeps
variable {a b c d : Draft}

theorem refl (d : Draft) : d.Keeps d := ⟨⟨fun _ _ h => h, fun _ _ h => h⟩, rfl, rfl, rfl⟩

theorem trans (h : a.Keeps b) (h' : b.Keeps c) : a.Keeps c where
  texts value index hi := h'.texts value index (h.texts value index hi)
  blobs value index hi := h'.blobs value index (h.blobs value index hi)
  fieldDefs := h'.fieldDefs.trans h.fieldDefs
  methodDefs := h'.methodDefs.trans h.methodDefs
  typeDefs := h'.typeDefs.trans h.typeDefs

theorem withText (d : Draft) (value : String) : d.Keeps (d.withText value) := by
  unfold Draft.withText
  split
  · exact refl d
  · next hnew =>
    refine { refl d with texts := fun other index hother => ?_ }
    have hne : value ≠ other := by
      rintro rfl
      exact hnew (.inr (Option.isSome_of_eq_some hother))
    rwa [Pool.find?_insert_of_ne _ _ _ hne]

theorem withBlob (d : Draft) (value : List UInt8) : d.Keeps (d.withBlob value) := by
  unfold Draft.withBlob
  split
  · exact refl d
  · next hnew =>
    refine { refl d with blobs := fun other index hother => ?_ }
    have hne : value ≠ other := by
      rintro rfl
      exact hnew (Option.isSome_of_eq_some hother)
    rwa [Pool.find?_insert_of_ne _ _ _ hne]

end Keeps

instance : Referring Keeps where
  refl := .refl
  trans h h' := h.trans h'
  noting d _ := { Keeps.refl d with }
  withText := .withText
  withBlob := .withBlob
  overflowed d := { Keeps.refl d with }
  byteCode d _ := { Keeps.refl d with }
  assemblyRef d _ := { Keeps.refl d with }
  typeRef d _ := { Keeps.refl d with }
  attach d _ := { Keeps.refl d with }
  resource d _ _ := { Keeps.refl d with }
  resourceFile d _ := { Keeps.refl d with }
  fieldRef d _ := { Keeps.refl d with }
  methodRef d _ := { Keeps.refl d with }
  typeSpec d _ := { Keeps.refl d with }

theorem namesText_withText (d : Draft) (value : String) :
    (d.withText value).NamesText value (d.textReference value) := by
  unfold NamesText withText textReference
  by_cases hempty : value.isEmpty = true
  · simp only [hempty, ↓reduceIte]
  · cases hf : d.strings.find? value with
    | some index => simp [hempty, hf]
    | none => simp [hempty, Pool.find?_insert_self]

theorem find?_withBlob (d : Draft) (value : List UInt8) :
    (d.withBlob value).signatures.find? value = some (d.blobReference value) := by
  unfold withBlob blobReference
  cases hf : d.signatures.find? value with
  | some index => simp [hf]
  | none => simp [Pool.find?_insert_self]

theorem find?_withBlob_withText (d : Draft) (value : List UInt8) (name : String) :
    ((d.withBlob value).withText name).signatures.find? value = some (d.blobReference value) :=
  (Keeps.withText _ name).blobs value _ (find?_withBlob d value)

section
variable {d d' : Draft} (h : d.Remembers d')
include h

theorem NamesText.mono {value : String} {index : UInt16} (ht : d.NamesText value index) :
    d'.NamesText value index := by
  unfold NamesText at *
  split at ht
  · next hempty => rwa [if_pos hempty]
  · next hempty =>
    rw [if_neg hempty]
    exact h.texts value index ht

theorem EntersField.mono {f : FieldDraft} {row : FieldDef} (hf : d.EntersField f row) :
    d'.EntersField f row := by
  obtain ⟨xs, hxs, hsig⟩ := hf.sig
  exact ⟨hf.name.mono h, ⟨xs, hxs, h.blobs xs _ hsig⟩, hf.flags⟩

theorem EntersMethod.mono {m : MethodDraft} {row : MethodDef} (hm : d.EntersMethod m row) :
    d'.EntersMethod m row := by
  obtain ⟨xs, hxs, hsig⟩ := hm.sig
  exact ⟨hm.name.mono h, ⟨xs, hxs, h.blobs xs _ hsig⟩, hm.flags, hm.rva⟩

theorem EntersType.mono {t : TypeDraft} {row : TypeDef} (ht : d.EntersType t row) : d'.EntersType t row :=
  { ht with name := ht.name.mono h, nameSpace := ht.nameSpace.mono h }

end

/-- The tables of definitions were entered, in order, from these declarations. -/
structure Made (fields : List FieldDraft) (methods : List MethodDraft) (types : List TypeDraft)
    (d : Draft) : Prop where
  fields : List.Forall₂ d.EntersField fields d.fieldDefs.toList
  methods : List.Forall₂ d.EntersMethod methods d.methodDefs.toList
  types : List.Forall₂ d.EntersType types d.typeDefs.toList

namespace Made
variable {fs : List FieldDraft} {ms : List MethodDraft} {ts : List TypeDraft} {d d' : Draft}

theorem named (name : String) (version : Version) : Made [] [] [] (Draft.named name version) :=
  ⟨.nil, .nil, .nil⟩

theorem keeps (h : Made fs ms ts d) (hk : d.Keeps d') : Made fs ms ts d' where
  fields := by
    rw [hk.fieldDefs]
    exact h.fields.imp fun _ _ => EntersField.mono hk.toRemembers
  methods := by
    rw [hk.methodDefs]
    exact h.methods.imp fun _ _ => EntersMethod.mono hk.toRemembers
  types := by
    rw [hk.typeDefs]
    exact h.types.imp fun _ _ => EntersType.mono hk.toRemembers

theorem fieldDef (h : Made fs ms ts d) {f : FieldDraft} {row : FieldDef} (hf : d.EntersField f row) :
    Made (fs ++ [f]) ms ts { d with fieldDefs := d.fieldDefs.push row } := by
  have hr : d.Remembers { d with fieldDefs := d.fieldDefs.push row } := ⟨fun _ _ h => h, fun _ _ h => h⟩
  refine ⟨?_, h.methods.imp fun _ _ => EntersMethod.mono hr, h.types.imp fun _ _ => EntersType.mono hr⟩
  rw [Array.toList_push]
  exact List.rel_append (h.fields.imp fun _ _ => EntersField.mono hr) (.cons (hf.mono hr) .nil)

theorem methodDef (h : Made fs ms ts d) {m : MethodDraft} {row : MethodDef} (hm : d.EntersMethod m row) :
    Made fs (ms ++ [m]) ts { d with methodDefs := d.methodDefs.push row } := by
  have hr : d.Remembers { d with methodDefs := d.methodDefs.push row } := ⟨fun _ _ h => h, fun _ _ h => h⟩
  refine ⟨h.fields.imp fun _ _ => EntersField.mono hr, ?_, h.types.imp fun _ _ => EntersType.mono hr⟩
  rw [Array.toList_push]
  exact List.rel_append (h.methods.imp fun _ _ => EntersMethod.mono hr) (.cons (hm.mono hr) .nil)

theorem typeDef (h : Made fs ms ts d) {t : TypeDraft} {row : TypeDef} (ht : d.EntersType t row) :
    Made fs ms (ts ++ [t]) { d with typeDefs := d.typeDefs.push row } := by
  have hr : d.Remembers { d with typeDefs := d.typeDefs.push row } := ⟨fun _ _ h => h, fun _ _ h => h⟩
  refine ⟨h.fields.imp fun _ _ => EntersField.mono hr, h.methods.imp fun _ _ => EntersMethod.mono hr, ?_⟩
  rw [Array.toList_push]
  exact List.rel_append (h.types.imp fun _ _ => EntersType.mono hr) (.cons (ht.mono hr) .nil)

end Made

end Draft

namespace Drafting
open Draft

variable {fs : List FieldDraft} {ms : List MethodDraft} {ts : List TypeDraft} {d : Draft}

theorem wp_fieldDef_made (fs : List FieldDraft) (f : FieldDraft) (d : Draft) (h : Made fs ms ts d) :
    wp (fieldDef f) (fun _ d' => Made (fs ++ [f]) ms ts d') (fun _ => True) d := by
  unfold fieldDef
  simp only [wp_bind, wp_ofExcept, wp_blob, wp_text, wp_modify, implies_true, and_true]
  intro xs hxs
  have hd := h.keeps ((Keeps.withBlob d xs).trans (Keeps.withText _ f.name))
  exact hd.fieldDef ⟨namesText_withText .., ⟨xs, hxs, find?_withBlob_withText ..⟩, rfl⟩

theorem wp_methodDef_made (ms : List MethodDraft) (m : MethodDraft) (d : Draft) (h : Made fs ms ts d) :
    wp (methodDef m) (fun _ d' => Made fs (ms ++ [m]) ts d') (fun _ => True) d := by
  unfold methodDef
  simp only [wp_bind, wp_ofExcept, wp_blob, wp_text, wp_count, wp_modify, implies_true, and_true]
  intro xs hxs _
  have hd := h.keeps ((Keeps.withBlob d xs).trans (Keeps.withText _ m.name))
  exact hd.methodDef ⟨namesText_withText .., ⟨xs, hxs, find?_withBlob_withText ..⟩, rfl, rfl⟩

/-- A type definition that succeeds enters its members, then itself. -/
theorem wp_typeDef_made (t : TypeDraft) (h : Made fs ms ts d) :
    wp (typeDef t) (fun _ d' => Made (fs ++ (t.staticFields ++ t.instanceFields)) (ms ++ t.orderedMethods)
      (ts ++ [t]) d') (fun _ => True) d := by
  have hnoting {fs ms ts} {d : Draft} (h : Made fs ms ts d) (position : Nat) :
      Made fs ms ts (d.noting position) := h.keeps { Keeps.refl d with }
  rw [wp_typeDef_groups]
  refine wp_mono (wp_forM wp_fieldDef_made _ t.staticFields (hnoting h _)) (fun _ d₁ h₁ => ?_) (fun _ _ => trivial)
  refine wp_mono (wp_forM wp_fieldDef_made _ t.instanceFields (hnoting h₁ _)) (fun _ d₂ h₂ => ?_)
    (fun _ _ => trivial)
  rw [List.append_assoc] at h₂
  refine wp_mono (wp_forM wp_methodDef_made _ t.orderedMethods (hnoting h₂ _)) (fun _ d₃ h₃ => ?_)
    (fun _ _ => trivial)
  simp only [typeRecord, wp_bind, wp_get, wp_reference, wp_text, wp_count, wp_modify, implies_true, and_true]
  intro hv hi hs hsf hif
  have hname := namesText_withText d₃ t.name
  have hnames := Keeps.withText (d₃.withText t.name) t.nameSpace
  refine hnoting (Made.typeDef (h₃.keeps ((Keeps.withText d₃ t.name).trans hnames)) ?_) _
  simp only [List.countP_eq_length_filter] at hv hi hs
  exact {
    name := hname.mono hnames.toRemembers
    nameSpace := namesText_withText ..
    flags := rfl
    base := rfl
    enclosing := rfl
    virtualMethods := by simp only [List.countP_eq_length_filter, UInt8.toNat_ofNat_of_lt' hv]
    instanceMethods := by simp only [List.countP_eq_length_filter, UInt8.toNat_ofNat_of_lt' hi]
    staticMethods := by simp only [List.countP_eq_length_filter, UInt8.toNat_ofNat_of_lt' hs]
    staticFields := UInt8.toNat_ofNat_of_lt' hsf
    instanceFields := UInt8.toNat_ofNat_of_lt' hif }

end Drafting

def Draft.Step.types : Draft.Step → List TypeDraft
  | .typeDef type => [type]
  | _ => []

def TypeDraft.orderedFields (t : TypeDraft) : List FieldDraft := t.staticFields ++ t.instanceFields

namespace Draft

/-- The definitions are those that these types declare. -/
abbrev MadeFrom (types : List TypeDraft) (d : Draft) : Prop :=
  Made (types.flatMap TypeDraft.orderedFields) (types.flatMap TypeDraft.orderedMethods) types d

namespace MadeFrom
variable {types : List TypeDraft} {d : Draft}

theorem apply (h : d.MadeFrom types) (step : Step)
    (hstep : ∀ type, step = .typeDef type → ∃ index, (d.apply step).1 = .ok index) :
    (d.apply step).2.MadeFrom (types ++ step.types) := by
  by_cases ht : ∃ type, step = .typeDef type
  · obtain ⟨type, rfl⟩ := ht
    obtain ⟨index, hindex⟩ := hstep type rfl
    have hmade := Drafting.wp_ok (Drafting.wp_typeDef_made type h) (perform_of_apply hindex)
    unfold MadeFrom
    rw [Step.types, List.flatMap_append, List.flatMap_append, List.flatMap_singleton, List.flatMap_singleton]
    exact hmade
  · have hnone : step.types = [] := by
      cases step <;> first | rfl | exact absurd ⟨_, rfl⟩ ht
    rw [hnone, List.append_nil]
    exact h.keeps (apply_of_follows (Drafting.follows_perform_of_ne fun type hs => ht ⟨type, hs⟩) d)

theorem applyAll (h : d.MadeFrom types) (steps : List Step)
    (hsteps : ∀ (i : Nat) type, steps[i]? = some (.typeDef type) →
      ∃ index, (d.applyAll steps).1[i]? = some (.ok index)) :
    (d.applyAll steps).2.MadeFrom (types ++ steps.flatMap Step.types) := by
  induction steps generalizing d types with
  | nil =>
    rw [List.flatMap_nil, List.append_nil]
    exact h
  | cons step steps ih =>
    rw [List.flatMap_cons, ← List.append_assoc]
    refine ih (h.apply step fun type ht => ?_) fun i type ht => ?_
    · obtain ⟨index, hindex⟩ := hsteps 0 type (congrArg some ht)
      exact ⟨index, Option.some.inj hindex⟩
    · exact hsteps (i + 1) type ht

end MadeFrom

end Draft

section
variable {α β γ δ : Type} {R : α → β → Prop}

theorem forall₂_append {xs xs' : List α} {ys ys' : List β} (hlen : xs.length = ys.length)
    (h : List.Forall₂ R (xs ++ xs') (ys ++ ys')) : List.Forall₂ R xs ys ∧ List.Forall₂ R xs' ys' := by
  have htake := List.forall₂_take ys.length h
  have hdrop := List.forall₂_drop ys.length h
  rw [List.take_left' hlen, List.take_left] at htake
  rw [List.drop_left' hlen, List.drop_left] at hdrop
  exact ⟨htake, hdrop⟩

/-- Lists laid together from pieces of the same lengths correspond piece by piece. -/
theorem forall₂_of_flatMap {f : γ → List α} {g : δ → List β} {cs : List γ} {ds : List δ}
    (h : List.Forall₂ R (cs.flatMap f) (ds.flatMap g))
    (hlen : List.Forall₂ (fun c d => (f c).length = (g d).length) cs ds) :
    List.Forall₂ (fun c d => List.Forall₂ R (f c) (g d)) cs ds := by
  induction hlen with
  | nil => exact .nil
  | cons hl _ ih =>
    rw [List.flatMap_cons, List.flatMap_cons] at h
    obtain ⟨hfirst, hrest⟩ := forall₂_append hl h
    exact .cons hfirst (ih hrest)

theorem forall₂_range {xs : List α} {rows : Array β} (h : List.Forall₂ R xs rows.toList) :
    List.Forall₂ (fun i x => ∃ row, rows[i]? = some row ∧ R x row) (List.range rows.size) xs := by
  have hlen : rows.size = xs.length := by rw [h.length_eq, Array.length_toList]
  refine List.forall₂_iff_get.2 ⟨by rw [List.length_range, hlen], fun i hi hx => ?_⟩
  rw [List.length_range] at hi
  refine ⟨rows[i], ?_, h.get hx (Array.length_toList ▸ hi)⟩
  rw [List.get_eq_getElem, List.getElem_range]
  exact Array.getElem?_eq_getElem hi

end

namespace TypeDef

theorem toList_methods (t : TypeDef) :
    t.methods.toList = t.virtualMethods.toList ++ t.instanceMethods.toList ++ t.staticMethods.toList := by
  simp only [IndexRange.toList, methods, methodCount, virtualMethods, instanceMethods, staticMethods,
    IndexRange.stop, List.range'_append_1]
  rw [Nat.add_assoc t.methodsFirst.toNat, List.range'_append_1]

end TypeDef

namespace Assembly

/-- The method at a position was entered from this declaration and belongs to this type. -/
structure HasMethod (a : Assembly) (d : Draft) (index position : Nat) (m : MethodDraft) : Prop where
  owner : ∃ owner, a.methodOwner? position = some owner ∧ owner.toNat = index
  row : ∃ row, a.get MethodDef position = .ok row ∧ d.EntersMethod m row

structure HasField (a : Assembly) (d : Draft) (index position : Nat) (f : FieldDraft) : Prop where
  owner : ∃ owner, a.fieldOwner? position = some owner ∧ owner.toNat = index
  row : ∃ row, a.get FieldDef position = .ok row ∧ d.EntersField f row

/-- The record of a type is that of a declaration, and each of its ranges holds exactly the members that
were declared for it, in order. -/
structure Declares (a : Assembly) (d : Draft) (index : Nat) (record : TypeDef) (t : TypeDraft) : Prop where
  entered : d.EntersType t record
  virtualMethods : List.Forall₂ (a.HasMethod d index) record.virtualMethods.toList
    (t.methods.filter fun m => !m.flags.isStatic && m.flags.isVirtual)
  instanceMethods : List.Forall₂ (a.HasMethod d index) record.instanceMethods.toList
    (t.methods.filter fun m => !m.flags.isStatic && !m.flags.isVirtual)
  staticMethods : List.Forall₂ (a.HasMethod d index) record.staticMethods.toList
    (t.methods.filter fun m => m.flags.isStatic)
  staticFields : List.Forall₂ (a.HasField d index) record.staticFields.toList t.staticFields
  instanceFields : List.Forall₂ (a.HasField d index) record.instanceFields.toList t.instanceFields

end Assembly

namespace Draft
variable {d : Draft} {header : Header} {data : Bytes} {a : Assembly} {layout : BaseLayout}

/-- In the image of a draft whose ranges tile, each field belongs to the type that was added with it. -/
theorem Tiled.fieldOwner? (ht : d.Tiled) (h : d.Closes header data)
    (hload : Assembly.load layout data = .ok a) {index field : Nat} {t : TypeDef}
    (hindex : d.typeDefs.toList[index]? = some t)
    (hfield : field ∈ t.staticFields ∨ field ∈ t.instanceFields) :
    a.fieldOwner? field = some (UInt16.ofNat index) := by
  obtain ⟨types, htypes, hlast⟩ := Image.resolveOwners_last (Assembly.load_ok hload).2.1
  rw [h.toImage hload, h.holds.typeDefs.records_view] at htypes
  cases htypes
  have hmem : ∀ t : TypeDef, field ∈ t.staticFields ∨ field ∈ t.instanceFields →
      field ∈ t.staticFields.toList ++ t.instanceFields.toList := fun t ht =>
    List.mem_append.2 (ht.imp IndexRange.mem_toList.2 IndexRange.mem_toList.2)
  refine (hlast.fields field).eq_of_nodup hmem ?_ hindex hfield
  rw [ht.fields]
  exact List.nodup_range

theorem Tiled.toNat_index (ht : d.Tiled) {index : Nat} {t : TypeDef}
    (hindex : d.typeDefs.toList[index]? = some t) : (UInt16.ofNat index).toNat = index := by
  have hlt := (List.getElem?_eq_some_iff.1 hindex).1
  rw [Array.length_toList] at hlt
  exact UInt16.toNat_ofNat_of_lt' (Nat.lt_of_lt_of_le hlt (Nat.le_succ_of_le ht.typeDefs))

namespace MadeFrom
variable {types : List TypeDraft} {index : Nat} {record : TypeDef} {t : TypeDraft}

/-- The methods of a type are those that it was declared with, and belong to it. -/
theorem hasMethods (hm : d.MadeFrom types) (ht : d.Tiled) (h : d.Closes header data)
    (hload : Assembly.load layout data = .ok a) (hrecord : d.typeDefs.toList[index]? = some record)
    (htype : types[index]? = some t) :
    List.Forall₂ (a.HasMethod d index) record.methods.toList t.orderedMethods := by
  have hlengths : List.Forall₂ (fun (record : TypeDef) (t : TypeDraft) =>
      record.methods.toList.length = t.orderedMethods.length) d.typeDefs.toList types := by
    refine hm.types.flip.imp fun record t hr => ?_
    simp only [IndexRange.toList, TypeDef.methods, List.length_range', TypeDef.methodCount,
      hr.virtualMethods, hr.instanceMethods, hr.staticMethods, TypeDraft.orderedMethods, List.length_append]
  -- the whole tables correspond; both are cut where one type ends and the next begins
  have hall := forall₂_range hm.methods
  rw [← ht.methods] at hall
  obtain ⟨hlt, rfl⟩ := List.getElem?_eq_some_iff.1 hrecord
  obtain ⟨hlt', rfl⟩ := List.getElem?_eq_some_iff.1 htype
  have hown := (forall₂_of_flatMap hall hlengths).get hlt hlt'
  refine List.Forall₂.imp (fun i m him => ?_) ((List.forall₂_and_left _ _).2 ⟨fun i hi => hi, hown⟩)
  obtain ⟨hi, row, hrow, henters⟩ := him
  have howner := ht.methodOwner? h hload hrecord (IndexRange.mem_toList.1 hi)
  obtain ⟨hbound, rfl⟩ := Array.getElem?_eq_some_iff.1 hrow
  refine ⟨⟨_, howner, ht.toNat_index hrecord⟩, _, ?_, henters⟩
  rw [h.toImage hload]
  exact h.holds.methodDefs.get_view hbound

/-- The fields of a type are those that it was declared with, and belong to it. -/
theorem hasFields (hm : d.MadeFrom types) (ht : d.Tiled) (h : d.Closes header data)
    (hload : Assembly.load layout data = .ok a) (hrecord : d.typeDefs.toList[index]? = some record)
    (htype : types[index]? = some t) :
    List.Forall₂ (a.HasField d index) (record.staticFields.toList ++ record.instanceFields.toList)
      t.orderedFields := by
  have hlengths : List.Forall₂ (fun (record : TypeDef) (t : TypeDraft) =>
      (record.staticFields.toList ++ record.instanceFields.toList).length = t.orderedFields.length)
      d.typeDefs.toList types := by
    refine hm.types.flip.imp fun record t hr => ?_
    simp only [IndexRange.toList, TypeDef.staticFields, TypeDef.instanceFields, List.length_append,
      List.length_range', hr.staticFields, hr.instanceFields, TypeDraft.orderedFields]
  have hall := forall₂_range hm.fields
  rw [← ht.fields] at hall
  obtain ⟨hlt, rfl⟩ := List.getElem?_eq_some_iff.1 hrecord
  obtain ⟨hlt', rfl⟩ := List.getElem?_eq_some_iff.1 htype
  have hown := (forall₂_of_flatMap hall hlengths).get hlt hlt'
  refine List.Forall₂.imp (fun i f hif => ?_) ((List.forall₂_and_left _ _).2 ⟨fun i hi => hi, hown⟩)
  obtain ⟨hi, row, hrow, henters⟩ := hif
  have hi := (List.mem_append.1 hi).imp IndexRange.mem_toList.1 IndexRange.mem_toList.1
  have howner := ht.fieldOwner? h hload hrecord hi
  obtain ⟨hbound, rfl⟩ := Array.getElem?_eq_some_iff.1 hrow
  refine ⟨⟨_, howner, ht.toNat_index hrecord⟩, _, ?_, henters⟩
  rw [h.toImage hload]
  exact h.holds.fieldDefs.get_view hbound

theorem declares (hm : d.MadeFrom types) (ht : d.Tiled) (h : d.Closes header data)
    (hload : Assembly.load layout data = .ok a) (hrecord : d.typeDefs.toList[index]? = some record)
    (htype : types[index]? = some t) : a.Declares d index record t := by
  have hmethods := hm.hasMethods ht h hload hrecord htype
  have hfields := hm.hasFields ht h hload hrecord htype
  have hr : d.EntersType t record := by
    obtain ⟨hlt, rfl⟩ := List.getElem?_eq_some_iff.1 hrecord
    obtain ⟨hlt', rfl⟩ := List.getElem?_eq_some_iff.1 htype
    exact hm.types.get hlt' hlt
  have hvirtual : record.virtualMethods.toList.length = (t.methods.filter MethodDraft.isVirtual).length := by
    rw [IndexRange.toList, List.length_range', ← hr.virtualMethods, TypeDef.virtualMethods]
  have hinstance : record.instanceMethods.toList.length =
      (t.methods.filter MethodDraft.isInstance).length := by
    rw [IndexRange.toList, List.length_range', ← hr.instanceMethods, TypeDef.instanceMethods]
  have hstatic : record.staticFields.toList.length = t.staticFields.length := by
    rw [IndexRange.toList, List.length_range', ← hr.staticFields, TypeDef.staticFields]
  rw [TypeDef.toList_methods, TypeDraft.orderedMethods] at hmethods
  obtain ⟨hobject, hstaticMethods⟩ := forall₂_append
    (by rw [List.length_append, List.length_append, hvirtual, hinstance]) hmethods
  obtain ⟨hvirtualMethods, hinstanceMethods⟩ := forall₂_append hvirtual hobject
  obtain ⟨hstaticFields, hinstanceFields⟩ := forall₂_append hstatic hfields
  exact {
    entered := hr
    virtualMethods := hvirtualMethods
    instanceMethods := hinstanceMethods
    staticMethods := hstaticMethods
    staticFields := hstaticFields
    instanceFields := hinstanceFields }

end MadeFrom

/-- Where every type definition succeeded, the ranges of the types run through the members in order, and
each type owns exactly the members that it was added with. -/
theorem members_lie_with_their_types {name : String} {version : Version} {steps : List Step}
    (htypes : ∀ (i : Nat) type, steps[i]? = some (.typeDef type) →
      ∃ index, ((named name version).applyAll steps).1[i]? = some (.ok index))
    (himage : (built name version steps).image = .ok data) (hload : Assembly.load layout data = .ok a) :
    ∃ records, a.records TypeDef = .ok records ∧
      records.flatMap (fun t => t.methods.toList) = List.range a.methodCount ∧
      records.flatMap (fun t => t.staticFields.toList ++ t.instanceFields.toList) =
        List.range a.fieldCount ∧
      records.length = (steps.flatMap Step.types).length ∧
      ∀ (index : Nat) record t, records[index]? = some record → (steps.flatMap Step.types)[index]? = some t →
        a.Declares (built name version steps) index record t := by
  obtain ⟨header, hc⟩ := closes_of_image himage
  have htiled : (built name version steps).Tiled :=
    (Tiled.named name version).applyAll steps htypes ((extends_closed _).overflow hc.overflow)
  have hnone : (named name version).MadeFrom [] := Made.named name version
  have hmade : (built name version steps).MadeFrom (steps.flatMap Step.types) :=
    hnone.applyAll steps htypes
  have hview := hc.toImage hload
  have hmethods : a.methodCount = (built name version steps).methodDefs.size := by
    rw [Image.methodCount, hview]
    exact hc.holds.methodDefs.count_view
  have hfields : a.fieldCount = (built name version steps).fieldDefs.size := by
    rw [Image.fieldCount, hview]
    exact hc.holds.fieldDefs.count_view
  refine ⟨(built name version steps).typeDefs.toList, ?_, ?_, ?_, hmade.types.length_eq.symm, ?_⟩
  · rw [hview]
    exact hc.holds.typeDefs.records_view
  · rw [hmethods]
    exact htiled.methods
  · rw [hfields]
    exact htiled.fields
  · exact fun index record t => hmade.declares htiled hc hload

/-- The static method of the first type comes last in its range although it was added first. -/
theorem members_lie_with_their_types_home :
    ∃ lamp switch hub, homeDraft.image = .ok homeImage ∧ Assembly.load .bare homeImage = .ok home ∧
      home.records TypeDef = .ok [lamp, switch, hub] ∧
      home.Declares homeDraft 0 lamp homeLamp ∧ lamp.virtualMethods.toList = [0] ∧
      lamp.instanceMethods.toList = [1] ∧ lamp.staticMethods.toList = [2] ∧ lamp.staticFields.toList = [0] ∧
      lamp.instanceFields.toList = [1] ∧
      home.Declares homeDraft 1 switch homeSwitch ∧ home.Declares homeDraft 2 hub homeHub ∧
      hub.staticMethods.toList = [4] ∧ hub.instanceFields.toList = [2] := by
  obtain ⟨records, hrecords, -, -, hlength, hdeclares⟩ :=
    members_lie_with_their_types types_home image_home load_home
  obtain ⟨lamp, switch, hub, rfl⟩ := List.length_eq_three.1 hlength
  obtain ⟨-, hget⟩ := mapM_range_eq_ok.1 hrecords
  have hlamp := hget 0 (show 0 < 3 by decide)
  have hhub := hget 2 (show 2 < 3 by decide)
  cases (of_home (i := 0) (by decide)).record.symm.trans hlamp
  cases (of_home (i := 2) (by decide)).record.symm.trans hhub
  exact ⟨_, switch, _, image_home, load_home, hrecords, hdeclares 0 _ _ rfl rfl, rfl, rfl, rfl, rfl, rfl,
    hdeclares 1 switch _ rfl rfl, hdeclares 2 _ _ rfl rfl, rfl, rfl⟩

end Draft

end CompactAssembly
