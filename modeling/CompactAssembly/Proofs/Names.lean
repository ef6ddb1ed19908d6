import CompactAssembly.Proofs.SignatureHeap

/-!
# Names of a run

A text is stored with a zero byte behind it, and may have zero bytes of its own: what reads back is the text
before the first one (`Bytes.text_of_holdsAt`). `Draft.Named d`: the pool of strings remembers each text where
the heap holds it, and every name in a row is such a text or none. Whatever steps do, failed or not, they keep
this (`Drafting.follows_names`), so every name in an image of a draft resolves.
-/

namespace CompactAssembly

def Text.untilZero (value : String) : String := String.ofList (value.toList.takeWhile (· ≠ '\x00'))

theorem zero_mem_utf8EncodeChar {c : Char} (h : (0 : UInt8) ∈ String.utf8EncodeChar c) : c = '\x00' := by
  have hpos : ∀ n, 0 < n → n < 256 → (0 : UInt8) ≠ UInt8.ofNat n := by
    intro n hpos hlt h
    have := congrArg UInt8.toNat h
    rw [UInt8.toNat_ofNat_of_lt' hlt] at this
    exact absurd this (Nat.ne_of_lt hpos)
  by_contra hc
  have hval : 0 < c.val.toNat :=
    Nat.pos_of_ne_zero fun hzero => hc (Char.ext (UInt32.toNat_inj.1 hzero))
  unfold String.utf8EncodeChar at h
  dsimp only at h
  -- a character of several bytes has the top bit set in each of them
  split at h
  · exact hpos _ hval (by omega) (List.mem_singleton.1 h)
  split at h
  · simp only [List.mem_cons, List.not_mem_nil, or_false] at h
    rcases h with h | h <;> exact hpos _ (by omega) (by omega) h
  split at h
  · simp only [List.mem_cons, List.not_mem_nil, or_false] at h
    rcases h with h | h | h <;> exact hpos _ (by omega) (by omega) h
  · simp only [List.mem_cons, List.not_mem_nil, or_false] at h
    rcases h with h | h | h | h <;> exact hpos _ (by omega) (by omega) h

theorem zero_not_mem_untilZero (value : String) :
    (0 : UInt8) ∉ (value.toList.takeWhile (· ≠ '\x00')).flatMap String.utf8EncodeChar := by
  intro h
  obtain ⟨c, hc, hzero⟩ := List.mem_flatMap.1 h
  have hne := List.mem_takeWhile_imp hc
  exact absurd (zero_mem_utf8EncodeChar hzero) (by simpa using hne)

theorem utf8_eq_flatMap (value : String) :
    value.toUTF8.data.toList = value.toList.flatMap String.utf8EncodeChar := by
  rw [String.toUTF8, ← String.utf8Encode_toList, List.utf8Encode, List.data_toByteArray]

theorem exists_utf8_untilZero (value : String) :
    ∃ rest, value.toUTF8.data.toList ++ [0] =
      (value.toList.takeWhile (· ≠ '\x00')).flatMap String.utf8EncodeChar ++ 0 :: rest := by
  rw [utf8_eq_flatMap]
  induction value.toList with
  | nil => exact ⟨[], rfl⟩
  | cons c cs ih =>
    obtain ⟨rest, hrest⟩ := ih
    by_cases hc : c = '\x00'
    · subst hc
      exact ⟨cs.flatMap String.utf8EncodeChar ++ [0], rfl⟩
    · refine ⟨rest, ?_⟩
      rw [List.takeWhile_cons_of_pos (by simpa using hc), List.flatMap_cons, List.flatMap_cons,
        List.append_assoc, hrest, List.append_assoc]

theorem fromUTF8?_utf8Encode (cs : List Char) : String.fromUTF8? cs.utf8Encode = some (String.ofList cs) := by
  unfold String.fromUTF8?
  rw [dif_pos (.intro cs rfl)]
  rfl

namespace Bytes
variable {data heap heap' : Bytes} {pos room : Nat} {xs : List UInt8} {index : UInt16} {value : String}

theorem terminator?_eq {rest : List UInt8} (h : data.HoldsAt pos (xs ++ 0 :: rest)) (hxs : 0 ∉ xs)
    (hroom : xs.length < room) : data.terminator? room pos = some (pos + xs.length) := by
  induction xs generalizing pos room with
  | nil =>
    obtain ⟨room, rfl⟩ := Nat.exists_eq_add_one_of_ne_zero (Nat.ne_zero_of_lt hroom)
    rw [terminator?, h.head, if_pos rfl]
    rfl
  | cons x xs ih =>
    obtain ⟨room, rfl⟩ := Nat.exists_eq_add_one_of_ne_zero (Nat.ne_zero_of_lt hroom)
    have hne : some x ≠ some 0 := fun hx => hxs (Option.some.inj hx ▸ List.mem_cons_self)
    rw [terminator?, h.head, if_neg hne, ih h.tail (fun hx => hxs (List.mem_cons_of_mem _ hx))
      (Nat.lt_of_succ_lt_succ hroom), List.length_cons, Nat.add_assoc, Nat.add_comm 1]

theorem text_of_holdsAt (h : heap.HoldsAt index.toNat (value.toUTF8.data.toList ++ [0]))
    (hindex : index ≠ noReference) : heap.text index = .ok (Text.untilZero value) := by
  obtain ⟨rest, hrest⟩ := exists_utf8_untilZero value
  rw [hrest] at h
  have hsize := h.le_size
  rw [List.length_append, List.length_cons] at hsize
  have hbuiltin : builtinText? index heap.size = none := if_pos (.inr (.inr (by omega)))
  have hstop : heap.terminator? (heap.size - index.toNat) index.toNat = some _ :=
    terminator?_eq h (zero_not_mem_untilZero value) (by omega)
  have hbytes : (⟨heap.extract index.toNat (index.toNat +
      ((value.toList.takeWhile (· ≠ '\x00')).flatMap String.utf8EncodeChar).length)⟩ : ByteArray) =
        (value.toList.takeWhile (· ≠ '\x00')).utf8Encode :=
    ByteArray.ext (by rw [(holdsAt_append.1 h).1.extract, List.utf8Encode, List.data_toByteArray])
  unfold text
  rw [if_neg hindex, hbuiltin]
  simp only [hstop, hbytes, fromUTF8?_utf8Encode]
  rw [if_pos (by omega)]
  rfl

/-- Under this reference there is a text in the heap, or it names nothing. -/
def Names (heap : Bytes) (index : UInt16) : Prop :=
  index = noReference ∨ ∃ value : String, heap.HoldsAt index.toNat (value.toUTF8.data.toList ++ [0])

namespace Names

theorem grow (h : heap.Names index) (hheap : heap.toList <+: heap'.toList) : heap'.Names index := by
  rcases h with h | ⟨value, h⟩
  · exact .inl h
  · exact .inr ⟨value, h.grow hheap⟩

theorem exists_text (h : heap.Names index) : ∃ text, heap.text index = .ok text := by
  by_cases hindex : index = noReference
  · exact ⟨"", if_pos hindex⟩
  · rcases h with h | ⟨value, h⟩
    · exact absurd h hindex
    · exact ⟨_, text_of_holdsAt h hindex⟩

end Names

end Bytes

namespace Draft

/-- Every text that the pool remembers is in the heap, and every name in a row is one. -/
structure Named (d : Draft) : Prop where
  places : ∀ value index, d.strings.find? value = some index → d.strings.heap.Names index
  assemblyRefs : ∀ r ∈ d.assemblyRefs, d.strings.heap.Names r.name
  typeRefs : ∀ r ∈ d.typeRefs, d.strings.heap.Names r.name ∧ d.strings.heap.Names r.nameSpace
  fieldRefs : ∀ r ∈ d.fieldRefs, d.strings.heap.Names r.name
  methodRefs : ∀ r ∈ d.methodRefs, d.strings.heap.Names r.name
  typeDefs : ∀ t ∈ d.typeDefs, d.strings.heap.Names t.name ∧ d.strings.heap.Names t.nameSpace
  fieldDefs : ∀ f ∈ d.fieldDefs, d.strings.heap.Names f.name
  methodDefs : ∀ m ∈ d.methodDefs, d.strings.heap.Names m.name
  resourceFiles : ∀ r ∈ d.resourceFiles, d.strings.heap.Names r.name

namespace Named
variable {d : Draft} {value : String}

theorem named (name : String) (version : Version) : (Draft.named name version).Named where
  places value index h := by
    simp [Draft.named, Pool.find?, Pool.empty] at h
  assemblyRefs := nofun
  typeRefs := nofun
  fieldRefs := nofun
  methodRefs := nofun
  typeDefs := nofun
  fieldDefs := nofun
  methodDefs := nofun
  resourceFiles := nofun

/-- A text that was interned is in the heap; if its reference overflowed, that names nothing. -/
theorem names_textReference (h : d.Named) (value : String) :
    (d.withText value).strings.heap.Names (d.textReference value) := by
  unfold Draft.withText textReference
  by_cases hempty : value.isEmpty = true
  · rw [if_pos (.inl hempty), if_pos hempty]
    exact .inl rfl
  · rw [if_neg hempty]
    cases hf : d.strings.find? value with
    | some index =>
      rw [if_pos (.inr rfl)]
      exact h.places value index hf
    | none =>
      rw [if_neg (by simp [hempty])]
      by_cases hfit : d.strings.heap.size < 0xFFFF
      · refine .inr ⟨value, ?_⟩
        rw [Option.getD_none, toNat_referenceFor hfit]
        exact Bytes.holdsAt_size_append ..
      · exact .inl (if_neg hfit)

theorem withText (h : d.Named) (value : String) : (d.withText value).Named := by
  have hplace := h.names_textReference value
  have hheap := (Extends.withText d value).strings
  unfold Draft.withText textReference at *
  split
  · exact h
  · next hnew =>
    obtain ⟨hempty, hf⟩ := not_or.1 hnew
    rw [Option.not_isSome_iff_eq_none] at hf
    simp only [hempty, hf, Option.isSome_none, Bool.false_eq_true, or_self, ↓reduceIte, Option.getD_none]
      at hplace hheap
    exact {
      places := Pool.forall_find?_insert hplace fun other index hother => (h.places other index hother).grow hheap
      assemblyRefs := fun r hr => (h.assemblyRefs r hr).grow hheap
      typeRefs := fun r hr => ⟨(h.typeRefs r hr).1.grow hheap, (h.typeRefs r hr).2.grow hheap⟩
      fieldRefs := fun r hr => (h.fieldRefs r hr).grow hheap
      methodRefs := fun r hr => (h.methodRefs r hr).grow hheap
      typeDefs := fun t ht => ⟨(h.typeDefs t ht).1.grow hheap, (h.typeDefs t ht).2.grow hheap⟩
      fieldDefs := fun f hf => (h.fieldDefs f hf).grow hheap
      methodDefs := fun m hm => (h.methodDefs m hm).grow hheap
      resourceFiles := fun r hr => (h.resourceFiles r hr).grow hheap }

theorem withBlob (h : d.Named) (value : List UInt8) : (d.withBlob value).Named := by
  obtain ⟨signatures, overflow, hd⟩ := d.withBlob_eq value
  rw [hd]
  exact { h with }

/-! Each row comes with names that are in the heap. -/

theorem assemblyRef (h : d.Named) {row : AssemblyRef} (hname : d.strings.heap.Names row.name) :
    Named { d with assemblyRefs := d.assemblyRefs.push row } :=
  { h with assemblyRefs := Array.forall_mem_push.2 ⟨hname, h.assemblyRefs⟩ }

theorem typeRef (h : d.Named) {row : TypeRef} (hname : d.strings.heap.Names row.name)
    (hnameSpace : d.strings.heap.Names row.nameSpace) : Named { d with typeRefs := d.typeRefs.push row } :=
  { h with typeRefs := Array.forall_mem_push.2 ⟨⟨hname, hnameSpace⟩, h.typeRefs⟩ }

theorem fieldRef (h : d.Named) {row : FieldRef} (hname : d.strings.heap.Names row.name) :
    Named { d with fieldRefs := d.fieldRefs.push row } :=
  { h with fieldRefs := Array.forall_mem_push.2 ⟨hname, h.fieldRefs⟩ }

theorem methodRef (h : d.Named) {row : MethodRef} (hname : d.strings.heap.Names row.name) :
    Named { d with methodRefs := d.methodRefs.push row } :=
  { h with methodRefs := Array.forall_mem_push.2 ⟨hname, h.methodRefs⟩ }

theorem typeDef (h : d.Named) {row : TypeDef} (hname : d.strings.heap.Names row.name)
    (hnameSpace : d.strings.heap.Names row.nameSpace) : Named { d with typeDefs := d.typeDefs.push row } :=
  { h with typeDefs := Array.forall_mem_push.2 ⟨⟨hname, hnameSpace⟩, h.typeDefs⟩ }

theorem fieldDef (h : d.Named) {row : FieldDef} (hname : d.strings.heap.Names row.name) :
    Named { d with fieldDefs := d.fieldDefs.push row } :=
  { h with fieldDefs := Array.forall_mem_push.2 ⟨hname, h.fieldDefs⟩ }

theorem methodDef (h : d.Named) {row : MethodDef} (hname : d.strings.heap.Names row.name) :
    Named { d with methodDefs := d.methodDefs.push row } :=
  { h with methodDefs := Array.forall_mem_push.2 ⟨hname, h.methodDefs⟩ }

theorem resourceFile (h : d.Named) {row : ResourceFile} (hname : d.strings.heap.Names row.name) :
    Named { d with resourceFiles := d.resourceFiles.push row } :=
  { h with resourceFiles := Array.forall_mem_push.2 ⟨hname, h.resourceFiles⟩ }

end Named

def KeepsNames (d d' : Draft) : Prop := d.Named → d'.Named

instance : Lasting KeepsNames where
  refl _ h := h
  trans h h' hd := h' (h hd)
  noting _ _ h := { h with }
  withText _ value h := h.withText value
  withBlob _ value h := h.withBlob value

end Draft

namespace Drafting
open Draft

theorem follows_fieldDef_names (f : FieldDraft) : Follows KeepsNames (fieldDef f) := by
  intro d
  unfold fieldDef
  simp only [wp_bind, wp_ofExcept, wp_blob, wp_text, wp_modify]
  refine ⟨fun xs _ h => ?_, fun _ _ h => h⟩
  have hd := h.withBlob xs
  exact (hd.withText f.name).fieldDef (hd.names_textReference f.name)

theorem follows_methodDef_names (m : MethodDraft) : Follows KeepsNames (methodDef m) := by
  intro d
  unfold methodDef
  simp only [wp_bind, wp_ofExcept, wp_blob, wp_text, wp_count, wp_modify]
  refine ⟨fun xs _ => ⟨fun _ h => ?_, fun _ h => ?_⟩, fun _ _ h => h⟩
  · have hd := h.withBlob xs
    exact (hd.withText m.name).methodDef (hd.names_textReference m.name)
  · exact (h.withBlob xs).withText m.name

theorem follows_typeDef_names (t : TypeDraft) : Follows KeepsNames (typeDef t) := by
  refine follows_typeDef_of follows_fieldDef_names follows_methodDef_names fun _ _ _ d => ?_
  have hinterned : KeepsNames d ((d.withText t.name).withText t.nameSpace) := fun h =>
    (h.withText t.name).withText t.nameSpace
  simp only [typeRecord, wp_bind, wp_get, wp_reference, wp_text, wp_count, wp_modify, hinterned, implies_true,
    and_true]
  intro _ _ _ _ _ h
  have hd := h.withText t.name
  have hname := (h.names_textReference t.name).grow (Extends.withText _ t.nameSpace).strings
  exact { (hd.withText t.nameSpace).typeDef hname (hd.names_textReference t.nameSpace) with }

/-- No step, failed or not, leaves a row with a name that is not in the heap. -/
theorem follows_names (step : Step) : Follows KeepsNames step.perform := by
  cases step with
  | text value => exact .text value
  | blob value => exact .blob value
  | body code => exact follows_body_of fun d h => { h with }
  | assemblyRef name version =>
    intro d
    simp only [Step.perform, assemblyRef, wp_bind, wp_text, wp_modify, wp_get, wp_reference]
    intro h
    exact { (h.withText name).assemblyRef (h.names_textReference name) with }
  | typeRef nameSpace name scope =>
    intro d
    simp only [Step.perform, typeRef, wp_bind, wp_text, wp_modify, wp_get, wp_reference]
    intro h
    have hd := h.withText name
    have hname := (h.names_textReference name).grow (Extends.withText _ nameSpace).strings
    exact { (hd.withText nameSpace).typeRef hname (hd.names_textReference nameSpace) with }
  | fieldRef container name type =>
    intro d
    simp only [Step.perform, fieldRef, wp_bind, wp_ofExcept, wp_blob, wp_text, wp_modify, wp_get, wp_reference]
    refine ⟨fun xs _ h => ?_, fun _ _ h => h⟩
    have hd := h.withBlob xs
    exact { (hd.withText name).fieldRef (hd.names_textReference name) with }
  | methodRef container name signature =>
    intro d
    simp only [Step.perform, methodRef, wp_bind, wp_ofExcept, wp_blob, wp_text, wp_modify, wp_get, wp_reference]
    refine ⟨fun xs _ h => ?_, fun _ _ h => h⟩
    have hd := h.withBlob xs
    exact { (hd.withText name).methodRef (hd.names_textReference name) with }
  | typeSpec type =>
    exact (Follows.ofExcept _).bind fun _ => (Follows.blob _).bind fun _ => .store (fun d h => { h with }) _
  | attach owner ownerIndex constructor data =>
    exact (Follows.blob _).bind fun _ => .store (fun d h => { h with }) _
  | resource id kind data =>
    exact (follows_resourceOffset fun d h => { h with }).bind fun _ => .store (fun d h => { h with }) _
  | resourceFile name resourceCount =>
    intro d
    simp only [Step.perform, resourceFile, wp_bind, wp_text, wp_modify, wp_get, wp_reference]
    intro h
    exact { (h.withText name).resourceFile (h.names_textReference name) with }
  | typeDef type => exact follows_typeDef_names type

end Drafting

namespace Draft

theorem Named.applyAll {d : Draft} (h : d.Named) (steps : List Step) : (d.applyAll steps).2.Named := by
  induction steps generalizing d with
  | nil => exact h
  | cons step steps ih => exact ih (apply_of_follows (Drafting.follows_names step) d h)

theorem named_built (name : String) (version : Version) (steps : List Step) :
    (built name version steps).Named := (Named.named name version).applyAll steps

end Draft

end CompactAssembly
