import CompactAssembly.Draft.Image

/-!
# Runs of steps on a draft

`wp m Q E d`: from `d`, the operation `m` ends with a value and a draft for which `Q` holds, or fails and
leaves a draft for which `E` holds. `Draft.Extends`: every table and heap of a draft is an initial part
of the one after it. No step takes anything back, whether it fails or not (`follows_perform`), so every
run only appends (`extends_applyAll`).
-/

namespace CompactAssembly

def referenceFor (position : Nat) : UInt16 :=
  if position < 0xFFFF then UInt16.ofNat position else noReference

theorem toNat_referenceFor {position : Nat} (h : position < 0xFFFF) :
    (referenceFor position).toNat = position := by
  rw [referenceFor, if_pos h]
  exact UInt16.toNat_ofNat_of_lt' (Nat.lt_trans h (by decide))

/-- The offset that is stored for a payload that starts here. -/
def offsetFor (start : Nat) : UInt32 := if start < 0x100000000 then UInt32.ofNat start else 0

theorem toNat_offsetFor {start : Nat} (h : start < 0x100000000) : (offsetFor start).toNat = start := by
  rw [offsetFor, if_pos h]
  exact UInt32.toNat_ofNat_of_lt' h

/-- The draft after a position was stored, which may have been an overflow. -/
def Draft.noting (d : Draft) (position : Nat) : Draft :=
  { d with overflow := d.overflow || decide (0xFFFF ≤ position) }

/-- Where a text is in the string heap, or where it will be. -/
def Draft.textReference (d : Draft) (value : String) : UInt16 :=
  if value.isEmpty then noReference
  else (d.strings.find? value).getD (referenceFor d.strings.heap.size)

def Draft.withText (d : Draft) (value : String) : Draft :=
  if value.isEmpty ∨ (d.strings.find? value).isSome then d
  else { d.noting d.strings.heap.size with
    strings := d.strings.insert value (value.toUTF8.data.toList ++ [0])
      (referenceFor d.strings.heap.size) }

/-- Where a blob is in the signature heap, or where it will be. -/
def Draft.blobReference (d : Draft) (value : List UInt8) : UInt16 :=
  (d.signatures.find? value).getD (referenceFor d.signatures.heap.size)

def Draft.withBlob (d : Draft) (value : List UInt8) : Draft :=
  if (d.signatures.find? value).isSome then d
  else { d.noting d.signatures.heap.size with
    signatures := d.signatures.insert value value (referenceFor d.signatures.heap.size) }

namespace Drafting
variable {α β : Type} {m : Drafting α} {Q Q' : α → Draft → Prop} {E E' : Draft → Prop} {d : Draft}

/-- Every outcome of an operation from a draft, with or without a value. -/
def wp (m : Drafting α) (Q : α → Draft → Prop) (E : Draft → Prop) (d : Draft) : Prop :=
  match m d with
  | .ok a d' => Q a d'
  | .error _ d' => E d'

theorem wp_mono (h : wp m Q E d) (hQ : ∀ a d', Q a d' → Q' a d') (hE : ∀ d', E d' → E' d') :
    wp m Q' E' d := by
  unfold wp at *
  split at h
  · exact hQ _ _ h
  · exact hE _ h

theorem wp_ok (h : wp m Q E d) {a : α} {d' : Draft} (hm : m d = .ok a d') : Q a d' := by
  simpa only [wp, hm] using h

@[simp] theorem wp_pure (a : α) : wp (pure a) Q E d = Q a d := rfl

@[simp] theorem wp_throw (fault : Fault) : wp (throw fault : Drafting α) Q E d = E d := rfl

@[simp] theorem wp_get {Q : Draft → Draft → Prop} : wp get Q E d = Q d d := rfl

@[simp] theorem wp_modify (f : Draft → Draft) {Q : Unit → Draft → Prop} :
    wp (modify f) Q E d = Q () (f d) := rfl

@[simp] theorem wp_bind {f : α → Drafting β} {Q : β → Draft → Prop} :
    wp (m >>= f) Q E d = wp m (fun a => wp (f a) Q E) E d := by
  show wp (EStateM.bind m f) Q E d = _
  unfold wp EStateM.bind
  cases m d <;> rfl

theorem wp_ofExcept {result : Except Fault α} :
    wp (ofExcept result) Q E d ↔
      (∀ a, result = .ok a → Q a d) ∧ (∀ fault, result = .error fault → E d) := by
  cases result <;> simp [ofExcept]

theorem wp_count {n : Nat} {Q : UInt8 → Draft → Prop} :
    wp (count n) Q E d ↔ (n < 256 → Q (UInt8.ofNat n) d) ∧ (256 ≤ n → E d) := by
  unfold count
  split
  · next h => simp [h, Nat.not_le.2 h]
  · next h => simp [h, Nat.le_of_not_lt h]

theorem run_reference (position : Nat) (d : Draft) :
    reference position d = .ok (referenceFor position) (d.noting position) := by
  unfold reference narrowReference referenceFor Draft.noting
  by_cases h : position < 0xFFFF
  · have : ¬ 0xFFFF ≤ position := Nat.not_le.2 h
    simp only [h, this, ↓reduceIte, decide_false, Bool.or_false]
    rfl
  · have : 0xFFFF ≤ position := Nat.le_of_not_lt h
    simp only [h, this, ↓reduceIte, decide_true, Bool.or_true]
    rfl

@[simp] theorem wp_reference {position : Nat} {Q : UInt16 → Draft → Prop} :
    wp (reference position) Q E d = Q (referenceFor position) (d.noting position) := by
  simp only [wp, run_reference]

/-- Asking for the place of a payload leaves the draft as it is, but for an overflow. -/
@[simp] theorem wp_resourceOffset {Q : UInt32 → Draft → Prop} :
    wp resourceOffset Q E d = Q (offsetFor d.resourcesData.size)
      { d with overflow := d.overflow || decide (0x100000000 ≤ d.resourcesData.size) } := by
  unfold resourceOffset narrowOffset offsetFor
  rw [wp_bind, wp_get]
  by_cases h : d.resourcesData.size < 0x100000000
  · simp only [h, Nat.not_le.2 h, ↓reduceIte, decide_false, Bool.or_false]
    rfl
  · simp only [h, Nat.le_of_not_lt h, ↓reduceIte, decide_true, Bool.or_true]
    rfl

theorem run_bind {m : Drafting α} {f : α → Drafting β} {a : α} {d d' : Draft} (h : m d = .ok a d') :
    (m >>= f) d = f a d' := by
  show EStateM.bind m f d = _
  simp only [EStateM.bind, h]

theorem run_text (value : String) (d : Draft) :
    text value d = .ok (d.textReference value) (d.withText value) := by
  unfold text Draft.textReference Draft.withText
  by_cases hv : value.isEmpty = true
  · simp only [hv, ↓reduceIte, true_or]
    rfl
  · simp only [hv, Bool.false_eq_true, ↓reduceIte, false_or]
    rw [run_bind (show (get : Drafting Draft) d = .ok d d from rfl)]
    cases hf : d.strings.find? value with
    | some index => simp; rfl
    | none =>
      simp only [Option.isSome_none, Bool.false_eq_true, ↓reduceIte, Option.getD_none]
      rw [run_bind (show (get : Drafting Draft) d = .ok d d from rfl), run_bind (run_reference _ d)]
      rfl

theorem run_blob (value : List UInt8) (d : Draft) :
    blob value d = .ok (d.blobReference value) (d.withBlob value) := by
  unfold blob Draft.blobReference Draft.withBlob
  rw [run_bind (show (get : Drafting Draft) d = .ok d d from rfl)]
  cases hf : d.signatures.find? value with
  | some index => simp; rfl
  | none =>
    simp only [Option.isSome_none, Bool.false_eq_true, ↓reduceIte, Option.getD_none]
    rw [run_bind (show (get : Drafting Draft) d = .ok d d from rfl), run_bind (run_reference _ d)]
    rfl

/-- A run over a list gets through it, or to the first element that fails. -/
theorem wp_forM_until {op : α → Drafting Unit} {P : List α → Draft → Prop} {F : List α → α → Draft → Prop}
    (hop : ∀ done a d, P done d → wp (op a) (fun _ d' => P (done ++ [a]) d') (fun d' => F done a d') d)
    (done as : List α) (h : P done d) :
    wp (as.forM op) (fun _ d' => P (done ++ as) d')
      (fun d' => ∃ before a after, as = before ++ a :: after ∧ F (done ++ before) a d') d := by
  induction as generalizing done d with
  | nil =>
    show P (done ++ []) d
    rwa [List.append_nil]
  | cons a as ih =>
    show wp (op a >>= fun _ => as.forM op) _ _ d
    rw [wp_bind]
    refine wp_mono (hop done a d h) (fun _ d₁ h₁ => ?_) (fun d₁ h₁ => ?_)
    · refine wp_mono (ih (done ++ [a]) h₁) (fun _ d₂ h₂ => ?_) fun d₂ ⟨before, b, after, has, h₂⟩ => ?_
      · rwa [List.append_cons]
      · exact ⟨a :: before, b, after, congrArg _ has, by rwa [List.append_cons]⟩
    · exact ⟨[], a, as, rfl, by rwa [List.append_nil]⟩

/-- What one operation keeps of the elements before it, a run over all of them keeps. -/
theorem wp_forM {op : α → Drafting Unit} {P : List α → Draft → Prop}
    (hop : ∀ done a d, P done d → wp (op a) (fun _ d' => P (done ++ [a]) d') (fun _ => True) d)
    (done as : List α) (h : P done d) :
    wp (as.forM op) (fun _ d' => P (done ++ as) d') (fun _ => True) d :=
  wp_mono (wp_forM_until hop done as h) (fun _ _ h => h) fun _ _ => trivial

@[simp] theorem wp_text {value : String} {Q : UInt16 → Draft → Prop} :
    wp (text value) Q E d = Q (d.textReference value) (d.withText value) := by
  simp only [wp, run_text]

@[simp] theorem wp_blob {value : List UInt8} {Q : UInt16 → Draft → Prop} :
    wp (blob value) Q E d = Q (d.blobReference value) (d.withBlob value) := by
  simp only [wp, run_blob]

/-- What a type definition does behind its members: names, counts and the record itself. -/
def typeRecord (t : TypeDraft) (staticFieldsFirst instanceFieldsFirst methodsFirst : UInt16) : Drafting UInt16 := do
  let name ← text t.name
  let nameSpace ← text t.nameSpace
  let virtualMethodCount ← count (t.methods.countP MethodDraft.isVirtual)
  let instanceMethodCount ← count (t.methods.countP MethodDraft.isInstance)
  let staticMethodCount ← count (t.methods.countP MethodDraft.isStatic)
  let staticFieldCount ← count t.staticFields.length
  let instanceFieldCount ← count t.instanceFields.length
  modify fun d => { d with
    typeDefs := d.typeDefs.push {
      name, nameSpace, base := t.base, enclosing := t.enclosing, flags := t.flags
      interfaces := noReference, methodsFirst, virtualMethodCount, instanceMethodCount
      staticMethodCount, dataType := t.dataType, staticFieldsFirst, instanceFieldsFirst
      staticFieldCount, instanceFieldCount } }
  reference ((← get).typeDefs.size - 1)

theorem typeDef_eq (t : TypeDraft) : typeDef t = (do
    let staticFieldsFirst ← reference (← get).fieldDefs.size
    t.staticFields.forM fieldDef
    let instanceFieldsFirst ← reference (← get).fieldDefs.size
    t.instanceFields.forM fieldDef
    let methodsFirst ← reference (← get).methodDefs.size
    t.orderedMethods.forM methodDef
    typeRecord t staticFieldsFirst instanceFieldsFirst methodsFirst) := rfl

/-- A type is entered group by group, each from where the one before it ended, and its record behind them. -/
theorem wp_typeDef_groups {t : TypeDraft} {Q : UInt16 → Draft → Prop} :
    wp (typeDef t) Q E d =
      wp (t.staticFields.forM fieldDef) (fun _ d₁ =>
        wp (t.instanceFields.forM fieldDef) (fun _ d₂ =>
          wp (t.orderedMethods.forM methodDef)
            (fun _ => wp (typeRecord t (referenceFor d.fieldDefs.size) (referenceFor d₁.fieldDefs.size)
              (referenceFor d₂.methodDefs.size)) Q E)
            E (d₂.noting d₂.methodDefs.size))
          E (d₁.noting d₁.fieldDefs.size))
        E (d.noting d.fieldDefs.size) := by
  rw [typeDef_eq]
  simp only [wp_bind, wp_get, wp_reference]
  refine congrArg (wp _ · E _) (funext fun _ => funext fun d₁ => ?_)
  simp only [wp_bind, wp_get, wp_reference]
  refine congrArg (wp _ · E _) (funext fun _ => funext fun d₂ => ?_)
  simp only [wp_bind, wp_get, wp_reference]

end Drafting

namespace Draft

theorem overflow_noting {d : Draft} {position : Nat} :
    (d.noting position).overflow = false ↔ d.overflow = false ∧ position < 0xFFFF := by
  simp [noting]

theorem noting_of_lt {d : Draft} {position : Nat} (h : position < 0xFFFF) : d.noting position = d := by
  rw [noting, decide_eq_false (Nat.not_le.2 h), Bool.or_false]

/-- Interning a text touches nothing but the string heap. -/
theorem withText_eq (d : Draft) (value : String) :
    ∃ strings overflow, d.withText value = { d with strings, overflow } := by
  unfold withText
  split
  · exact ⟨d.strings, d.overflow, rfl⟩
  · exact ⟨_, _, rfl⟩

/-- Interning a blob touches nothing but the signature heap. -/
theorem withBlob_eq (d : Draft) (value : List UInt8) :
    ∃ signatures overflow, d.withBlob value = { d with signatures, overflow } := by
  unfold withBlob
  split
  · exact ⟨d.signatures, d.overflow, rfl⟩
  · exact ⟨_, _, rfl⟩

theorem prefix_push {α : Type} (rows : Array α) (row : α) : rows.toList <+: (rows.push row).toList := by
  rw [Array.toList_push]
  exact List.prefix_append ..

theorem prefix_appendList {α : Type} (rows : Array α) (more : List α) :
    rows.toList <+: (rows ++ more).toList := by
  rw [Array.toList_appendList]
  exact List.prefix_append ..

/-- Everything in `d` is still there in `d'`, in the same places. -/
structure Extends (d d' : Draft) : Prop where
  name : d'.name = d.name
  version : d'.version = d.version
  strings : d.strings.heap.toList <+: d'.strings.heap.toList
  signatures : d.signatures.heap.toList <+: d'.signatures.heap.toList
  assemblyRefs : d.assemblyRefs.toList <+: d'.assemblyRefs.toList
  typeRefs : d.typeRefs.toList <+: d'.typeRefs.toList
  fieldRefs : d.fieldRefs.toList <+: d'.fieldRefs.toList
  methodRefs : d.methodRefs.toList <+: d'.methodRefs.toList
  typeDefs : d.typeDefs.toList <+: d'.typeDefs.toList
  fieldDefs : d.fieldDefs.toList <+: d'.fieldDefs.toList
  methodDefs : d.methodDefs.toList <+: d'.methodDefs.toList
  attributes : d.attributes.toList <+: d'.attributes.toList
  typeSpecs : d.typeSpecs.toList <+: d'.typeSpecs.toList
  resources : d.resources.toList <+: d'.resources.toList
  resourcesData : d.resourcesData.toList <+: d'.resourcesData.toList
  byteCode : d.byteCode.toList <+: d'.byteCode.toList
  resourceFiles : d.resourceFiles.toList <+: d'.resourceFiles.toList
  overflow : d'.overflow = false → d.overflow = false

namespace Extends
variable {a b c : Draft}

theorem refl (d : Draft) : d.Extends d where
  name := rfl
  version := rfl
  strings := List.prefix_rfl
  signatures := List.prefix_rfl
  assemblyRefs := List.prefix_rfl
  typeRefs := List.prefix_rfl
  fieldRefs := List.prefix_rfl
  methodRefs := List.prefix_rfl
  typeDefs := List.prefix_rfl
  fieldDefs := List.prefix_rfl
  methodDefs := List.prefix_rfl
  attributes := List.prefix_rfl
  typeSpecs := List.prefix_rfl
  resources := List.prefix_rfl
  resourcesData := List.prefix_rfl
  byteCode := List.prefix_rfl
  resourceFiles := List.prefix_rfl
  overflow := id

theorem trans (h : a.Extends b) (h' : b.Extends c) : a.Extends c where
  name := h'.name.trans h.name
  version := h'.version.trans h.version
  strings := h.strings.trans h'.strings
  signatures := h.signatures.trans h'.signatures
  assemblyRefs := h.assemblyRefs.trans h'.assemblyRefs
  typeRefs := h.typeRefs.trans h'.typeRefs
  fieldRefs := h.fieldRefs.trans h'.fieldRefs
  methodRefs := h.methodRefs.trans h'.methodRefs
  typeDefs := h.typeDefs.trans h'.typeDefs
  fieldDefs := h.fieldDefs.trans h'.fieldDefs
  methodDefs := h.methodDefs.trans h'.methodDefs
  attributes := h.attributes.trans h'.attributes
  typeSpecs := h.typeSpecs.trans h'.typeSpecs
  resources := h.resources.trans h'.resources
  resourcesData := h.resourcesData.trans h'.resourcesData
  byteCode := h.byteCode.trans h'.byteCode
  resourceFiles := h.resourceFiles.trans h'.resourceFiles
  overflow ho := h.overflow (h'.overflow ho)

theorem noting (d : Draft) (position : Nat) : d.Extends (d.noting position) :=
  { refl d with overflow := fun h => (Bool.or_eq_false_iff.1 h).1 }

theorem withText (d : Draft) (value : String) : d.Extends (d.withText value) := by
  unfold Draft.withText
  split
  · exact refl d
  · exact { noting d d.strings.heap.size with strings := prefix_appendList .. }

theorem withBlob (d : Draft) (value : List UInt8) : d.Extends (d.withBlob value) := by
  unfold Draft.withBlob
  split
  · exact refl d
  · exact { noting d d.signatures.heap.size with signatures := prefix_appendList .. }

end Extends

end Draft

namespace Draft

/-- A relation between drafts that chains and that interning respects. -/
class Lasting (R : Draft → Draft → Prop) : Prop where
  refl : ∀ d, R d d
  trans : ∀ {a b c}, R a b → R b c → R a c
  noting : ∀ d position, R d (d.noting position)
  withText : ∀ d value, R d (d.withText value)
  withBlob : ∀ d value, R d (d.withBlob value)

/-- One that additions without signature respect. -/
class Plain (R : Draft → Draft → Prop) : Prop extends Lasting R where
  overflowed : ∀ d, R d { d with overflow := true }
  byteCode : ∀ (d : Draft) (code : List UInt8), R d { d with byteCode := d.byteCode ++ code }
  assemblyRef : ∀ d row, R d { d with assemblyRefs := d.assemblyRefs.push row }
  typeRef : ∀ d row, R d { d with typeRefs := d.typeRefs.push row }
  attach : ∀ d row, R d { d with attributes := d.attributes.push row }
  resource : ∀ (d : Draft) (data : List UInt8) row,
    R d { d with resourcesData := d.resourcesData ++ data, resources := d.resources.push row }
  resourceFile : ∀ d row, R d { d with resourceFiles := d.resourceFiles.push row }

/-- One that additions of references and specifications respect too. -/
class Referring (R : Draft → Draft → Prop) : Prop extends Plain R where
  fieldRef : ∀ d row, R d { d with fieldRefs := d.fieldRefs.push row }
  methodRef : ∀ d row, R d { d with methodRefs := d.methodRefs.push row }
  typeSpec : ∀ d row, R d { d with typeSpecs := d.typeSpecs.push row }

/-- One that every addition respects. -/
class Additive (R : Draft → Draft → Prop) : Prop extends Referring R where
  fieldDef : ∀ d row, R d { d with fieldDefs := d.fieldDefs.push row }
  methodDef : ∀ d row, R d { d with methodDefs := d.methodDefs.push row }
  typeDef : ∀ d row, R d { d with typeDefs := d.typeDefs.push row }

instance : Additive Extends where
  refl := .refl
  trans := .trans
  noting := .noting
  withText := .withText
  withBlob := .withBlob
  overflowed d := { Extends.refl d with overflow := nofun }
  byteCode d _ := { Extends.refl d with byteCode := prefix_appendList .. }
  assemblyRef d _ := { Extends.refl d with assemblyRefs := prefix_push .. }
  typeRef d _ := { Extends.refl d with typeRefs := prefix_push .. }
  attach d _ := { Extends.refl d with attributes := prefix_push .. }
  resource d _ _ := { Extends.refl d with
    resourcesData := prefix_appendList ..
    resources := prefix_push .. }
  resourceFile d _ := { Extends.refl d with resourceFiles := prefix_push .. }
  fieldRef d _ := { Extends.refl d with fieldRefs := prefix_push .. }
  methodRef d _ := { Extends.refl d with methodRefs := prefix_push .. }
  typeSpec d _ := { Extends.refl d with typeSpecs := prefix_push .. }
  fieldDef d _ := { Extends.refl d with fieldDefs := prefix_push .. }
  methodDef d _ := { Extends.refl d with methodDefs := prefix_push .. }
  typeDef d _ := { Extends.refl d with typeDefs := prefix_push .. }

end Draft

namespace Drafting
open Draft

variable {α β : Type} {R : Draft → Draft → Prop}

/-- Whether the operation fails or not, the draft after it is in this relation to the one before. -/
def Follows (R : Draft → Draft → Prop) (m : Drafting α) : Prop := ∀ d, wp m (fun _ d' => R d d') (R d) d

theorem follows_modify {f : Draft → Draft} (h : ∀ d, R d (f d)) : Follows R (modify f) := h

namespace Follows
variable [Lasting R] {m : Drafting α}

theorem pure (a : α) : Follows R (Pure.pure a) := fun d => Lasting.refl d

theorem throw (fault : Fault) : Follows R (throw fault : Drafting α) := fun d => Lasting.refl d

theorem get : Follows R get := fun d => Lasting.refl d

theorem bind {f : α → Drafting β} (h : Follows R m) (hf : ∀ a, Follows R (f a)) :
    Follows R (m >>= f) := by
  intro d
  rw [wp_bind]
  refine wp_mono (h d) (fun a d' hd => ?_) (fun d' hd => hd)
  exact wp_mono (hf a d') (fun _ _ => Lasting.trans hd) (fun _ => Lasting.trans hd)

theorem forM {op : α → Drafting Unit} (h : ∀ a, Follows R (op a)) (as : List α) :
    Follows R (as.forM op) := by
  induction as with
  | nil => exact pure ()
  | cons a as ih => exact (h a).bind fun _ => ih

theorem reference (position : Nat) : Follows R (reference position) := by
  intro d
  rw [wp_reference]
  exact Lasting.noting d position

theorem ofExcept (result : Except Fault α) : Follows R (ofExcept result) := by
  cases result with
  | ok a => exact pure a
  | error fault => exact throw fault

theorem count (n : Nat) : Follows R (count n) := by
  unfold Drafting.count
  split
  · exact pure _
  · exact throw _

theorem text (value : String) : Follows R (text value) := by
  intro d
  rw [wp_text]
  exact Lasting.withText d value

theorem blob (value : List UInt8) : Follows R (blob value) := by
  intro d
  rw [wp_blob]
  exact Lasting.withBlob d value

theorem store {f : Draft → Draft} (h : ∀ d, R d (f d)) (position : Draft → Nat) :
    Follows R (do modify f; Drafting.reference (position (← MonadState.get))) :=
  (follows_modify h).bind fun _ => get.bind fun _ => reference _

end Follows

section
variable [Lasting R]

theorem follows_body_of {code : List UInt8} (h : ∀ d : Draft, R d { d with byteCode := d.byteCode ++ code }) :
    Follows R (body code) :=
  Follows.get.bind fun _ => (Follows.reference _).bind fun _ => (follows_modify h).bind fun _ => .pure _

theorem follows_resourceOffset (h : ∀ d : Draft, R d { d with overflow := true }) :
    Follows R resourceOffset := by
  unfold resourceOffset
  refine Follows.get.bind fun d => ?_
  split
  · exact .pure _
  · exact (follows_modify h).bind fun _ => .pure _

theorem follows_fieldDef_of (h : ∀ (d : Draft) row, R d { d with fieldDefs := d.fieldDefs.push row })
    (f : FieldDraft) : Follows R (fieldDef f) :=
  (Follows.ofExcept _).bind fun _ => (Follows.blob _).bind fun _ => (Follows.text _).bind fun _ =>
    follows_modify fun d => h d _

theorem follows_methodDef_of (h : ∀ (d : Draft) row, R d { d with methodDefs := d.methodDefs.push row })
    (m : MethodDraft) : Follows R (methodDef m) :=
  (Follows.ofExcept _).bind fun _ => (Follows.blob _).bind fun _ => (Follows.text _).bind fun _ =>
    (Follows.count _).bind fun _ => follows_modify fun d => h d _

theorem follows_typeRecord_of (h : ∀ row, Follows R (do
      modify fun d => { d with typeDefs := d.typeDefs.push row }
      reference ((← get).typeDefs.size - 1)))
    (t : TypeDraft) (staticFieldsFirst instanceFieldsFirst methodsFirst : UInt16) :
    Follows R (typeRecord t staticFieldsFirst instanceFieldsFirst methodsFirst) := by
  unfold typeRecord
  refine (Follows.text _).bind fun _ => (Follows.text _).bind fun _ => ?_
  iterate 5 refine (Follows.count _).bind fun _ => ?_
  exact h _

theorem follows_typeDef_of (hfield : ∀ f, Follows R (fieldDef f)) (hmethod : ∀ m, Follows R (methodDef m))
    {t : TypeDraft} (hrecord : ∀ staticFieldsFirst instanceFieldsFirst methodsFirst,
      Follows R (typeRecord t staticFieldsFirst instanceFieldsFirst methodsFirst)) : Follows R (typeDef t) := by
  rw [typeDef_eq]
  refine Follows.get.bind fun d => (Follows.reference _).bind fun _ => ?_
  refine (Follows.forM hfield _).bind fun _ => ?_
  refine Follows.get.bind fun d => (Follows.reference _).bind fun _ => ?_
  refine (Follows.forM hfield _).bind fun _ => ?_
  refine Follows.get.bind fun d => (Follows.reference _).bind fun _ => ?_
  exact (Follows.forM hmethod _).bind fun _ => hrecord _ _ _

end

section
variable [Plain R]

theorem follows_body (code : List UInt8) : Follows R (body code) :=
  follows_body_of fun d => Plain.byteCode d code

theorem follows_assemblyRef (name : String) (version : Version) : Follows R (assemblyRef name version) :=
  (Follows.text _).bind fun _ => .store (fun d => Plain.assemblyRef d _) _

theorem follows_typeRef (nameSpace name : String) (scope : UInt16) :
    Follows R (typeRef nameSpace name scope) :=
  (Follows.text _).bind fun _ => (Follows.text _).bind fun _ => .store (fun d => Plain.typeRef d _) _

theorem follows_attach (owner : TableKind) (ownerIndex constructor : UInt16) (data : List UInt8) :
    Follows R (attach owner ownerIndex constructor data) :=
  (Follows.blob _).bind fun _ => .store (fun d => Plain.attach d _) _

theorem follows_resource (id : Int16) (kind : UInt8) (data : List UInt8) :
    Follows R (resource id kind data) :=
  (follows_resourceOffset Plain.overflowed).bind fun _ => .store (fun d => Plain.resource d data _) _

theorem follows_resourceFile (name : String) (resourceCount : UInt32) :
    Follows R (resourceFile name resourceCount) :=
  (Follows.text _).bind fun _ => .store (fun d => Plain.resourceFile d _) _

end

section
variable [Additive R]

theorem follows_typeDef (t : TypeDraft) : Follows R (typeDef t) :=
  follows_typeDef_of (follows_fieldDef_of Additive.fieldDef) (follows_methodDef_of Additive.methodDef)
    (follows_typeRecord_of (fun row => .store (fun d => Additive.typeDef d row) _) t)

end

theorem follows_perform_of_ne [Referring R] {step : Step} (h : ∀ type, step ≠ .typeDef type) :
    Follows R step.perform := by
  cases step with
  | text value => exact .text value
  | blob value => exact .blob value
  | body code => exact follows_body code
  | assemblyRef name version => exact follows_assemblyRef name version
  | typeRef nameSpace name scope => exact follows_typeRef nameSpace name scope
  | fieldRef container name type =>
    exact (Follows.ofExcept _).bind fun _ => (Follows.blob _).bind fun _ => (Follows.text _).bind fun _ =>
      .store (fun d => Referring.fieldRef d _) _
  | methodRef container name signature =>
    exact (Follows.ofExcept _).bind fun _ => (Follows.blob _).bind fun _ => (Follows.text _).bind fun _ =>
      .store (fun d => Referring.methodRef d _) _
  | typeSpec type =>
    exact (Follows.ofExcept _).bind fun _ => (Follows.blob _).bind fun _ =>
      .store (fun d => Referring.typeSpec d _) _
  | attach owner ownerIndex constructor data => exact follows_attach owner ownerIndex constructor data
  | resource id kind data => exact follows_resource id kind data
  | resourceFile name resourceCount => exact follows_resourceFile name resourceCount
  | typeDef type => exact absurd rfl (h type)

/-- A relation that every addition respects holds across every step, failed or not. -/
theorem follows_perform [Additive R] (step : Step) : Follows R step.perform := by
  by_cases h : ∃ type, step = .typeDef type
  · obtain ⟨type, rfl⟩ := h
    exact follows_typeDef type
  · exact follows_perform_of_ne fun type hs => h ⟨type, hs⟩

end Drafting

namespace Draft

/-- The draft that steps lead to from a fresh one. -/
def built (name : String) (version : Version) (steps : List Step) : Draft :=
  ((Draft.named name version).applyAll steps).2

section
variable {R : Draft → Draft → Prop}

theorem apply_of_wp {P : Draft → Prop} {step : Step} {d : Draft}
    (h : Drafting.wp step.perform (fun _ => P) P d) : P (d.apply step).2 := by
  unfold Drafting.wp at h
  unfold apply
  split at h <;> simp only [*]

theorem apply_of_follows {step : Step} (h : Drafting.Follows R step.perform) (d : Draft) :
    R d (d.apply step).2 := apply_of_wp (h d)

theorem perform_of_apply {step : Step} {d : Draft} {index : UInt16} (h : (d.apply step).1 = .ok index) :
    step.perform d = .ok index (d.apply step).2 := by
  unfold apply at *
  split at h
  · next hrun =>
    cases h
    simp only [hrun]
  · cases h

theorem applyAll_of_additive [Additive R] (d : Draft) (steps : List Step) : R d (d.applyAll steps).2 := by
  induction steps generalizing d with
  | nil => exact Lasting.refl d
  | cons step steps ih =>
    exact Lasting.trans (apply_of_follows (Drafting.follows_perform step) d) (ih _)

end

/-- No step takes anything back, and a failed one leaves what it had added. -/
theorem extends_applyAll (d : Draft) (steps : List Step) : d.Extends (d.applyAll steps).2 :=
  applyAll_of_additive d steps

theorem applyAll_append (d : Draft) (before after : List Step) :
    (d.applyAll (before ++ after)).2 = ((d.applyAll before).2.applyAll after).2 := by
  induction before generalizing d with
  | nil => rfl
  | cons step before ih => exact ih _

theorem built_append (name : String) (version : Version) (before after : List Step) :
    built name version (before ++ after) = ((built name version before).applyAll after).2 :=
  applyAll_append ..

theorem extends_built (name : String) (version : Version) (before after : List Step) :
    (built name version before).Extends (built name version (before ++ after)) := by
  rw [built_append]
  exact extends_applyAll _ after

end Draft

end CompactAssembly
