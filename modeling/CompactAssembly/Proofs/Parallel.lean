import CompactAssembly.Proofs.Members

/-!
# Two runs side by side

`Draft.Beside origin fields methods d d'`: both drafts grew out of `origin` by the same additions, the second
one with these fields and methods in between. Their records are the same but for what depends on where things
lie: references into the heaps lead to the same texts and blobs (`Alike`), and member ranges of later types
start behind the members in between (`Moved`). Every step keeps two drafts side by side and answers the same on
both, unless it asks for the place of a text or a blob (`Beside.applyAll`).
-/

namespace CompactAssembly

/-- Tables with the same rows `before`, in the second one rows `left` behind them, then rows that correspond. -/
def Grown {ρ : Type} (Same : ρ → ρ → Prop) (before left : List ρ) (rows rows' : Array ρ) : Prop :=
  ∃ after after', rows.toList = before ++ after ∧ rows'.toList = before ++ left ++ after' ∧
    List.Forall₂ Same after after'

namespace Grown
variable {ρ : Type} {Same Same' : ρ → ρ → Prop} {before left : List ρ} {rows rows' : Array ρ}

theorem start (h : rows'.toList = rows.toList ++ left) : Grown Same rows.toList left rows rows' :=
  ⟨[], [], (List.append_nil _).symm, h.trans (List.append_nil _).symm, .nil⟩

theorem imp (h : Grown Same before left rows rows') (hsame : ∀ row row', Same row row' → Same' row row') :
    Grown Same' before left rows rows' := by
  obtain ⟨after, after', hrows, hrows', hafter⟩ := h
  exact ⟨after, after', hrows, hrows', hafter.imp fun _ _ => hsame _ _⟩

theorem push (h : Grown Same before left rows rows') {row row' : ρ} (hrow : Same row row') :
    Grown Same before left (rows.push row) (rows'.push row') := by
  obtain ⟨after, after', hrows, hrows', hafter⟩ := h
  refine ⟨after ++ [row], after' ++ [row'], ?_, ?_, List.rel_append hafter (.cons hrow .nil)⟩
  · rw [Array.toList_push, hrows, List.append_assoc]
  · rw [Array.toList_push, hrows', List.append_assoc]

theorem size_eq (h : Grown Same before left rows rows') : rows'.size = rows.size + left.length := by
  obtain ⟨after, after', hrows, hrows', hafter⟩ := h
  have hlen := hafter.length_eq
  rw [← Array.length_toList, ← Array.length_toList, hrows, hrows']
  simp only [List.length_append]
  omega

theorem size_eq_of_nil (h : Grown Same before [] rows rows') : rows'.size = rows.size := h.size_eq

end Grown

/-- Where a row refers to the heaps, and what is left of it without. -/
class Interning (ρ : Type) where
  texts : ρ → List UInt16
  blobs : ρ → List UInt16
  bare : ρ → ρ

instance : Interning AssemblyRef := ⟨fun r => [r.name], fun _ => [], fun r => { r with name := 0 }⟩

instance : Interning TypeRef :=
  ⟨fun r => [r.name, r.nameSpace], fun _ => [], fun r => { r with name := 0, nameSpace := 0 }⟩

instance : Interning FieldRef := ⟨fun r => [r.name], fun r => [r.sig], fun r => { r with name := 0, sig := 0 }⟩

instance : Interning MethodRef := ⟨fun r => [r.name], fun r => [r.sig], fun r => { r with name := 0, sig := 0 }⟩

instance : Interning TypeSpec := ⟨fun _ => [], fun r => [r.sig], fun r => { r with sig := 0 }⟩

instance : Interning Attribute := ⟨fun _ => [], fun r => [r.data], fun r => { r with data := 0 }⟩

instance : Interning ResourceFile := ⟨fun r => [r.name], fun _ => [], fun r => { r with name := 0 }⟩

instance : Interning FieldDef := ⟨fun r => [r.name], fun r => [r.sig], fun r => { r with name := 0, sig := 0 }⟩

instance : Interning MethodDef := ⟨fun r => [r.name], fun r => [r.sig], fun r => { r with name := 0, sig := 0 }⟩

/-- Where the members start is not a reference to a heap, but no part of the bare row either. -/
instance : Interning TypeDef where
  texts r := [r.name, r.nameSpace]
  blobs _ := []
  bare r := { r with
    name := 0, nameSpace := 0, methodsFirst := 0, staticFieldsFirst := 0, instanceFieldsFirst := 0 }

/-- Rows that differ in references to the heaps only, and in these as the relations say. -/
structure Alike {ρ : Type} [Interning ρ] (text blob : UInt16 → UInt16 → Prop) (row row' : ρ) : Prop where
  texts : List.Forall₂ text (Interning.texts row) (Interning.texts row')
  blobs : List.Forall₂ blob (Interning.blobs row) (Interning.blobs row')
  bare : Interning.bare row' = Interning.bare row

theorem Alike.imp {ρ : Type} [Interning ρ] {text text' blob blob' : UInt16 → UInt16 → Prop} {row row' : ρ}
    (h : Alike text blob row row') (htext : ∀ i i', text i i' → text' i i')
    (hblob : ∀ i i', blob i i' → blob' i i') : Alike text' blob' row row' where
  texts := h.texts.imp fun _ _ => htext _ _
  blobs := h.blobs.imp fun _ _ => hblob _ _
  bare := h.bare

/-- The two references lead to the same value, each in its pool. -/
def Pool.Same {κ : Type} [BEq κ] [Hashable κ] (pool pool' : Pool κ) (index index' : UInt16) : Prop :=
  ∃ value, pool.find? value = some index ∧ pool'.find? value = some index'

/-- Ranges that start at the same members, with `count` more of them before in the second draft. -/
def Moved (count : Nat) (first first' : UInt16) : Prop :=
  ∃ position, first = referenceFor position ∧ first' = referenceFor (position + count)

/-- Types that are alike, with ranges that start at the same members. -/
structure AlikeType (fields methods : Nat) (text blob : UInt16 → UInt16 → Prop) (row row' : TypeDef) : Prop
    extends Alike text blob row row' where
  methodsFirst : Moved methods row.methodsFirst row'.methodsFirst
  staticFieldsFirst : Moved fields row.staticFieldsFirst row'.staticFieldsFirst
  instanceFieldsFirst : Moved fields row.instanceFieldsFirst row'.instanceFieldsFirst

/-- The two references name the same text, each in its heap, or both name none. -/
def SameText (strings strings' : Pool String) (index index' : UInt16) : Prop :=
  (index = noReference ∧ index' = noReference) ∨ strings.Same strings' index index'

namespace Draft

abbrev SameRow {ρ : Type} [Interning ρ] (d d' : Draft) : ρ → ρ → Prop :=
  Alike (SameText d.strings d'.strings) (d.signatures.Same d'.signatures)

abbrev SameType (fields methods : Nat) (d d' : Draft) : TypeDef → TypeDef → Prop :=
  AlikeType fields methods (SameText d.strings d'.strings) (d.signatures.Same d'.signatures)

section
variable {d d' e e' : Draft} (h : d.Remembers e) (h' : d'.Remembers e')
include h h'

theorem sameText_mono {index index' : UInt16} (hs : SameText d.strings d'.strings index index') :
    SameText e.strings e'.strings index index' := by
  obtain hnone | ⟨value, hv, hv'⟩ := hs
  · exact .inl hnone
  · exact .inr ⟨value, h.texts value _ hv, h'.texts value _ hv'⟩

theorem sameBlob_mono {index index' : UInt16} (hs : d.signatures.Same d'.signatures index index') :
    e.signatures.Same e'.signatures index index' := by
  obtain ⟨value, hv, hv'⟩ := hs
  exact ⟨value, h.blobs value _ hv, h'.blobs value _ hv'⟩

theorem sameRow_mono {ρ : Type} [Interning ρ] {row row' : ρ} (ha : SameRow d d' row row') :
    SameRow e e' row row' :=
  ha.imp (fun _ _ => sameText_mono h h') fun _ _ => sameBlob_mono h h'

theorem sameType_mono {fields methods : Nat} {row row' : TypeDef}
    (ha : SameType fields methods d d' row row') : SameType fields methods e e' row row' :=
  { ha with toAlike := sameRow_mono h h' ha.toAlike }

end

theorem sameText_withText (d d' : Draft) (value : String) :
    SameText (d.withText value).strings (d'.withText value).strings (d.textReference value)
      (d'.textReference value) := by
  have h := namesText_withText d value
  have h' := namesText_withText d' value
  unfold NamesText at h h'
  split at h
  · next hempty =>
    rw [if_pos hempty] at h'
    exact .inl ⟨h, h'⟩
  · next hempty =>
    rw [if_neg hempty] at h'
    exact .inr ⟨value, h, h'⟩

theorem same_withBlob (d d' : Draft) (value : List UInt8) :
    (d.withBlob value).signatures.Same (d'.withBlob value).signatures (d.blobReference value)
      (d'.blobReference value) :=
  ⟨value, find?_withBlob d value, find?_withBlob d' value⟩

instance : Additive Remembers where
  refl _ := ⟨fun _ _ h => h, fun _ _ h => h⟩
  trans h h' := ⟨fun value index hi => h'.texts value index (h.texts value index hi),
    fun value index hi => h'.blobs value index (h.blobs value index hi)⟩
  noting _ _ := ⟨fun _ _ h => h, fun _ _ h => h⟩
  withText d value := (Keeps.withText d value).toRemembers
  withBlob d value := (Keeps.withBlob d value).toRemembers
  overflowed _ := ⟨fun _ _ h => h, fun _ _ h => h⟩
  byteCode _ _ := ⟨fun _ _ h => h, fun _ _ h => h⟩
  assemblyRef _ _ := ⟨fun _ _ h => h, fun _ _ h => h⟩
  typeRef _ _ := ⟨fun _ _ h => h, fun _ _ h => h⟩
  attach _ _ := ⟨fun _ _ h => h, fun _ _ h => h⟩
  resource _ _ _ := ⟨fun _ _ h => h, fun _ _ h => h⟩
  resourceFile _ _ := ⟨fun _ _ h => h, fun _ _ h => h⟩
  fieldRef _ _ := ⟨fun _ _ h => h, fun _ _ h => h⟩
  methodRef _ _ := ⟨fun _ _ h => h, fun _ _ h => h⟩
  typeSpec _ _ := ⟨fun _ _ h => h, fun _ _ h => h⟩
  fieldDef _ _ := ⟨fun _ _ h => h, fun _ _ h => h⟩
  methodDef _ _ := ⟨fun _ _ h => h, fun _ _ h => h⟩
  typeDef _ _ := ⟨fun _ _ h => h, fun _ _ h => h⟩

/-- Only the heaps changed, and what was interned still is. -/
structure Interns (d d' : Draft) : Prop extends Remembers d d' where
  rest : d' = { d with strings := d'.strings, signatures := d'.signatures, overflow := d'.overflow }

instance : Lasting Interns where
  refl d := ⟨Lasting.refl d, rfl⟩
  trans h h' := by
    refine ⟨Lasting.trans h.toRemembers h'.toRemembers, ?_⟩
    rw [h'.rest, h.rest]
  noting d position := ⟨Lasting.noting d position, rfl⟩
  withText d value := by
    refine ⟨Lasting.withText d value, ?_⟩
    obtain ⟨strings, overflow, hd⟩ := d.withText_eq value
    rw [hd]
  withBlob d value := by
    refine ⟨Lasting.withBlob d value, ?_⟩
    obtain ⟨signatures, overflow, hd⟩ := d.withBlob_eq value
    rw [hd]

/-- Both drafts grew out of `origin` alike, the second one with members of no type in between. -/
structure Beside (origin : Draft) (fields : List FieldDef) (methods : List MethodDef) (d d' : Draft) : Prop where
  name : d'.name = d.name
  version : d'.version = d.version
  assemblyRefs : Grown (SameRow d d') origin.assemblyRefs.toList [] d.assemblyRefs d'.assemblyRefs
  typeRefs : Grown (SameRow d d') origin.typeRefs.toList [] d.typeRefs d'.typeRefs
  fieldRefs : Grown (SameRow d d') origin.fieldRefs.toList [] d.fieldRefs d'.fieldRefs
  methodRefs : Grown (SameRow d d') origin.methodRefs.toList [] d.methodRefs d'.methodRefs
  typeDefs : Grown (SameType fields.length methods.length d d') origin.typeDefs.toList [] d.typeDefs d'.typeDefs
  fieldDefs : Grown (SameRow d d') origin.fieldDefs.toList fields d.fieldDefs d'.fieldDefs
  methodDefs : Grown (SameRow d d') origin.methodDefs.toList methods d.methodDefs d'.methodDefs
  attributes : Grown (SameRow d d') origin.attributes.toList [] d.attributes d'.attributes
  typeSpecs : Grown (SameRow d d') origin.typeSpecs.toList [] d.typeSpecs d'.typeSpecs
  resources : d'.resources = d.resources
  resourcesData : d'.resourcesData = d.resourcesData
  byteCode : d'.byteCode = d.byteCode
  resourceFiles : Grown (SameRow d d') origin.resourceFiles.toList [] d.resourceFiles d'.resourceFiles

namespace Beside
variable {origin : Draft} {fields : List FieldDef} {methods : List MethodDef} {d d' : Draft}

theorem intern (h : Beside origin fields methods d d') {e e' : Draft} (hd : d.Interns e) (hd' : d'.Interns e') :
    Beside origin fields methods e e' := by
  have hrows : ∀ {ρ : Type} [Interning ρ] {before left : List ρ} {rows rows' : Array ρ},
      Grown (SameRow d d') before left rows rows' → Grown (SameRow e e') before left rows rows' :=
    fun hg => hg.imp fun _ _ => sameRow_mono hd.toRemembers hd'.toRemembers
  have htypes := h.typeDefs.imp fun _ _ => sameType_mono hd.toRemembers hd'.toRemembers
  rw [hd.rest, hd'.rest] at hrows htypes ⊢
  exact {
    name := h.name
    version := h.version
    assemblyRefs := hrows h.assemblyRefs
    typeRefs := hrows h.typeRefs
    fieldRefs := hrows h.fieldRefs
    methodRefs := hrows h.methodRefs
    typeDefs := htypes
    fieldDefs := hrows h.fieldDefs
    methodDefs := hrows h.methodDefs
    attributes := hrows h.attributes
    typeSpecs := hrows h.typeSpecs
    resources := h.resources
    resourcesData := h.resourcesData
    byteCode := h.byteCode
    resourceFiles := hrows h.resourceFiles }

theorem withText (h : Beside origin fields methods d d') (value : String) :
    Beside origin fields methods (d.withText value) (d'.withText value) :=
  h.intern (Lasting.withText d value) (Lasting.withText d' value)

theorem withBlob (h : Beside origin fields methods d d') (value : List UInt8) :
    Beside origin fields methods (d.withBlob value) (d'.withBlob value) :=
  h.intern (Lasting.withBlob d value) (Lasting.withBlob d' value)

theorem noting (h : Beside origin fields methods d d') (position position' : Nat) :
    Beside origin fields methods (d.noting position) (d'.noting position') :=
  h.intern (Lasting.noting d position) (Lasting.noting d' position')

end Beside

end Draft

namespace Drafting
open Draft

variable {α β : Type} {Q : α → α → Draft → Draft → Prop} {E : Draft → Draft → Prop} {d d' : Draft}

/-- Every outcome of two operations, each from its draft: both give a value, or both fail for the same fault. -/
def wpBoth (m m' : Drafting α) (Q : α → α → Draft → Draft → Prop) (E : Draft → Draft → Prop) (d d' : Draft) :
    Prop :=
  match m d, m' d' with
  | .ok a e, .ok a' e' => Q a a' e e'
  | .error fault e, .error fault' e' => fault' = fault ∧ E e e'
  | _, _ => False

theorem wpBoth_mono {m m' : Drafting α} {Q' : α → α → Draft → Draft → Prop} {E' : Draft → Draft → Prop}
    (h : wpBoth m m' Q E d d') (hQ : ∀ a a' e e', Q a a' e e' → Q' a a' e e') (hE : ∀ e e', E e e' → E' e e') :
    wpBoth m m' Q' E' d d' := by
  unfold wpBoth at *
  split at h
  · exact hQ _ _ _ _ h
  · exact ⟨h.1, hE _ _ h.2⟩
  · exact h

theorem wpBoth_bind {m m' : Drafting α} {f f' : α → Drafting β} {Q : β → β → Draft → Draft → Prop}
    (h : wpBoth m m' (fun a a' => wpBoth (f a) (f' a') Q E) E d d') :
    wpBoth (m >>= f) (m' >>= f') Q E d d' := by
  show wpBoth (EStateM.bind m f) (EStateM.bind m' f') Q E d d'
  unfold wpBoth EStateM.bind at *
  cases hm : m d <;> cases hm' : m' d' <;> simp only [hm, hm'] at h ⊢
  · exact h
  · exact h

theorem wpBoth_bind_run {m m' : Drafting α} {f f' : α → Drafting β} {Q : β → β → Draft → Draft → Prop}
    {a a' : α} {e e' : Draft} (h : m d = .ok a e) (h' : m' d' = .ok a' e') :
    wpBoth (m >>= f) (m' >>= f') Q E d d' = wpBoth (f a) (f' a') Q E e e' := by
  unfold wpBoth
  rw [run_bind h, run_bind h']

section
variable {Q : β → β → Draft → Draft → Prop}

theorem wpBoth_text {value : String} {f f' : UInt16 → Drafting β} :
    wpBoth (text value >>= f) (text value >>= f') Q E d d' =
      wpBoth (f (d.textReference value)) (f' (d'.textReference value)) Q E (d.withText value) (d'.withText value) :=
  wpBoth_bind_run (run_text value d) (run_text value d')

theorem wpBoth_blob {value : List UInt8} {f f' : UInt16 → Drafting β} :
    wpBoth (blob value >>= f) (blob value >>= f') Q E d d' =
      wpBoth (f (d.blobReference value)) (f' (d'.blobReference value)) Q E (d.withBlob value) (d'.withBlob value) :=
  wpBoth_bind_run (run_blob value d) (run_blob value d')

theorem wpBoth_get {f f' : Draft → Drafting β} :
    wpBoth (get >>= f) (get >>= f') Q E d d' = wpBoth (f d) (f' d') Q E d d' := rfl

theorem wpBoth_modify {g g' : Draft → Draft} {f f' : Unit → Drafting β} :
    wpBoth (modify g >>= f) (modify g' >>= f') Q E d d' = wpBoth (f ()) (f' ()) Q E (g d) (g' d') := rfl

theorem wpBoth_ofExcept {result : Except Fault α} {f f' : α → Drafting β}
    (hok : ∀ a, wpBoth (f a) (f' a) Q E d d') (herror : E d d') :
    wpBoth (ofExcept result >>= f) (ofExcept result >>= f') Q E d d' := by
  cases result with
  | ok a => exact hok a
  | error fault => exact ⟨rfl, herror⟩

theorem wpBoth_count {n : Nat} {f f' : UInt8 → Drafting β} (hok : ∀ c, wpBoth (f c) (f' c) Q E d d')
    (herror : E d d') : wpBoth (count n >>= f) (count n >>= f') Q E d d' := by
  unfold count
  split
  · exact hok _
  · exact ⟨rfl, herror⟩

theorem wpBoth_reference {position position' : Nat} {f f' : UInt16 → Drafting β} :
    wpBoth (reference position >>= f) (reference position' >>= f') Q E d d' =
      wpBoth (f (referenceFor position)) (f' (referenceFor position')) Q E (d.noting position)
        (d'.noting position') :=
  wpBoth_bind_run (run_reference position d) (run_reference position' d')

end

theorem wpBoth_forM {R : Draft → Draft → Prop} {op : α → Drafting Unit}
    (hop : ∀ a d d', R d d' → wpBoth (op a) (op a) (fun _ _ => R) R d d') (as : List α) (h : R d d') :
    wpBoth (as.forM op) (as.forM op) (fun _ _ => R) R d d' := by
  induction as generalizing d d' with
  | nil => exact h
  | cons a as ih => exact wpBoth_bind (wpBoth_mono (hop a d d' h) (fun _ _ _ _ => ih) fun _ _ he => he)

section
variable {origin : Draft} {fields : List FieldDef} {methods : List MethodDef}

/-- A record gets the last reference of its table, on either side. -/
theorem wpBoth_store {g g' : Draft → Draft} {size : Draft → Nat} (h : Beside origin fields methods (g d) (g' d'))
    (hsize : Beside origin fields methods (g d) (g' d') → size (g' d') = size (g d)) :
    wpBoth (do modify g; reference (size (← MonadState.get) - 1))
      (do modify g'; reference (size (← MonadState.get) - 1))
      (fun a a' e e' => Beside origin fields methods e e' ∧ a' = a) (Beside origin fields methods) d d' := by
  rw [wpBoth_modify, wpBoth_get, hsize h]
  unfold wpBoth
  simp only [run_reference]
  exact ⟨h.noting _ _, trivial⟩

/-- A name that was interned after a signature. -/
theorem sameText_and_blob (value : List UInt8) (name : String) (d d' : Draft) :
    SameText ((d.withBlob value).withText name).strings ((d'.withBlob value).withText name).strings
      ((d.withBlob value).textReference name) ((d'.withBlob value).textReference name) ∧
    ((d.withBlob value).withText name).signatures.Same ((d'.withBlob value).withText name).signatures
      (d.blobReference value) (d'.blobReference value) := by
  exact ⟨sameText_withText _ _ name, value, find?_withBlob_withText .., find?_withBlob_withText ..⟩

theorem wpBoth_fieldDef (f : FieldDraft) (d d' : Draft) (h : Beside origin fields methods d d') :
    wpBoth (fieldDef f) (fieldDef f) (fun _ _ => Beside origin fields methods) (Beside origin fields methods)
      d d' := by
  refine wpBoth_ofExcept (fun xs => ?_) h
  rw [wpBoth_blob, wpBoth_text]
  have hd := (h.withBlob xs).withText f.name
  obtain ⟨hname, hsig⟩ := sameText_and_blob xs f.name d d'
  exact { hd with fieldDefs := hd.fieldDefs.push ⟨.cons hname .nil, .cons hsig .nil, rfl⟩ }

theorem wpBoth_methodDef (m : MethodDraft) (d d' : Draft) (h : Beside origin fields methods d d') :
    wpBoth (methodDef m) (methodDef m) (fun _ _ => Beside origin fields methods) (Beside origin fields methods)
      d d' := by
  refine wpBoth_ofExcept (fun xs => ?_) h
  rw [wpBoth_blob, wpBoth_text]
  have hd := (h.withBlob xs).withText m.name
  refine wpBoth_count (fun count => ?_) hd
  obtain ⟨hname, hsig⟩ := sameText_and_blob xs m.name d d'
  exact { hd with methodDefs := hd.methodDefs.push ⟨.cons hname .nil, .cons hsig .nil, rfl⟩ }

theorem wpBoth_typeDef (t : TypeDraft) (h : Beside origin fields methods d d') :
    wpBoth (typeDef t) (typeDef t) (fun a a' e e' => Beside origin fields methods e e' ∧ a' = a)
      (Beside origin fields methods) d d' := by
  rw [typeDef_eq, wpBoth_get, wpBoth_reference]
  have hstatic : Moved fields.length (referenceFor d.fieldDefs.size) (referenceFor d'.fieldDefs.size) :=
    ⟨_, rfl, by rw [h.fieldDefs.size_eq]⟩
  refine wpBoth_bind (wpBoth_mono (wpBoth_forM wpBoth_fieldDef t.staticFields (h.noting _ _))
    (fun _ _ d₁ d₁' h₁ => ?_) fun _ _ he => he)
  rw [wpBoth_get, wpBoth_reference]
  have hinstance : Moved fields.length (referenceFor d₁.fieldDefs.size) (referenceFor d₁'.fieldDefs.size) :=
    ⟨_, rfl, by rw [h₁.fieldDefs.size_eq]⟩
  refine wpBoth_bind (wpBoth_mono (wpBoth_forM wpBoth_fieldDef t.instanceFields (h₁.noting _ _))
    (fun _ _ d₂ d₂' h₂ => ?_) fun _ _ he => he)
  rw [wpBoth_get, wpBoth_reference]
  have hmethods : Moved methods.length (referenceFor d₂.methodDefs.size) (referenceFor d₂'.methodDefs.size) :=
    ⟨_, rfl, by rw [h₂.methodDefs.size_eq]⟩
  refine wpBoth_bind (wpBoth_mono (wpBoth_forM wpBoth_methodDef t.orderedMethods (h₂.noting _ _))
    (fun _ _ d₃ d₃' h₃ => ?_) fun _ _ he => he)
  unfold typeRecord
  rw [wpBoth_text, wpBoth_text]
  have h₄ := (h₃.withText t.name).withText t.nameSpace
  iterate 5 refine wpBoth_count (fun _ => ?_) h₄
  have hname := sameText_mono (Keeps.withText _ t.nameSpace).toRemembers (Keeps.withText _ t.nameSpace).toRemembers
    (sameText_withText d₃ d₃' t.name)
  have hnameSpace := sameText_withText (d₃.withText t.name) (d₃'.withText t.name) t.nameSpace
  refine wpBoth_store { h₄ with typeDefs := h₄.typeDefs.push ?_ } fun h₅ => h₅.typeDefs.size_eq_of_nil
  exact ⟨⟨.cons hname (.cons hnameSpace .nil), .nil, rfl⟩, hmethods, hstatic, hinstance⟩

end

end Drafting

/-- What two runs answer to one step: the same, but a text or a blob may lie elsewhere. -/
def Draft.Step.Answers (step : Step) (d d' : Draft) (index index' : UInt16) : Prop :=
  match step with
  | .text value => d.NamesText value index ∧ d'.NamesText value index'
  | .blob value => d.signatures.find? value = some index ∧ d'.signatures.find? value = some index'
  | _ => index' = index

namespace Drafting
open Draft

variable {origin : Draft} {fields : List FieldDef} {methods : List MethodDef} {d d' : Draft}

theorem wpBoth_resourceOffset (h : Beside origin fields methods d d') :
    wpBoth resourceOffset resourceOffset (fun a a' e e' => Beside origin fields methods e e' ∧ a' = a)
      (Beside origin fields methods) d d' := by
  unfold resourceOffset
  rw [wpBoth_get, h.resourcesData]
  split
  · exact ⟨h, rfl⟩
  · exact ⟨{ h with }, rfl⟩

/-- No step tells the two drafts apart but by where texts and blobs lie. -/
theorem wpBoth_perform (step : Step) (h : Beside origin fields methods d d') :
    wpBoth step.perform step.perform (fun a a' e e' => Beside origin fields methods e e' ∧ step.Answers e e' a a')
      (Beside origin fields methods) d d' := by
  cases step with
  | text value =>
    show wpBoth (text value) (text value) _ _ _ _
    unfold wpBoth
    simp only [run_text]
    exact ⟨h.withText value, namesText_withText d value, namesText_withText d' value⟩
  | blob value =>
    show wpBoth (blob value) (blob value) _ _ _ _
    unfold wpBoth
    simp only [run_blob]
    exact ⟨h.withBlob value, find?_withBlob d value, find?_withBlob d' value⟩
  | body code =>
    show wpBoth (body code) (body code) _ _ _ _
    unfold body
    rw [wpBoth_get, wpBoth_reference, wpBoth_modify]
    have hcode : d'.byteCode ++ code = d.byteCode ++ code := by rw [h.byteCode]
    have hstart : referenceFor d'.byteCode.size = referenceFor d.byteCode.size := by rw [h.byteCode]
    exact ⟨{ h with byteCode := hcode }, hstart⟩
  | assemblyRef name version =>
    show wpBoth (assemblyRef name version) (assemblyRef name version) _ _ _ _
    unfold assemblyRef
    rw [wpBoth_text]
    have hd := h.withText name
    refine wpBoth_store { hd with assemblyRefs := hd.assemblyRefs.push ?_ } fun h => h.assemblyRefs.size_eq_of_nil
    exact ⟨.cons (sameText_withText d d' name) .nil, .nil, rfl⟩
  | typeRef nameSpace name scope =>
    show wpBoth (typeRef nameSpace name scope) (typeRef nameSpace name scope) _ _ _ _
    unfold typeRef
    rw [wpBoth_text, wpBoth_text]
    have hd := (h.withText name).withText nameSpace
    have hname := sameText_mono (Keeps.withText _ nameSpace).toRemembers (Keeps.withText _ nameSpace).toRemembers
      (sameText_withText d d' name)
    have hnameSpace := sameText_withText (d.withText name) (d'.withText name) nameSpace
    refine wpBoth_store { hd with typeRefs := hd.typeRefs.push ?_ } fun h => h.typeRefs.size_eq_of_nil
    exact ⟨.cons hname (.cons hnameSpace .nil), .nil, rfl⟩
  | fieldRef container name type =>
    refine wpBoth_ofExcept (fun xs => ?_) h
    rw [wpBoth_blob, wpBoth_text]
    have hd := (h.withBlob xs).withText name
    obtain ⟨hname, hsig⟩ := sameText_and_blob xs name d d'
    refine wpBoth_store { hd with fieldRefs := hd.fieldRefs.push ?_ } fun h => h.fieldRefs.size_eq_of_nil
    exact ⟨.cons hname .nil, .cons hsig .nil, rfl⟩
  | methodRef container name signature =>
    refine wpBoth_ofExcept (fun xs => ?_) h
    rw [wpBoth_blob, wpBoth_text]
    have hd := (h.withBlob xs).withText name
    obtain ⟨hname, hsig⟩ := sameText_and_blob xs name d d'
    refine wpBoth_store { hd with methodRefs := hd.methodRefs.push ?_ } fun h => h.methodRefs.size_eq_of_nil
    exact ⟨.cons hname .nil, .cons hsig .nil, rfl⟩
  | typeSpec type =>
    refine wpBoth_ofExcept (fun xs => ?_) h
    rw [wpBoth_blob]
    have hd := h.withBlob xs
    refine wpBoth_store { hd with typeSpecs := hd.typeSpecs.push ?_ } fun h => h.typeSpecs.size_eq_of_nil
    exact ⟨.nil, .cons (same_withBlob d d' xs) .nil, rfl⟩
  | attach owner ownerIndex constructor data =>
    show wpBoth (attach owner ownerIndex constructor data) (attach owner ownerIndex constructor data) _ _ _ _
    unfold attach
    rw [wpBoth_blob]
    have hd := h.withBlob data
    refine wpBoth_store { hd with attributes := hd.attributes.push ?_ } fun h => h.attributes.size_eq_of_nil
    exact ⟨.nil, .cons (same_withBlob d d' data) .nil, rfl⟩
  | resource id kind data =>
    refine wpBoth_bind (wpBoth_mono (wpBoth_resourceOffset h) (fun offset offset' e e' ⟨he, hoffset⟩ => ?_)
      fun _ _ he => he)
    subst hoffset
    refine wpBoth_store { he with
      resources := ?_, resourcesData := ?_ } fun h => congrArg Array.size h.resources
    · show e'.resources.push _ = e.resources.push _
      rw [he.resources]
    · show e'.resourcesData ++ data = e.resourcesData ++ data
      rw [he.resourcesData]
  | resourceFile name resourceCount =>
    show wpBoth (resourceFile name resourceCount) (resourceFile name resourceCount) _ _ _ _
    unfold resourceFile
    rw [wpBoth_text]
    have hd := h.withText name
    refine wpBoth_store { hd with resourceFiles := hd.resourceFiles.push ?_ } fun h => h.resourceFiles.size_eq_of_nil
    exact ⟨.cons (sameText_withText d d' name) .nil, .nil, rfl⟩
  | typeDef type => exact wpBoth_typeDef type h

end Drafting

namespace Draft

/-- Both results are the same fault, or both are references as two runs answer. -/
def Step.SameResult (step : Step) (d d' : Draft) (result result' : Except Fault UInt16) : Prop :=
  (∃ fault, result = .error fault ∧ result' = .error fault) ∨
    ∃ index index', result = .ok index ∧ result' = .ok index' ∧ step.Answers d d' index index'

theorem Step.SameResult.mono {step : Step} {d d' e e' : Draft} {result result' : Except Fault UInt16}
    (h : step.SameResult d d' result result') (hr : d.Remembers e) (hr' : d'.Remembers e') :
    step.SameResult e e' result result' := by
  obtain hfault | ⟨index, index', hi, hi', hanswers⟩ := h
  · exact .inl hfault
  refine .inr ⟨index, index', hi, hi', ?_⟩
  cases step with
  | text value => exact ⟨hanswers.1.mono hr, hanswers.2.mono hr'⟩
  | blob value => exact ⟨hr.blobs value _ hanswers.1, hr'.blobs value _ hanswers.2⟩
  | _ => exact hanswers

namespace Beside
variable {origin : Draft} {fields : List FieldDef} {methods : List MethodDef} {d d' : Draft}

theorem apply (h : Beside origin fields methods d d') (step : Step) :
    Beside origin fields methods (d.apply step).2 (d'.apply step).2 ∧
      step.SameResult (d.apply step).2 (d'.apply step).2 (d.apply step).1 (d'.apply step).1 := by
  have hboth := Drafting.wpBoth_perform step h
  unfold Drafting.wpBoth at hboth
  unfold Draft.apply
  cases hd : step.perform d <;> cases hd' : step.perform d' <;> simp only [hd, hd'] at hboth ⊢
  · exact ⟨hboth.1, .inr ⟨_, _, rfl, rfl, hboth.2⟩⟩
  · exact ⟨hboth.2, .inl ⟨_, rfl, by rw [hboth.1]⟩⟩

/-- Every later run keeps the drafts side by side and answers alike. -/
theorem applyAll (h : Beside origin fields methods d d') (steps : List Step) :
    Beside origin fields methods (d.applyAll steps).2 (d'.applyAll steps).2 ∧
      ∀ (i : Nat) step, steps[i]? = some step → ∃ result result',
        (d.applyAll steps).1[i]? = some result ∧ (d'.applyAll steps).1[i]? = some result' ∧
        step.SameResult (d.applyAll steps).2 (d'.applyAll steps).2 result result' := by
  induction steps generalizing d d' with
  | nil => exact ⟨h, fun i step hi => nomatch hi⟩
  | cons step steps ih =>
    obtain ⟨hstep, hresult⟩ := h.apply step
    obtain ⟨hrest, hresults⟩ := ih hstep
    refine ⟨hrest, fun i other hi => ?_⟩
    cases i with
    | zero =>
      cases hi
      exact ⟨_, _, rfl, rfl, hresult.mono (applyAll_of_additive _ steps) (applyAll_of_additive _ steps)⟩
    | succ i => exact hresults i other hi

end Beside

end Draft

end CompactAssembly
