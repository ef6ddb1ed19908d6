import CompactAssembly.Proofs.Interning
import CompactAssembly.Proofs.Leftovers

/-!
# Interned texts lead back to themselves

Which texts a step interns, and in what order, can be read off the step (`Draft.Step.texts`), failed or not: the
pool of strings is what these texts, interned one after the other, make of it (`Draft.strings_built`). What each
text got is the answer of the step or stands in the rows that it added (`Draft.Step.Enters`). In the image of a
run, each of these references leads to its text (`Draft.interned_texts_resolve`), also where built-in texts have
theirs (`Draft.interned_texts_resolve_high`).
-/

namespace CompactAssembly

/-- What is interned behind the members that are entered: the names of the type, or the name of a method whose
arguments cannot be counted. -/
def TypeDraft.lastTexts (t : TypeDraft) : List String :=
  match t.orderedFields.all FieldDraft.fits, t.orderedMethods.dropWhile MethodDraft.fits with
  | false, _ => []
  | true, [] => [t.name, t.nameSpace]
  | true, m :: _ => if m.signature.encode.isOk then [m.name] else []

/-- What is interned for a type, whether it is refused or not. -/
def TypeDraft.texts (t : TypeDraft) : List String :=
  t.enteredFields.map FieldDraft.name ++ t.enteredMethods.map MethodDraft.name ++ t.lastTexts

namespace TypeDraft
variable {t : TypeDraft}

theorem texts_of_field (h : t.orderedFields.all FieldDraft.fits = false) :
    t.texts = t.enteredFields.map FieldDraft.name ++ [].map MethodDraft.name ++ [] := by
  rw [texts, enteredMethods, lastTexts, h]
  rfl

theorem texts_of_method (h : t.orderedFields.all FieldDraft.fits = true) {before after : List MethodDraft}
    {m : MethodDraft} (hmethods : t.orderedMethods = before ++ m :: after)
    (hbefore : ∀ m' ∈ before, m'.fits = true) (hm : m.fits = false) :
    t.texts = t.orderedFields.map FieldDraft.name ++ before.map MethodDraft.name ++
      if m.signature.encode.isOk then [m.name] else [] := by
  have hne : ¬ m.fits = true := by rw [hm]; exact Bool.false_ne_true
  rw [texts, enteredFields, enteredMethods, lastTexts, h, if_pos rfl,
    List.takeWhile_eq_self_iff.2 (List.all_eq_true.1 h), hmethods, List.takeWhile_append_of_pos hbefore,
    List.takeWhile_cons_of_neg hne, List.append_nil, List.dropWhile_append_of_pos hbefore,
    List.dropWhile_cons_of_neg hne]

theorem texts_of_all (h : t.orderedFields.all FieldDraft.fits = true)
    (h' : ∀ m ∈ t.orderedMethods, m.fits = true) :
    t.texts = t.orderedFields.map FieldDraft.name ++ t.orderedMethods.map MethodDraft.name ++
      [t.name, t.nameSpace] := by
  rw [texts, enteredFields, enteredMethods, lastTexts, h, if_pos rfl,
    List.takeWhile_eq_self_iff.2 (List.all_eq_true.1 h), List.takeWhile_eq_self_iff.2 h',
    List.dropWhile_eq_nil_iff.2 h']

end TypeDraft

namespace Draft

/-- The texts that a step interns, in order, whether it fails or not. -/
def Step.texts : Step → List String
  | .text value => [value]
  | .blob _ | .body _ | .typeSpec _ | .attach .. | .resource .. => []
  | .assemblyRef name _ | .resourceFile name _ => [name]
  | .typeRef nameSpace name _ => [name, nameSpace]
  | .fieldRef _ name type => if (encodeField type).isOk then [name] else []
  | .methodRef _ name signature => if signature.encode.isOk then [name] else []
  | .typeDef type => type.texts

end Draft

/-- The references to the string heap in the rows that were added. -/
def addedNames {ρ : Type} [Interning ρ] (rows rows' : Array ρ) : List UInt16 :=
  (rows'.toList.drop rows.size).flatMap Interning.texts

section
variable {ρ : Type} [Interning ρ] (rows : Array ρ)

theorem addedNames_of_append {rows rows' : Array ρ} {added : List ρ} (h : rows'.toList = rows.toList ++ added) :
    addedNames rows rows' = added.flatMap Interning.texts := by
  rw [addedNames, h, ← Array.length_toList, List.drop_left]

@[simp] theorem addedNames_self : addedNames rows rows = [] := addedNames_of_append (List.append_nil _).symm

@[simp] theorem addedNames_push (row : ρ) : addedNames rows (rows.push row) = Interning.texts row := by
  rw [addedNames_of_append Array.toList_push, List.flatMap_singleton]

end

namespace Draft

/-- The names in the rows that were added. Those of a type stand behind those of its members. -/
def newNames (d d' : Draft) : List UInt16 :=
  addedNames d.assemblyRefs d'.assemblyRefs ++ addedNames d.typeRefs d'.typeRefs ++
    addedNames d.fieldRefs d'.fieldRefs ++ addedNames d.methodRefs d'.methodRefs ++
    addedNames d.resourceFiles d'.resourceFiles ++ addedNames d.fieldDefs d'.fieldDefs ++
    addedNames d.methodDefs d'.methodDefs ++ addedNames d.typeDefs d'.typeDefs

theorem NamesText.eq_reference {d : Draft} {value : String} {index : UInt16} (h : d.NamesText value index) :
    index = d.strings.reference value := by
  unfold NamesText at h
  unfold Pool.reference
  split at h
  · next hempty => rw [h, if_pos hempty]
  · next hempty =>
    rw [h, if_neg hempty]
    rfl

theorem names_of_forall₂ {α ρ : Type} [Interning ρ] {name : α → String} {index : String → UInt16} {as : List α}
    {rows : List ρ} (h : List.Forall₂ (fun a row => Interning.texts row = [index (name a)]) as rows) :
    rows.flatMap Interning.texts = (as.map name).map index := by
  induction h with
  | nil => rfl
  | cons hrow _ ih =>
    rw [List.flatMap_cons, hrow, ih]
    rfl

def Step.answered : Step → UInt16 → List UInt16
  | .text _, index => [index]
  | _, _ => []

/-- The fields and methods were entered; their names were interned in this order, and more texts behind them. -/
structure LeavesTexts (d : Draft) (fs : List FieldDraft) (ms : List MethodDraft) (more : List String)
    (d' : Draft) : Prop extends Leaves d fs ms d' where
  strings : d'.strings =
    d.strings.internAll (fs.map FieldDraft.name ++ ms.map MethodDraft.name ++ more)

namespace LeavesTexts
variable {fs : List FieldDraft} {ms : List MethodDraft} {more : List String} {d d₁ : Draft}

theorem refl (d : Draft) : LeavesTexts d [] [] [] d := ⟨Leaves.refl d, rfl⟩

theorem noting (h : LeavesTexts d fs ms more d₁) (position : Nat) :
    LeavesTexts d fs ms more (d₁.noting position) :=
  ⟨h.toLeaves.noting position, h.strings⟩

theorem withText (h : LeavesTexts d fs ms more d₁) (value : String) :
    LeavesTexts d fs ms (more ++ [value]) (d₁.withText value) := by
  refine ⟨h.toLeaves.withText value, ?_⟩
  rw [strings_withText, h.strings, ← List.append_assoc, Pool.internAll_concat]

theorem withBlob (h : LeavesTexts d fs ms more d₁) (value : List UInt8) :
    LeavesTexts d fs ms more (d₁.withBlob value) := by
  refine ⟨h.toLeaves.withBlob value, ?_⟩
  rw [strings_withBlob, h.strings]

theorem fieldDef {f : FieldDraft} {row : FieldDef} (h : LeavesTexts d fs [] [f.name] d₁)
    (hf : d₁.EntersField f row) :
    LeavesTexts d (fs ++ [f]) [] [] { d₁ with fieldDefs := d₁.fieldDefs.push row } := by
  refine ⟨h.toLeaves.fieldDef hf, ?_⟩
  show d₁.strings = _
  rw [h.strings, List.map_append, List.map_nil, List.append_nil, List.append_nil, List.append_nil]
  rfl

theorem methodDef {m : MethodDraft} {row : MethodDef} (h : LeavesTexts d fs ms [m.name] d₁)
    (hm : d₁.EntersMethod m row) :
    LeavesTexts d fs (ms ++ [m]) [] { d₁ with methodDefs := d₁.methodDefs.push row } := by
  refine ⟨h.toLeaves.methodDef hm, ?_⟩
  show d₁.strings = _
  rw [h.strings, List.map_append, List.append_nil, List.append_assoc]
  rfl

theorem newNames_eq (h : LeavesTexts d fs ms more d₁) :
    d.newNames d₁ = (fs.map FieldDraft.name ++ ms.map MethodDraft.name).map d₁.strings.reference := by
  obtain ⟨fields, hfields, hf⟩ := h.fields
  obtain ⟨methods, hmethods, hm⟩ := h.methods
  have hfs := names_of_forall₂ (hf.imp fun _ _ hrow => congrArg (· :: []) hrow.name.eq_reference)
  have hms := names_of_forall₂ (hm.imp fun _ _ hrow => congrArg (· :: []) hrow.name.eq_reference)
  rw [← addedNames_of_append hfields] at hfs
  rw [← addedNames_of_append hmethods] at hms
  unfold newNames
  rw [hfs, hms, h.rest, List.map_append]
  simp only [addedNames_self, List.nil_append, List.append_nil]

theorem newNames_typeDef (h : LeavesTexts d fs ms more d₁) (row : TypeDef) :
    d.newNames { d₁ with typeDefs := d₁.typeDefs.push row } = d.newNames d₁ ++ [row.name, row.nameSpace] := by
  unfold newNames
  rw [h.rest, addedNames_self d.typeDefs, addedNames_push, List.append_nil]
  rfl

end LeavesTexts

end Draft

namespace Drafting
open Draft

variable {d : Draft}

theorem wp_fieldDef_texts (fs : List FieldDraft) (f : FieldDraft) (d₁ : Draft) (h : LeavesTexts d fs [] [] d₁) :
    wp (fieldDef f) (fun _ d' => f.fits = true ∧ LeavesTexts d (fs ++ [f]) [] [] d')
      (fun d' => f.fits = false ∧ LeavesTexts d fs [] [] d') d₁ := by
  unfold fieldDef FieldDraft.fits
  simp only [wp_bind, wp_ofExcept, wp_blob, wp_text, wp_modify]
  refine ⟨fun xs hxs => ⟨by rw [hxs]; rfl, ?_⟩, fun fault hfault => ⟨by rw [hfault]; rfl, h⟩⟩
  exact ((h.withBlob xs).withText f.name).fieldDef
    ⟨namesText_withText .., ⟨xs, hxs, find?_withBlob_withText ..⟩, rfl⟩

/-- A method whose arguments cannot be counted is refused after its name was interned. -/
theorem wp_methodDef_texts {fs : List FieldDraft} (ms : List MethodDraft) (m : MethodDraft) (d₁ : Draft)
    (h : (∀ m' ∈ ms, m'.fits = true) ∧ LeavesTexts d fs ms [] d₁) :
    wp (methodDef m) (fun _ d' => (∀ m' ∈ ms ++ [m], m'.fits = true) ∧ LeavesTexts d fs (ms ++ [m]) [] d')
      (fun d' => ((∀ m' ∈ ms, m'.fits = true) ∧ m.fits = false) ∧
        LeavesTexts d fs ms (if m.signature.encode.isOk then [m.name] else []) d') d₁ := by
  obtain ⟨hms, h⟩ := h
  unfold methodDef
  simp only [wp_bind, wp_ofExcept, wp_blob, wp_text, wp_count, wp_modify]
  refine ⟨fun xs hxs => ⟨fun hcount => ⟨?_, ?_⟩, fun hcount => ⟨⟨hms, ?_⟩, ?_⟩⟩,
    fun fault hfault => ⟨⟨hms, ?_⟩, ?_⟩⟩
  · have hfits : m.fits = true := by
      rw [MethodDraft.fits, hxs, decide_eq_true hcount]
      rfl
    exact List.forall_mem_append.2 ⟨hms, List.forall_mem_singleton.2 hfits⟩
  · exact ((h.withBlob xs).withText m.name).methodDef
      ⟨namesText_withText .., ⟨xs, hxs, find?_withBlob_withText ..⟩, rfl, rfl⟩
  · rw [MethodDraft.fits, decide_eq_false (Nat.not_lt.2 hcount), Bool.and_false]
  · rw [hxs]
    exact (h.withBlob xs).withText m.name
  · rw [MethodDraft.fits, hfault]
    rfl
  · rw [hfault]
    exact h

/-- A type interns the names of its members as far as they fit and then its own; all of them are in rows if it
succeeds, and else those of its members. -/
theorem wp_typeDef_texts (t : TypeDraft) (d : Draft) :
    wp (typeDef t)
      (fun _ d' => d'.strings = d.strings.internAll t.texts ∧ d.newNames d' = t.texts.map d'.strings.reference)
      (fun d' => ∃ fs ms more, LeavesTexts d fs ms more d' ∧
        t.texts = fs.map FieldDraft.name ++ ms.map MethodDraft.name ++ more) d := by
  rw [wp_typeDef_groups]
  refine wp_mono (wp_forM_takeWhile wp_fieldDef_texts [] t.staticFields ((LeavesTexts.refl d).noting _))
    (fun _ d₁ hpassed => ?_) (fun d₁ hfailed => ?_)
  · obtain ⟨hstatic, h₁⟩ := hpassed
    refine wp_mono (wp_forM_takeWhile wp_fieldDef_texts _ t.instanceFields (h₁.noting _))
      (fun _ d₂ hpassed => ?_) (fun d₂ hfailed => ?_)
    · obtain ⟨hinstance, h₂⟩ := hpassed
      have hfields : t.orderedFields.all FieldDraft.fits = true := by
        rw [TypeDraft.orderedFields, List.all_append, hstatic, hinstance]
        rfl
      rw [List.nil_append] at h₂
      refine wp_mono (wp_forM_until wp_methodDef_texts [] t.orderedMethods ⟨List.forall_mem_nil _, h₂.noting _⟩)
        (fun _ d₃ hpassed => ?_) (fun d₃ hfailed => ?_)
      · -- both names of the type are interned before any of its counts can be refused
        obtain ⟨hall, h₃⟩ := hpassed
        have h₄ : LeavesTexts d t.orderedFields t.orderedMethods [t.name, t.nameSpace] _ :=
          (h₃.withText t.name).withText t.nameSpace
        have htexts := TypeDraft.texts_of_all hfields hall
        have hrefused : ∃ fs ms more, LeavesTexts d fs ms more ((d₃.withText t.name).withText t.nameSpace) ∧
            t.texts = fs.map FieldDraft.name ++ ms.map MethodDraft.name ++ more := ⟨_, _, _, h₄, htexts⟩
        simp only [typeRecord, wp_bind, wp_get, wp_reference, wp_text, wp_count, wp_modify, hrefused, implies_true,
          and_true]
        intro _ _ _ _ _
        refine ⟨h₄.strings.trans (congrArg _ htexts.symm), ?_⟩
        refine (h₄.newNames_typeDef _).trans ?_
        show _ = t.texts.map ((d₃.withText t.name).withText t.nameSpace).strings.reference
        rw [h₄.newNames_eq, references_pair, htexts, ← List.map_append]
      · obtain ⟨before, m, after, hmethods, ⟨hbefore, hm⟩, h₃⟩ := hfailed
        exact ⟨_, _, _, h₃, TypeDraft.texts_of_method hfields hmethods hbefore hm⟩
    · obtain ⟨hinstance, h₂⟩ := hfailed
      have hfields : t.orderedFields.all FieldDraft.fits = false := by
        rw [TypeDraft.orderedFields, List.all_append, hinstance, Bool.and_false]
      refine ⟨_, _, _, h₂, ?_⟩
      rw [TypeDraft.texts_of_field hfields, (TypeDraft.entered_of_instance hstatic hinstance).1]
      rfl
  · obtain ⟨hstatic, h₁⟩ := hfailed
    have hfields : t.orderedFields.all FieldDraft.fits = false := by
      rw [TypeDraft.orderedFields, List.all_append, hstatic, Bool.false_and]
    refine ⟨_, _, _, h₁, ?_⟩
    rw [TypeDraft.texts_of_field hfields, (TypeDraft.entered_of_static hstatic).1]
    rfl

/-- What a step interns and what it stores the references in, failed or not. -/
theorem wp_perform_interns (step : Step) (d : Draft) :
    wp step.perform
      (fun answer d' => d'.strings = d.strings.internAll step.texts ∧
        step.answered answer ++ d.newNames d' = step.texts.map d'.strings.reference)
      (fun d' => d'.strings = d.strings.internAll step.texts ∧
        d.newNames d' <+: step.texts.map d'.strings.reference) d := by
  cases step with
  | text value =>
    obtain ⟨overflow, hd⟩ := d.withText_eq_intern value
    simp only [Step.perform, wp_text, reference_withText, hd, newNames, addedNames_self]
    exact ⟨rfl, rfl⟩
  | blob value =>
    obtain ⟨signatures, overflow, hd⟩ := d.withBlob_eq value
    simp only [Step.perform, wp_blob, hd, newNames, addedNames_self]
    exact ⟨rfl, rfl⟩
  | body code =>
    simp only [Step.perform, body, wp_bind, wp_get, wp_reference, wp_modify, wp_pure, newNames, noting,
      addedNames_self]
    exact ⟨rfl, rfl⟩
  | assemblyRef name version =>
    obtain ⟨overflow, hd⟩ := d.withText_eq_intern name
    simp only [Step.perform, assemblyRef, wp_bind, wp_text, wp_modify, wp_get, wp_reference, reference_withText,
      hd, newNames, noting, addedNames_self, addedNames_push]
    exact ⟨rfl, rfl⟩
  | typeRef nameSpace name scope =>
    have hpair := references_pair d name nameSpace
    obtain ⟨overflow, hd⟩ := d.withText_eq_intern name
    obtain ⟨overflow', hd'⟩ := (d.withText name).withText_eq_intern nameSpace
    rw [hd] at hd' hpair
    rw [hd'] at hpair
    simp only [Step.perform, typeRef, wp_bind, wp_text, wp_modify, wp_get, wp_reference, hd, hd', newNames, noting,
      addedNames_self, addedNames_push]
    exact ⟨rfl, hpair⟩
  | fieldRef container name type =>
    simp only [Step.perform, fieldRef, wp_bind, wp_ofExcept, wp_blob, wp_text, wp_modify, wp_get, wp_reference]
    refine ⟨fun xs hxs => ?_, fun fault hfault => ?_⟩
    · obtain ⟨signatures, overflow, hd, hname⟩ := d.withBlob_withText_eq xs name
      simp only [hd, hname, Step.texts, hxs, newNames, noting, addedNames_self, addedNames_push]
      exact ⟨rfl, rfl⟩
    · simp only [Step.texts, hfault, newNames, addedNames_self]
      exact ⟨rfl, List.nil_prefix⟩
  | methodRef container name signature =>
    simp only [Step.perform, methodRef, wp_bind, wp_ofExcept, wp_blob, wp_text, wp_modify, wp_get, wp_reference]
    refine ⟨fun xs hxs => ?_, fun fault hfault => ?_⟩
    · obtain ⟨signatures, overflow, hd, hname⟩ := d.withBlob_withText_eq xs name
      simp only [hd, hname, Step.texts, hxs, newNames, noting, addedNames_self, addedNames_push]
      exact ⟨rfl, rfl⟩
    · simp only [Step.texts, hfault, newNames, addedNames_self]
      exact ⟨rfl, List.nil_prefix⟩
  | typeSpec type =>
    simp only [Step.perform, typeSpec, wp_bind, wp_ofExcept, wp_blob, wp_modify, wp_get, wp_reference]
    refine ⟨fun xs _ => ?_, fun _ _ => ?_⟩
    · obtain ⟨signatures, overflow, hb⟩ := d.withBlob_eq xs
      simp only [hb, newNames, noting, addedNames_self]
      exact ⟨rfl, rfl⟩
    · simp only [newNames, addedNames_self]
      exact ⟨rfl, List.nil_prefix⟩
  | attach owner ownerIndex constructor data =>
    obtain ⟨signatures, overflow, hd⟩ := d.withBlob_eq data
    simp only [Step.perform, attach, wp_bind, wp_blob, wp_modify, wp_get, wp_reference, hd, newNames, noting,
      addedNames_self]
    exact ⟨rfl, rfl⟩
  | resource id kind data =>
    simp only [Step.perform, resource, wp_bind, wp_resourceOffset, wp_get, wp_modify, wp_reference, newNames,
      noting, addedNames_self]
    exact ⟨rfl, rfl⟩
  | resourceFile name resourceCount =>
    obtain ⟨overflow, hd⟩ := d.withText_eq_intern name
    simp only [Step.perform, resourceFile, wp_bind, wp_text, wp_modify, wp_get, wp_reference, reference_withText,
      hd, newNames, noting, addedNames_self, addedNames_push]
    exact ⟨rfl, rfl⟩
  | typeDef type =>
    refine wp_mono (wp_typeDef_texts type d) (fun _ _ h => h) fun d' hrefused => ?_
    obtain ⟨fs, ms, more, h, htexts⟩ := hrefused
    refine ⟨h.strings.trans (congrArg _ htexts.symm), ?_⟩
    rw [h.newNames_eq, Step.texts, htexts]
    exact (List.prefix_append _ more).map _

end Drafting

namespace Draft
variable {d : Draft}

/-- What a step interned, and where it put what each text got: it answered the reference or stored it in the
rows it added, in this order. A step that failed may have added rows for the first of the texts. -/
structure Step.Enters (step : Step) (index : String → UInt16) (d : Draft) (outcome : Except Fault UInt16 × Draft) :
    Prop where
  strings : outcome.2.strings = d.strings.internAll step.texts
  done : ∀ answer, outcome.1 = .ok answer →
    step.answered answer ++ d.newNames outcome.2 = step.texts.map index
  left : ∀ fault, outcome.1 = .error fault → d.newNames outcome.2 <+: step.texts.map index

theorem enters_apply (step : Step) (d : Draft) :
    step.Enters (d.apply step).2.strings.reference d (d.apply step) := by
  have h := Drafting.wp_perform_interns step d
  unfold Drafting.wp at h
  unfold apply
  cases hrun : step.perform d with
  | ok answer d' =>
    rw [hrun] at h
    exact ⟨h.1, fun _ hanswer => by cases hanswer; exact h.2, nofun⟩
  | error fault d' =>
    rw [hrun] at h
    exact ⟨h.1, nofun, fun _ _ => h.2⟩

theorem Step.Enters.grow {step : Step} {d : Draft} {outcome : Except Fault UInt16 × Draft}
    (h : step.Enters outcome.2.strings.reference d outcome) (more : List String) :
    step.Enters (outcome.2.strings.internAll more).reference d outcome := by
  have hkept : step.texts.map (outcome.2.strings.internAll more).reference =
      step.texts.map outcome.2.strings.reference := by
    rw [h.strings]
    exact d.strings.map_reference_internAll step.texts more
  exact ⟨h.strings, fun answer ha => hkept ▸ h.done answer ha, fun fault hf => hkept ▸ h.left fault hf⟩

theorem strings_applyAll (d : Draft) (steps : List Step) :
    (d.applyAll steps).2.strings = d.strings.internAll (steps.flatMap Step.texts) := by
  induction steps generalizing d with
  | nil => rfl
  | cons step steps ih =>
    show ((d.apply step).2.applyAll steps).2.strings = _
    rw [ih, (enters_apply step d).strings, List.flatMap_cons, Pool.internAll_append]

theorem strings_built (name : String) (version : Version) (steps : List Step) :
    (built name version steps).strings = Pool.empty.internAll (steps.flatMap Step.texts) :=
  strings_applyAll (named name version) steps

theorem name_built (name : String) (version : Version) (steps : List Step) :
    (built name version steps).name = name := (extends_applyAll (named name version) steps).name

theorem strings_closed (name : String) (version : Version) (steps : List Step) :
    (built name version steps).closed.strings =
      Pool.empty.internAll (steps.flatMap Step.texts ++ [name]) := by
  show ((built name version steps).withText (built name version steps).name).strings = _
  rw [strings_withText, name_built, strings_built, Pool.internAll_concat]

theorem SoundTexts.closed (h : d.SoundTexts) : d.closed.SoundTexts := h.withText d.name

/-- Every text that a run interned leads back to itself, up to its first zero character, however high its
reference is; the reference is the same whenever the text is interned again, which leaves the draft as it is; and
texts without zero characters do not share one. -/
theorem interned_texts_resolve {name : String} {version : Version} {steps : List Step} {data : Bytes}
    (h : (built name version steps).image = .ok data) :
    ∃ image, Image.ofBytes data = .ok image ∧
      let texts := steps.flatMap Step.texts ++ [name]
      let strings := Pool.empty.internAll texts
      image.region .strings = .ok strings.heap ∧
      (∀ before step after, steps = before ++ step :: after →
        let d := built name version before
        d.strings = Pool.empty.internAll (before.flatMap Step.texts) ∧
          step.Enters strings.reference d (d.apply step)) ∧
      image.header.assemblyName = strings.reference name ∧
      (∀ before value after, texts = before ++ value :: after → ∀ d : Draft,
        d.strings = Pool.empty.internAll before → ∃ d',
          Drafting.text value d = .ok (strings.reference value) d' ∧
          d'.strings = Pool.empty.internAll (before ++ [value])) ∧
      (∀ before after, texts = before ++ after → ∀ value ∈ before, ∀ d : Draft,
        d.strings = Pool.empty.internAll before →
          Drafting.text value d = .ok (strings.reference value) d) ∧
      (∀ value ∈ texts, builtinText? (strings.reference value) strings.heap.size = none ∧
        strings.heap.text (strings.reference value) = .ok (Text.untilZero value) ∧
        ('\x00' ∉ value.toList → strings.heap.text (strings.reference value) = .ok value)) ∧
      ∀ value ∈ texts, ∀ other ∈ texts, '\x00' ∉ value.toList → '\x00' ∉ other.toList →
        strings.reference value = strings.reference other → value = other := by
  obtain ⟨header, hc⟩ := closes_of_image h
  have hclosed := strings_closed name version steps
  have hsound := (soundTexts_built name version steps).closed hc.overflow
  rw [hclosed] at hsound
  refine ⟨Image.view data header, hc.laid.ofBytes, ?_, ?_, ?_, ?_, ?_, ?_, ?_⟩
  · rw [← hclosed]
    exact hc.holds.strings
  · rintro before step after rfl
    refine ⟨strings_built name version before, ?_⟩
    -- what the step got is not touched by the texts of later steps
    have hgrow := (enters_apply step (built name version before)).grow (after.flatMap Step.texts ++ [name])
    rw [(enters_apply step _).strings, strings_built, ← Pool.internAll_append, ← Pool.internAll_append] at hgrow
    simpa only [List.flatMap_append, List.flatMap_cons, List.append_assoc] using hgrow
  · show header.assemblyName = _
    rw [hc.name, reference_withText, ← hclosed]
    exact congrArg _ (name_built name version steps)
  · rintro before value after htexts d hd
    refine ⟨d.withText value, ?_, ?_⟩
    · rw [htexts, Pool.internAll_append, Pool.reference_internAll_cons, ← hd]
      exact Drafting.run_text value d
    · rw [strings_withText, hd, Pool.internAll_concat]
  · intro before after htexts value hvalue d hd
    have hknows := Pool.empty.knows_of_mem hvalue
    rw [htexts, Pool.internAll_append, (hknows.internAll after).2]
    rw [← hd] at hknows ⊢
    exact (Drafting.run_text value d).trans (congrArg _ (withText_of_knows hknows))
  · intro value hvalue
    obtain ⟨hbuiltin, htext⟩ := hsound.text_reference (Pool.empty.knows_of_mem hvalue)
    exact ⟨hbuiltin, htext, fun hzero => htext.trans (congrArg _ (Text.untilZero_eq_self hzero))⟩
  · intro value hvalue other hother hzero hzero' heq
    exact hsound.reference_inj (Pool.empty.knows_of_mem hvalue) (Pool.empty.knows_of_mem hother) hzero hzero' heq

/-! A run that interns nothing but texts gives an image if they fit into the heap. -/

def storedSize (value : String) : Nat := value.utf8ByteSize + 1

theorem size_heap_intern_le (strings : Pool String) (value : String) :
    (strings.intern value).heap.size ≤ strings.heap.size + storedSize value := by
  unfold Pool.intern
  split
  · exact Nat.le_add_right ..
  · rw [Pool.heap_insert, ← Array.length_toList, Array.toList_appendList, List.length_append, Array.length_toList,
      List.length_append]
    exact Nat.le_refl _

theorem size_heap_internAll_le (strings : Pool String) (values : List String) :
    (strings.internAll values).heap.size ≤ strings.heap.size + (values.map storedSize).sum := by
  induction values generalizing strings with
  | nil => exact Nat.le_refl _
  | cons value values ih =>
    have hstep := size_heap_intern_le strings value
    have hrest := ih (strings.intern value)
    rw [List.map_cons, List.sum_cons]
    show ((strings.intern value).internAll values).heap.size ≤ _
    omega

theorem withText_of_room {d : Draft} (value : String) (h : d.strings.heap.size < 0xFFFF) :
    d.withText value = { d with strings := d.strings.intern value } := by
  unfold withText Pool.intern
  split
  · rfl
  · rw [noting_of_lt h]

theorem applyAll_texts {d : Draft} {values : List String}
    (h : d.strings.heap.size + (values.map storedSize).sum < 0xFFFF) :
    (d.applyAll (values.map Step.text)).2 = { d with strings := d.strings.internAll values } := by
  induction values generalizing d with
  | nil => rfl
  | cons value values ih =>
    have hstep : (d.apply (.text value)).2 = d.withText value := by
      unfold apply
      simp only [Step.perform, Drafting.run_text]
    have hsize := size_heap_intern_le d.strings value
    rw [List.map_cons, List.sum_cons] at h
    show ((d.apply (.text value)).2.applyAll (values.map Step.text)).2 = _
    rw [hstep, withText_of_room value (by omega)]
    refine ih ?_
    show (d.strings.intern value).heap.size + _ < _
    omega

theorem image_of_texts {name : String} (version : Version) {values : List String}
    (h : ((values ++ [name]).map storedSize).sum < 0xFFFF) :
    ∃ data, (built name version (values.map Step.text)).image = .ok data := by
  have hheap := size_heap_internAll_le .empty (values ++ [name])
  have hroom := size_heap_internAll_le .empty values
  have hempty : (Pool.empty : Pool String).heap.size = 0 := rfl
  rw [List.map_append, List.sum_append, List.map_singleton, List.sum_singleton] at h hheap
  have hbuilt : built name version (values.map Step.text) =
      { named name version with strings := Pool.empty.internAll values } :=
    applyAll_texts (by show 0 + _ < _; omega)
  have hfits : (Pool.empty.internAll values).heap.size < 0xFFFF := by omega
  generalize built name version (values.map Step.text) = d at hbuilt ⊢
  have hclosed : d.closed = { named name version with strings := Pool.empty.internAll (values ++ [name]) } := by
    rw [closed, hbuilt, withText_of_room _ hfits, Pool.internAll_concat]
    rfl
  have hregion : ∀ kind ∈ TableKind.all, (d.closed.region kind).size ≤ 0xFFFF := by
    intro kind _
    rw [hclosed]
    cases kind with
    | strings => exact show (Pool.empty.internAll (values ++ [name])).heap.size ≤ _ by omega
    | _ => exact Nat.zero_le _
  have hbody : d.closed.body.size ≤ 16 * (0xFFFF + 3) := by
    rw [body, ← Array.length_toList, toList_layRegions]
    exact length_flatMap_padded_le hregion
  have hheader : Header.size ≤ 256 := by decide
  have hdata : d.resourcesData.size = 0 := by
    rw [hbuilt]
    rfl
  have hoverflow : d.closed.overflow = false := by
    rw [hclosed]
    rfl
  obtain ⟨data, -, himage, -⟩ := image_closes (close_ok (by omega)) hoverflow (by omega)
  exact ⟨data, himage⟩

def longText (n : Nat) : String := String.ofList (List.replicate n 'a')

theorem storedSize_longText (n : Nat) : storedSize (longText n) = n + 1 := by
  show (longText n).toUTF8.data.toList.length + 1 = n + 1
  rw [utf8_eq_flatMap, longText, String.toList_ofList, List.length_flatMap, List.map_replicate, List.sum_replicate]
  exact congrArg (· + 1) (Nat.mul_one n)

theorem reference_second {value other : String} (h : storedSize other < storedSize value)
    (hother : other.isEmpty = false) :
    (Pool.empty.intern value).reference other = referenceFor (storedSize value) := by
  have hempty : ¬ value.isEmpty = true := fun he => by
    rw [String.isEmpty_iff.1 he] at h
    exact absurd (Nat.lt_of_succ_lt_succ h) (Nat.not_lt_zero _)
  have hne : value ≠ other := fun he => absurd h (he ▸ Nat.lt_irrefl _)
  have hnone : ∀ text, (Pool.empty : Pool String).find? text = none := fun text => by
    simp [Pool.empty, Pool.find?]
  have hnew : Pool.empty.intern value = Pool.empty.insert value (value.toUTF8.data.toList ++ [0]) 0 := by
    unfold Pool.intern
    rw [hnone, if_neg (by rintro (he | ⟨⟨⟩⟩); exact hempty he)]
    rfl
  have hsize : ((Pool.empty : Pool String).heap ++ (value.toUTF8.data.toList ++ [0])).size = storedSize value := by
    rw [← Array.length_toList, Array.toList_appendList, List.length_append, List.length_append]
    exact Nat.zero_add _
  rw [hnew, Pool.reference, hother, Pool.find?_insert_of_ne _ _ _ hne, hnone, Pool.heap_insert, hsize]
  rfl

/-- The second text lies where the references of built-in texts begin, and is found there. -/
theorem interned_texts_resolve_high :
    ∃ long data image heap, storedSize long = 0x8000 ∧
      (built "A" .zero [.text long, .text "x"]).image = .ok data ∧
      Image.ofBytes data = .ok image ∧ image.region .strings = .ok heap ∧
      builtinText? 0x8000 heap.size = none ∧ heap.text 0x8000 = .ok "x" := by
  obtain ⟨long, hlong⟩ : ∃ long, storedSize long = 0x8000 := ⟨_, storedSize_longText 0x7FFF⟩
  obtain ⟨data, h⟩ := @image_of_texts "A" .zero [long, "x"] (by
    simp only [List.cons_append, List.nil_append, List.map_cons, List.map_nil, List.sum_cons, List.sum_nil, hlong]
    decide)
  have hsecond : (Pool.empty.intern long).reference "x" = 0x8000 := by
    rw [reference_second (by rw [hlong]; decide) rfl, hlong]
    rfl
  have hindex := (Pool.reference_internAll_cons _ "x" ["A"]).trans hsecond
  obtain ⟨image, himage, hheap, -, -, -, -, htexts, -⟩ := interned_texts_resolve h
  obtain ⟨hbuiltin, -, htext⟩ := htexts "x" (by simp [Step.texts])
  exact ⟨long, data, image, _, hlong, h, himage, hheap, hindex ▸ hbuiltin, hindex ▸ htext (by decide)⟩

end Draft

end CompactAssembly
