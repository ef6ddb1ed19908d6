import CompactAssembly.Proofs.ImageLayout
import CompactAssembly.Proofs.Parallel

/-!
# What a refused type leaves behind

A type definition that fails adds no type, but the members it had entered before the failure stay, in the
tables and in the heaps, and belong to no type (`Drafting.wp_typeDef_leaves`). Which members these are depends on
the declaration alone: the fields up to the first whose signature cannot be stored and, when all fields were
entered, the methods up to the first that is refused. Every later run goes on beside the members left behind
(`Draft.refused_type_leaves_members`); one that is refused for its first member leaves nothing.
-/

namespace CompactAssembly

def FieldDraft.fits (f : FieldDraft) : Bool := (encodeField f.type).isOk

/-- Its signature can be stored, and its arguments can be counted. -/
def MethodDraft.fits (m : MethodDraft) : Bool :=
  m.signature.encode.isOk && decide (m.signature.params.length + (if m.signature.hasThis then 1 else 0) < 256)

namespace TypeDraft

/-- The fields that are entered, whether the type is refused or not. -/
def enteredFields (t : TypeDraft) : List FieldDraft := t.orderedFields.takeWhile FieldDraft.fits

/-- The methods that are entered, whether the type is refused or not. -/
def enteredMethods (t : TypeDraft) : List MethodDraft :=
  if t.orderedFields.all FieldDraft.fits then t.orderedMethods.takeWhile MethodDraft.fits else []

theorem takeWhile_append_of_not_all {α : Type} {p : α → Bool} {xs ys : List α} (h : xs.all p = false) :
    (xs ++ ys).takeWhile p = xs.takeWhile p := by
  induction xs with
  | nil => cases h
  | cons x xs ih =>
    rw [List.cons_append]
    cases hx : p x with
    | false => rw [List.takeWhile_cons_of_neg (by simp [hx]), List.takeWhile_cons_of_neg (by simp [hx])]
    | true =>
      rw [List.all_cons, hx, Bool.true_and] at h
      rw [List.takeWhile_cons_of_pos hx, List.takeWhile_cons_of_pos hx, ih h]

variable {t : TypeDraft}

theorem entered_of_static (h : t.staticFields.all FieldDraft.fits = false) :
    t.enteredFields = t.staticFields.takeWhile FieldDraft.fits ∧ t.enteredMethods = [] := by
  unfold enteredFields enteredMethods orderedFields
  rw [takeWhile_append_of_not_all h, List.all_append, h]
  exact ⟨rfl, rfl⟩

theorem entered_of_instance (h : t.staticFields.all FieldDraft.fits = true)
    (h' : t.instanceFields.all FieldDraft.fits = false) :
    t.enteredFields = t.staticFields ++ t.instanceFields.takeWhile FieldDraft.fits ∧ t.enteredMethods = [] := by
  unfold enteredFields enteredMethods orderedFields
  rw [List.takeWhile_append_of_pos (List.all_eq_true.1 h), List.all_append, h, h']
  exact ⟨rfl, rfl⟩

theorem entered_of_all (h : t.staticFields.all FieldDraft.fits = true)
    (h' : t.instanceFields.all FieldDraft.fits = true) :
    t.enteredFields = t.staticFields ++ t.instanceFields ∧
      t.enteredMethods = t.orderedMethods.takeWhile MethodDraft.fits := by
  unfold enteredFields enteredMethods orderedFields
  rw [List.takeWhile_append_of_pos (List.all_eq_true.1 h), List.all_append, h, h',
    List.takeWhile_eq_self_iff.2 (List.all_eq_true.1 h')]
  exact ⟨rfl, rfl⟩

/-- Not even the first member has a signature that can be stored. -/
def RefusedAtOnce (t : TypeDraft) : Prop :=
  match t.orderedFields, t.orderedMethods with
  | f :: _, _ => f.fits = false
  | [], m :: _ => m.signature.encode.isOk = false
  | [], [] => False

end TypeDraft

namespace Draft

/-- These members were entered, and nothing else but in the heaps. -/
structure Leaves (d : Draft) (fs : List FieldDraft) (ms : List MethodDraft) (d' : Draft) : Prop
    extends Remembers d d' where
  fields : ∃ rows, d'.fieldDefs.toList = d.fieldDefs.toList ++ rows ∧ List.Forall₂ d'.EntersField fs rows
  methods : ∃ rows, d'.methodDefs.toList = d.methodDefs.toList ++ rows ∧ List.Forall₂ d'.EntersMethod ms rows
  rest : d' = { d with
    strings := d'.strings, signatures := d'.signatures, fieldDefs := d'.fieldDefs, methodDefs := d'.methodDefs
    overflow := d'.overflow }

namespace Leaves
variable {fs : List FieldDraft} {ms : List MethodDraft} {d d₁ d₂ : Draft}

theorem refl (d : Draft) : Leaves d [] [] d where
  toRemembers := Lasting.refl d
  fields := ⟨[], (List.append_nil _).symm, .nil⟩
  methods := ⟨[], (List.append_nil _).symm, .nil⟩
  rest := rfl

theorem intern (h : Leaves d fs ms d₁) (hd : d₁.Interns d₂) : Leaves d fs ms d₂ where
  toRemembers := Lasting.trans h.toRemembers hd.toRemembers
  fields := by
    obtain ⟨rows, hrows, hfields⟩ := h.fields
    have hkept := hfields.imp fun _ _ => EntersField.mono hd.toRemembers
    rw [hd.rest] at hkept ⊢
    exact ⟨rows, hrows, hkept⟩
  methods := by
    obtain ⟨rows, hrows, hmethods⟩ := h.methods
    have hkept := hmethods.imp fun _ _ => EntersMethod.mono hd.toRemembers
    rw [hd.rest] at hkept ⊢
    exact ⟨rows, hrows, hkept⟩
  rest := by
    rw [hd.rest, h.rest]

theorem noting (h : Leaves d fs ms d₁) (position : Nat) : Leaves d fs ms (d₁.noting position) :=
  h.intern (Lasting.noting d₁ position)

theorem withText (h : Leaves d fs ms d₁) (value : String) : Leaves d fs ms (d₁.withText value) :=
  h.intern (Lasting.withText d₁ value)

theorem withBlob (h : Leaves d fs ms d₁) (value : List UInt8) : Leaves d fs ms (d₁.withBlob value) :=
  h.intern (Lasting.withBlob d₁ value)

theorem fieldDef (h : Leaves d fs ms d₁) {f : FieldDraft} {row : FieldDef} (hf : d₁.EntersField f row) :
    Leaves d (fs ++ [f]) ms { d₁ with fieldDefs := d₁.fieldDefs.push row } := by
  have hr : d₁.Remembers { d₁ with fieldDefs := d₁.fieldDefs.push row } := Additive.fieldDef d₁ row
  obtain ⟨rows, hrows, hfields⟩ := h.fields
  obtain ⟨rows', hrows', hmethods⟩ := h.methods
  refine ⟨Lasting.trans h.toRemembers hr, ⟨rows ++ [row], ?_, ?_⟩,
    ⟨rows', hrows', hmethods.imp fun _ _ => EntersMethod.mono hr⟩, ?_⟩
  · rw [Array.toList_push, hrows, List.append_assoc]
  · exact List.rel_append (hfields.imp fun _ _ => EntersField.mono hr) (.cons (hf.mono hr) .nil)
  · rw [h.rest]

theorem methodDef (h : Leaves d fs ms d₁) {m : MethodDraft} {row : MethodDef} (hm : d₁.EntersMethod m row) :
    Leaves d fs (ms ++ [m]) { d₁ with methodDefs := d₁.methodDefs.push row } := by
  have hr : d₁.Remembers { d₁ with methodDefs := d₁.methodDefs.push row } := Additive.methodDef d₁ row
  obtain ⟨rows, hrows, hfields⟩ := h.fields
  obtain ⟨rows', hrows', hmethods⟩ := h.methods
  refine ⟨Lasting.trans h.toRemembers hr, ⟨rows, hrows, hfields.imp fun _ _ => EntersField.mono hr⟩,
    ⟨rows' ++ [row], ?_, ?_⟩, ?_⟩
  · rw [Array.toList_push, hrows', List.append_assoc]
  · exact List.rel_append (hmethods.imp fun _ _ => EntersMethod.mono hr) (.cons (hm.mono hr) .nil)
  · rw [h.rest]

end Leaves

end Draft

namespace Drafting
open Draft

variable {α : Type} {d d₁ : Draft}

/-- A run over a list gets as far as its elements pass. -/
theorem wp_forM_takeWhile {op : α → Drafting Unit} {pass : α → Bool} {P : List α → Draft → Prop}
    (hop : ∀ done a d, P done d → wp (op a) (fun _ d' => pass a = true ∧ P (done ++ [a]) d')
      (fun d' => pass a = false ∧ P done d') d)
    (done as : List α) (h : P done d) :
    wp (as.forM op) (fun _ d' => as.all pass = true ∧ P (done ++ as) d')
      (fun d' => as.all pass = false ∧ P (done ++ as.takeWhile pass) d') d := by
  have hrun := wp_forM_until (P := fun passed d => passed.all pass = true ∧ P (done ++ passed) d)
    (F := fun passed a d => passed.all pass = true ∧ pass a = false ∧ P (done ++ passed) d)
    (fun passed a d ⟨hpassed, h⟩ => wp_mono (hop _ a d h)
      (fun _ d' ⟨ha, h'⟩ => ⟨by rw [List.all_append, hpassed, List.all_cons, ha]; rfl, by rwa [← List.append_assoc]⟩)
      fun d' h' => ⟨hpassed, h'⟩)
    [] as ⟨rfl, by rwa [List.append_nil]⟩
  refine wp_mono hrun (fun _ _ h => h) fun d' ⟨before, a, after, has, hbefore, ha, h'⟩ => ?_
  have hne : ¬ pass a = true := by rw [ha]; exact Bool.false_ne_true
  rw [List.nil_append] at hbefore h'
  rw [has, List.all_append, List.all_cons, ha, Bool.false_and, Bool.and_false,
    List.takeWhile_append_of_pos (List.all_eq_true.1 hbefore), List.takeWhile_cons_of_neg hne, List.append_nil]
  exact ⟨rfl, h'⟩

theorem wp_fieldDef_leaves (ms : List MethodDraft) (fs : List FieldDraft) (f : FieldDraft) (d₁ : Draft)
    (h : Leaves d fs ms d₁) :
    wp (fieldDef f) (fun _ d' => f.fits = true ∧ Leaves d (fs ++ [f]) ms d')
      (fun d' => f.fits = false ∧ Leaves d fs ms d') d₁ := by
  unfold fieldDef FieldDraft.fits
  simp only [wp_bind, wp_ofExcept, wp_blob, wp_text, wp_modify]
  refine ⟨fun xs hxs => ⟨by rw [hxs]; rfl, ?_⟩, fun fault hfault => ⟨by rw [hfault]; rfl, h⟩⟩
  exact ((h.withBlob xs).withText f.name).fieldDef
    ⟨namesText_withText .., ⟨xs, hxs, find?_withBlob_withText ..⟩, rfl⟩

theorem wp_methodDef_leaves (fs : List FieldDraft) (ms : List MethodDraft) (m : MethodDraft) (d₁ : Draft)
    (h : Leaves d fs ms d₁) :
    wp (methodDef m) (fun _ d' => m.fits = true ∧ Leaves d fs (ms ++ [m]) d')
      (fun d' => m.fits = false ∧ Leaves d fs ms d') d₁ := by
  unfold methodDef MethodDraft.fits
  simp only [wp_bind, wp_ofExcept, wp_blob, wp_text, wp_count, wp_modify]
  refine ⟨fun xs hxs => ⟨fun hcount => ⟨?_, ?_⟩, fun hcount => ⟨?_, ?_⟩⟩, fun fault hfault => ⟨?_, h⟩⟩
  · rw [hxs, decide_eq_true hcount]
    rfl
  · exact ((h.withBlob xs).withText m.name).methodDef
      ⟨namesText_withText .., ⟨xs, hxs, find?_withBlob_withText ..⟩, rfl, rfl⟩
  · rw [decide_eq_false (Nat.not_lt.2 hcount), Bool.and_false]
  · exact (h.withBlob xs).withText m.name
  · rw [hfault]
    rfl

theorem wp_typeDef_leaves (t : TypeDraft) (d : Draft) :
    wp (typeDef t) (fun _ _ => True) (fun d' => Leaves d t.enteredFields t.enteredMethods d') d := by
  rw [wp_typeDef_groups]
  refine wp_mono (wp_forM_takeWhile (wp_fieldDef_leaves []) [] t.staticFields ((Leaves.refl d).noting _))
    (fun _ d₁ ⟨hstatic, h₁⟩ => ?_) (fun d₁ ⟨hstatic, h₁⟩ => ?_)
  · refine wp_mono (wp_forM_takeWhile (wp_fieldDef_leaves []) _ t.instanceFields (h₁.noting _))
      (fun _ d₂ ⟨hinstance, h₂⟩ => ?_) (fun d₂ ⟨hinstance, h₂⟩ => ?_)
    · obtain ⟨hfields, hmethods⟩ := TypeDraft.entered_of_all hstatic hinstance
      rw [List.nil_append, ← hfields] at h₂
      refine wp_mono (wp_forM_takeWhile (wp_methodDef_leaves _) [] t.orderedMethods (h₂.noting _))
        (fun _ d₃ ⟨hall, h₃⟩ => ?_) (fun d₃ ⟨_, h₃⟩ => ?_)
      · -- All members were entered: the type is refused for one of its counts.
        rw [List.nil_append, ← List.takeWhile_eq_self_iff.2 (List.all_eq_true.1 hall), ← hmethods] at h₃
        have h₄ := (h₃.withText t.name).withText t.nameSpace
        simp only [typeRecord, wp_bind, wp_get, wp_reference, wp_text, wp_count, wp_modify, h₄, implies_true,
          and_true]
      · rwa [List.nil_append, ← hmethods] at h₃
    · obtain ⟨hfields, hmethods⟩ := TypeDraft.entered_of_instance hstatic hinstance
      rwa [hfields, hmethods]
  · obtain ⟨hfields, hmethods⟩ := TypeDraft.entered_of_static hstatic
    rwa [hfields, hmethods]

theorem wp_fieldDef_refused {f : FieldDraft} (h : f.fits = false) {Q : Unit → Draft → Prop} :
    wp (fieldDef f) Q (fun d' => d' = d) d := by
  unfold fieldDef
  simp only [wp_bind, wp_ofExcept]
  refine ⟨fun xs hxs => ?_, fun _ _ => trivial⟩
  rw [FieldDraft.fits, hxs] at h
  cases h

theorem wp_methodDef_refused {m : MethodDraft} (h : m.signature.encode.isOk = false)
    {Q : Unit → Draft → Prop} : wp (methodDef m) Q (fun d' => d' = d) d := by
  unfold methodDef
  simp only [wp_bind, wp_ofExcept]
  refine ⟨fun xs hxs => ?_, fun _ _ => trivial⟩
  rw [hxs] at h
  cases h

/-- One that is refused for its first member leaves nothing, unless the tables overflow. -/
theorem wp_typeDef_refused {t : TypeDraft} {d : Draft} (h : t.RefusedAtOnce) (hf : d.fieldDefs.size < 0xFFFF)
    (hm : d.methodDefs.size < 0xFFFF) : wp (typeDef t) (fun _ _ => False) (fun d' => d' = d) d := by
  unfold TypeDraft.RefusedAtOnce TypeDraft.orderedFields at h
  rw [wp_typeDef_groups, noting_of_lt hf]
  cases hs : t.staticFields with
  | cons f fs =>
    rw [hs] at h
    show wp (fieldDef f >>= fun _ => fs.forM fieldDef) _ _ d
    rw [wp_bind]
    exact wp_fieldDef_refused h
  | nil =>
    show wp (t.instanceFields.forM fieldDef) _ _ (d.noting d.fieldDefs.size)
    rw [noting_of_lt hf]
    cases hi : t.instanceFields with
    | cons f fs =>
      rw [hs, hi] at h
      show wp (fieldDef f >>= fun _ => fs.forM fieldDef) _ _ d
      rw [wp_bind]
      exact wp_fieldDef_refused h
    | nil =>
      show wp (t.orderedMethods.forM methodDef) _ _ (d.noting d.methodDefs.size)
      rw [noting_of_lt hm]
      rw [hs, hi, List.append_nil] at h
      cases ho : t.orderedMethods with
      | nil =>
        rw [ho] at h
        exact h.elim
      | cons m ms =>
        rw [ho] at h
        show wp (methodDef m >>= fun _ => ms.forM methodDef) _ _ d
        rw [wp_bind]
        exact wp_methodDef_refused h

end Drafting

namespace Draft

/-- What was left behind stands between what was there and what comes later. -/
theorem Leaves.beside {fs : List FieldDraft} {ms : List MethodDraft} {d d' : Draft} (h : Leaves d fs ms d')
    {fields : List FieldDef} {methods : List MethodDef}
    (hfields : d'.fieldDefs.toList = d.fieldDefs.toList ++ fields)
    (hmethods : d'.methodDefs.toList = d.methodDefs.toList ++ methods) : Beside d fields methods d d' := by
  have hsame : ∀ {ρ : Type} {Same : ρ → ρ → Prop} (rows : Array ρ), Grown Same rows.toList [] rows rows :=
    fun _ => .start (List.append_nil _).symm
  have hf : Grown (SameRow d d') d.fieldDefs.toList fields d.fieldDefs d'.fieldDefs := .start hfields
  have hm : Grown (SameRow d d') d.methodDefs.toList methods d.methodDefs d'.methodDefs := .start hmethods
  rw [h.rest] at hf hm ⊢
  exact {
    name := rfl
    version := rfl
    assemblyRefs := hsame _
    typeRefs := hsame _
    fieldRefs := hsame _
    methodRefs := hsame _
    typeDefs := hsame _
    fieldDefs := hf
    methodDefs := hm
    attributes := hsame _
    typeSpecs := hsame _
    resources := rfl
    resourcesData := rfl
    byteCode := rfl
    resourceFiles := hsame _ }

theorem exists_holds_of_image {d : Draft} {image : Bytes} (h : d.image = .ok image) :
    ∃ header, Header.read image = .ok header ∧ d.Holds header image := by
  obtain ⟨header, hcloses⟩ := closes_of_image h
  exact ⟨header, hcloses.laid.read, hcloses.holds⟩

/-- A type that is refused leaves the members it had entered, and is otherwise as if it had not been tried:
every later run of steps gives the same faults and the same references, but for the places of texts and blobs,
and images with the same records, but for the members that were left and what depends on where things lie. If it
is refused for its first member, nothing is left and nothing differs. -/
theorem refused_type_leaves_members {d : Draft} {t : TypeDraft} {fault : Fault}
    (h : (d.apply (.typeDef t)).1 = .error fault) :
    d.Extends (d.apply (.typeDef t)).2 ∧
      (∃ fields methods,
        (d.apply (.typeDef t)).2.fieldDefs.toList = d.fieldDefs.toList ++ fields ∧
        (d.apply (.typeDef t)).2.methodDefs.toList = d.methodDefs.toList ++ methods ∧
        List.Forall₂ (d.apply (.typeDef t)).2.EntersField t.enteredFields fields ∧
        List.Forall₂ (d.apply (.typeDef t)).2.EntersMethod t.enteredMethods methods ∧
        ∀ steps,
          Beside d fields methods (d.applyAll steps).2 ((d.apply (.typeDef t)).2.applyAll steps).2 ∧
          (∀ (i : Nat) step, steps[i]? = some step → ∃ result result',
            (d.applyAll steps).1[i]? = some result ∧
            ((d.apply (.typeDef t)).2.applyAll steps).1[i]? = some result' ∧
            step.SameResult (d.applyAll steps).2 ((d.apply (.typeDef t)).2.applyAll steps).2 result result') ∧
          (∀ image, (d.applyAll steps).2.image = .ok image →
            ∃ header, Header.read image = .ok header ∧ (d.applyAll steps).2.Holds header image) ∧
          ∀ image, ((d.apply (.typeDef t)).2.applyAll steps).2.image = .ok image →
            ∃ header, Header.read image = .ok header ∧
              ((d.apply (.typeDef t)).2.applyAll steps).2.Holds header image) ∧
      (t.RefusedAtOnce → d.fieldDefs.size < 0xFFFF → d.methodDefs.size < 0xFFFF →
        (d.apply (.typeDef t)).2 = d) := by
  have herror : ∃ d', Drafting.typeDef t d = .error fault d' ∧ (d.apply (.typeDef t)).2 = d' := by
    unfold apply at *
    split at h
    · cases h
    · next hrun =>
      cases h
      exact ⟨_, hrun, rfl⟩
  obtain ⟨d', hrun, hd'⟩ := herror
  have hext := extends_applyAll d [.typeDef t]
  have hleaves := Drafting.wp_typeDef_leaves t d
  unfold Drafting.wp at hleaves
  rw [hrun] at hleaves
  obtain ⟨fields, hfields, hentersFields⟩ := hleaves.fields
  obtain ⟨methods, hmethods, hentersMethods⟩ := hleaves.methods
  rw [hd']
  refine ⟨hd' ▸ hext, ⟨fields, methods, hfields, hmethods, hentersFields, hentersMethods, fun steps => ?_⟩,
    fun hrefused hf hm => ?_⟩
  · obtain ⟨hbeside, hresults⟩ := (hleaves.beside hfields hmethods).applyAll steps
    exact ⟨hbeside, hresults, fun _ => exists_holds_of_image, fun _ => exists_holds_of_image⟩
  · have hsame := Drafting.wp_typeDef_refused hrefused hf hm
    unfold Drafting.wp at hsame
    rwa [hrun] at hsame

/-- Its second field has a signature that cannot be stored. -/
def brokenLamp : TypeDraft :=
  (TypeDraft.named "" "Lamp").withInstanceFields
    [⟨"on", .primitive .boolean, ⟨0⟩⟩, ⟨"shade", .classType ⟨0x06000003⟩, ⟨0⟩⟩]

theorem refused_type_leaves_members_lamp :
    ∃ fields methods,
      ((named "Home" .zero).apply (.typeDef brokenLamp)).2.fieldDefs.toList = fields ∧ fields.length = 1 ∧
      ∀ steps, Beside (named "Home" .zero) fields methods ((named "Home" .zero).applyAll steps).2
        (((named "Home" .zero).apply (.typeDef brokenLamp)).2.applyAll steps).2 := by
  have hfault : ∃ fault, ((named "Home" .zero).apply (.typeDef brokenLamp)).1 = .error fault := ⟨_, by cbv⟩
  obtain ⟨fault, hfault⟩ := hfault
  obtain ⟨-, ⟨fields, methods, hfields, -, henters, -, hsteps⟩, -⟩ := refused_type_leaves_members hfault
  have hone : brokenLamp.enteredFields.length = 1 := by cbv
  exact ⟨fields, methods, hfields, henters.length_eq.symm.trans hone, fun steps => (hsteps steps).1⟩

/-- The name of the field that was left takes the place of a later text, and the field a place in the image. -/
theorem refused_type_shifts_lamp :
    ∃ fault image image',
      ((named "Home" .zero).apply (.typeDef brokenLamp)).1 = .error fault ∧
      ((named "Home" .zero).applyAll [.text "x"]).1 = [.ok 0] ∧
      (((named "Home" .zero).apply (.typeDef brokenLamp)).2.applyAll [.text "x"]).1 = [.ok 3] ∧
      ((named "Home" .zero).applyAll [.text "x"]).2.image = .ok image ∧
      (((named "Home" .zero).apply (.typeDef brokenLamp)).2.applyAll [.text "x"]).2.image = .ok image' ∧
      image ≠ image' := by
  have hfault : ∃ fault, ((named "Home" .zero).apply (.typeDef brokenLamp)).1 = .error fault := ⟨_, by cbv⟩
  obtain ⟨fault, hfault⟩ := hfault
  obtain ⟨image, header, himage, hcloses⟩ :=
    image_closes (close_ok (d := ((named "Home" .zero).applyAll [.text "x"]).2) (by cbv)) (by cbv) (by cbv)
  obtain ⟨image', header', himage', hcloses'⟩ := image_closes (close_ok
    (d := (((named "Home" .zero).apply (.typeDef brokenLamp)).2.applyAll [.text "x"]).2) (by cbv)) (by cbv)
    (by cbv)
  refine ⟨fault, image, image', hfault, by cbv, by cbv, himage, himage', ?_⟩
  rintro rfl
  obtain rfl : header = header' := Except.ok.inj (hcloses.laid.read.symm.trans hcloses'.laid.read)
  have hcounts := Except.ok.inj (hcloses.holds.fieldDefs.count.symm.trans hcloses'.holds.fieldDefs.count)
  have hnone : ((named "Home" .zero).applyAll [.text "x"]).2.fieldDefs.size = 0 := by cbv
  have hone : (((named "Home" .zero).apply (.typeDef brokenLamp)).2.applyAll [.text "x"]).2.fieldDefs.size = 1 := by
    cbv
  rw [hnone, hone] at hcounts
  cases hcounts

end Draft

end CompactAssembly
