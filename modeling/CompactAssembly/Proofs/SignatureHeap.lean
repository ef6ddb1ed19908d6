import CompactAssembly.Proofs.SignatureCodec
import CompactAssembly.Proofs.ImageLayout

/-!
# Signatures of a run

`Draft.Signed s d`: the pool of signatures remembers each blob where the heap holds it, and the rows of the
five tables that name signatures were made, in order, from the sources `s`. A step adds to the sources
what it declares, or an initial part of it if it fails (`wp_perform_stems`), so the invariant holds along
every run. A heap only grows behind what it holds, and a stored signature says where it ends, so each row
of an image reads back as its source.
-/

namespace CompactAssembly

/-- Signatures from which rows are made, table by table. -/
structure Sources where
  fieldRefs : List Element := []
  methodRefs : List MethodSignature := []
  fieldDefs : List Element := []
  methodDefs : List MethodSignature := []
  typeSpecs : List Element := []

namespace Sources

instance : Append Sources where
  append s t := {
    fieldRefs := s.fieldRefs ++ t.fieldRefs
    methodRefs := s.methodRefs ++ t.methodRefs
    fieldDefs := s.fieldDefs ++ t.fieldDefs
    methodDefs := s.methodDefs ++ t.methodDefs
    typeSpecs := s.typeSpecs ++ t.typeSpecs }

variable (s t u : Sources)

theorem append_eq : s ++ t = {
    fieldRefs := s.fieldRefs ++ t.fieldRefs
    methodRefs := s.methodRefs ++ t.methodRefs
    fieldDefs := s.fieldDefs ++ t.fieldDefs
    methodDefs := s.methodDefs ++ t.methodDefs
    typeSpecs := s.typeSpecs ++ t.typeSpecs } := rfl

theorem append_assoc : s ++ t ++ u = s ++ (t ++ u) := by
  simp only [append_eq, List.append_assoc]

theorem append_empty : s ++ {} = s := by
  simp only [append_eq, List.append_nil]

/-- In every table the one is an initial part of the other. -/
structure Prefix (s t : Sources) : Prop where
  fieldRefs : s.fieldRefs <+: t.fieldRefs
  methodRefs : s.methodRefs <+: t.methodRefs
  fieldDefs : s.fieldDefs <+: t.fieldDefs
  methodDefs : s.methodDefs <+: t.methodDefs
  typeSpecs : s.typeSpecs <+: t.typeSpecs

theorem Prefix.refl : s.Prefix s :=
  ⟨List.prefix_rfl, List.prefix_rfl, List.prefix_rfl, List.prefix_rfl, List.prefix_rfl⟩

theorem Prefix.empty : Prefix {} s :=
  ⟨List.nil_prefix, List.nil_prefix, List.nil_prefix, List.nil_prefix, List.nil_prefix⟩

def members (fields : List FieldDraft) (methods : List MethodDraft) : Sources where
  fieldDefs := fields.map FieldDraft.type
  methodDefs := methods.map MethodDraft.signature

theorem append_members (fields fields' : List FieldDraft) (methods methods' : List MethodDraft) :
    s ++ members fields methods ++ members fields' methods' =
      s ++ members (fields ++ fields') (methods ++ methods') := by
  simp only [append_eq, members, List.map_append, List.append_assoc, List.append_nil]

theorem Prefix.members {fields fields' : List FieldDraft} {methods methods' : List MethodDraft}
    (hf : fields <+: fields') (hm : methods <+: methods') :
    (members fields methods).Prefix (members fields' methods') :=
  ⟨List.prefix_rfl, List.prefix_rfl, hf.map _, hm.map _, List.prefix_rfl⟩

end Sources

/-- What a step declares. The fields of a type come static first, its methods in table order. -/
def Draft.Step.sources : Draft.Step → Sources
  | .fieldRef _ _ type => { fieldRefs := [type] }
  | .methodRef _ _ signature => { methodRefs := [signature] }
  | .typeSpec type => { typeSpecs := [type] }
  | .typeDef type => .members (type.staticFields ++ type.instanceFields) type.orderedMethods
  | _ => {}

/-- Rows whose signatures in a heap are the stored forms of these sources. -/
def Filed {ρ σ : Type} (encode : σ → Except Fault (List UInt8)) (sig : ρ → UInt16) (heap : Bytes)
    (rows : Array ρ) (sources : List σ) : Prop :=
  List.Forall₂ (fun row source => ∃ xs, encode source = .ok xs ∧ heap.HoldsAt (sig row).toNat xs)
    rows.toList sources

theorem Bytes.HoldsAt.grow {heap heap' : Bytes} {pos : Nat} {xs : List UInt8}
    (h : heap.HoldsAt pos xs) (hheap : heap.toList <+: heap'.toList) : heap'.HoldsAt pos xs := by
  obtain ⟨more, hmore⟩ := hheap
  have h' := h.append_right more.toArray
  rwa [show heap ++ more.toArray = heap' from Array.toList_inj.1 (by rw [Array.toList_append, hmore])] at h'

namespace Filed
variable {ρ σ : Type} {encode : σ → Except Fault (List UInt8)} {sig : ρ → UInt16} {heap heap' : Bytes}
variable {rows : Array ρ} {sources : List σ}

theorem grow (h : Filed encode sig heap rows sources) (hheap : heap.toList <+: heap'.toList) :
    Filed encode sig heap' rows sources :=
  List.Forall₂.imp (fun _ _ ⟨xs, hxs, hd⟩ => ⟨xs, hxs, hd.grow hheap⟩) h

theorem push (h : Filed encode sig heap rows sources) {row : ρ} {source : σ} {xs : List UInt8}
    (hxs : encode source = .ok xs) (hd : heap.HoldsAt (sig row).toNat xs) :
    Filed encode sig heap (rows.push row) (sources ++ [source]) := by
  unfold Filed
  rw [Array.toList_push]
  exact List.rel_append h (.cons ⟨xs, hxs, hd⟩ .nil)

theorem size_eq (h : Filed encode sig heap rows sources) : rows.size = sources.length := by
  rw [← Array.length_toList]
  exact List.Forall₂.length_eq h

theorem exists_row (h : Filed encode sig heap rows sources) {i : Nat} {source : σ}
    (hi : sources[i]? = some source) :
    ∃ row xs, rows[i]? = some row ∧ encode source = .ok xs ∧ heap.HoldsAt (sig row).toNat xs := by
  obtain ⟨hlt, rfl⟩ := List.getElem?_eq_some_iff.1 hi
  have hlt' : i < rows.size := h.size_eq ▸ hlt
  obtain ⟨xs, hxs, hd⟩ := (List.forall₂_iff_get.1 h).2 i (Array.length_toList ▸ hlt') hlt
  exact ⟨rows[i], xs, Array.getElem?_eq_getElem hlt', hxs, hd⟩

end Filed

namespace Draft

/-- The heap of signatures is in order, and the rows that name signatures were made from these sources. -/
structure Signed (s : Sources) (d : Draft) : Prop where
  places : ∀ value index, d.signatures.find? value = some index →
    d.signatures.heap.HoldsAt index.toNat value
  fieldRefs : Filed encodeField FieldRef.sig d.signatures.heap d.fieldRefs s.fieldRefs
  methodRefs : Filed MethodSignature.encode MethodRef.sig d.signatures.heap d.methodRefs s.methodRefs
  fieldDefs : Filed encodeField FieldDef.sig d.signatures.heap d.fieldDefs s.fieldDefs
  methodDefs : Filed MethodSignature.encode MethodDef.sig d.signatures.heap d.methodDefs s.methodDefs
  typeSpecs : Filed Element.encode TypeSpec.sig d.signatures.heap d.typeSpecs s.typeSpecs

namespace Signed
variable {s : Sources} {d : Draft} {value : List UInt8}

theorem named (name : String) (version : Version) : Signed {} (Draft.named name version) where
  places value index h := by
    simp [Draft.named, Pool.find?, Pool.empty] at h
  fieldRefs := .nil
  methodRefs := .nil
  fieldDefs := .nil
  methodDefs := .nil
  typeSpecs := .nil

theorem noting (h : Signed s d) (position : Nat) : Signed s (d.noting position) := { h with }

theorem withText (h : Signed s d) (value : String) : Signed s (d.withText value) := by
  obtain ⟨strings, overflow, hd⟩ := d.withText_eq value
  rw [hd]
  exact { h with }

theorem holdsAt_blobReference (h : Signed s d) (ho : (d.withBlob value).overflow = false) :
    (d.withBlob value).signatures.heap.HoldsAt (d.blobReference value).toNat value := by
  unfold Draft.withBlob at ho ⊢
  unfold blobReference
  cases hf : d.signatures.find? value with
  | some index =>
    simp only [Option.isSome_some, ↓reduceIte, Option.getD_some]
    exact h.places value index hf
  | none =>
    simp only [hf, Option.isSome_none, Bool.false_eq_true, ↓reduceIte] at ho
    simp only [Option.isSome_none, Bool.false_eq_true, ↓reduceIte, Option.getD_none, Pool.heap_insert,
      toNat_referenceFor (overflow_noting.1 ho).2]
    exact Bytes.holdsAt_size_append ..

theorem withBlob (h : Signed s d) (ho : (d.withBlob value).overflow = false) :
    Signed s (d.withBlob value) := by
  have hplace := h.holdsAt_blobReference ho
  have hheap := (Extends.withBlob d value).signatures
  unfold Draft.withBlob blobReference at *
  cases hf : d.signatures.find? value with
  | some index =>
    simp only [Option.isSome_some, ↓reduceIte]
    exact h
  | none =>
    simp only [hf, Option.isSome_none, Bool.false_eq_true, ↓reduceIte, Option.getD_none] at hplace hheap ⊢
    exact {
      places := Pool.forall_find?_insert hplace fun other index hother => (h.places other index hother).grow hheap
      fieldRefs := h.fieldRefs.grow hheap
      methodRefs := h.methodRefs.grow hheap
      fieldDefs := h.fieldDefs.grow hheap
      methodDefs := h.methodDefs.grow hheap
      typeSpecs := h.typeSpecs.grow hheap }

section
variable {xs : List UInt8}

theorem fieldRef (h : Signed s d) {row : FieldRef} {type : Element} (hxs : encodeField type = .ok xs)
    (hd : d.signatures.heap.HoldsAt row.sig.toNat xs) :
    Signed (s ++ { fieldRefs := [type] }) { d with fieldRefs := d.fieldRefs.push row } := by
  simp only [Sources.append_eq, List.append_nil]
  exact { h with fieldRefs := h.fieldRefs.push hxs hd }

theorem methodRef (h : Signed s d) {row : MethodRef} {signature : MethodSignature}
    (hxs : signature.encode = .ok xs) (hd : d.signatures.heap.HoldsAt row.sig.toNat xs) :
    Signed (s ++ { methodRefs := [signature] }) { d with methodRefs := d.methodRefs.push row } := by
  simp only [Sources.append_eq, List.append_nil]
  exact { h with methodRefs := h.methodRefs.push hxs hd }

theorem fieldDef (h : Signed s d) {row : FieldDef} {type : Element} (hxs : encodeField type = .ok xs)
    (hd : d.signatures.heap.HoldsAt row.sig.toNat xs) :
    Signed (s ++ { fieldDefs := [type] }) { d with fieldDefs := d.fieldDefs.push row } := by
  simp only [Sources.append_eq, List.append_nil]
  exact { h with fieldDefs := h.fieldDefs.push hxs hd }

theorem methodDef (h : Signed s d) {row : MethodDef} {signature : MethodSignature}
    (hxs : signature.encode = .ok xs) (hd : d.signatures.heap.HoldsAt row.sig.toNat xs) :
    Signed (s ++ { methodDefs := [signature] }) { d with methodDefs := d.methodDefs.push row } := by
  simp only [Sources.append_eq, List.append_nil]
  exact { h with methodDefs := h.methodDefs.push hxs hd }

theorem typeSpec (h : Signed s d) {row : TypeSpec} {type : Element} (hxs : type.encode = .ok xs)
    (hd : d.signatures.heap.HoldsAt row.sig.toNat xs) :
    Signed (s ++ { typeSpecs := [type] }) { d with typeSpecs := d.typeSpecs.push row } := by
  simp only [Sources.append_eq, List.append_nil]
  exact { h with typeSpecs := h.typeSpecs.push hxs hd }

end

end Signed

/-- `Signed`, unless a reference overflowed and the draft gives no image. -/
def Stems (s : Sources) (d : Draft) : Prop := d.overflow = false → Signed s d

/-- Nothing new in the tables that name signatures. -/
def KeepsSources (d d' : Draft) : Prop := ∀ s, Stems s d → Stems s d'

instance : Plain KeepsSources where
  refl _ _ h := h
  trans h h' s hd := h' s (h s hd)
  noting _ position _ h ho := (h (overflow_noting.1 ho).1).noting position
  withText d value _ h ho := (h ((Extends.withText d value).overflow ho)).withText value
  withBlob d value _ h ho := (h ((Extends.withBlob d value).overflow ho)).withBlob ho
  overflowed _ _ _ := nofun
  byteCode _ _ _ h ho := { h ho with }
  assemblyRef _ _ _ h ho := { h ho with }
  typeRef _ _ _ h ho := { h ho with }
  attach _ _ _ h ho := { h ho with }
  resource _ _ _ _ h ho := { h ho with }
  resourceFile _ _ _ h ho := { h ho with }

/-- A draft with a signature and a name interned, ready for the row that names them. -/
theorem Stems.intern {s : Sources} {d : Draft} (h : Stems s d) {xs : List UInt8} {name : String}
    (ho : ((d.withBlob xs).withText name).overflow = false) :
    Signed s ((d.withBlob xs).withText name) ∧
      ((d.withBlob xs).withText name).signatures.heap.HoldsAt (d.blobReference xs).toNat xs := by
  have hb := (Extends.withText _ name).overflow ho
  have hd := h ((Extends.withBlob d xs).overflow hb)
  exact ⟨(hd.withBlob hb).withText name,
    (hd.holdsAt_blobReference hb).grow (Extends.withText _ name).signatures⟩

/-- The rows of a draft are those made from `s` and, behind them, from what a step declares or an initial
part of it. -/
def Accounts (s : Sources) (step : Step) (d : Draft) : Prop :=
  ∃ t, t.Prefix step.sources ∧ Stems (s ++ t) d

theorem Accounts.of_stems {s : Sources} {step : Step} {d : Draft} (h : Stems s d) : Accounts s step d :=
  ⟨{}, Sources.Prefix.empty _, (Sources.append_empty s).symm ▸ h⟩

end Draft

namespace Drafting
open Draft

variable {s : Sources} {d : Draft}

theorem wp_fieldRef_stems (h : Stems s d) (container : UInt16) (name : String) (type : Element) :
    wp (fieldRef container name type) (fun _ d' => Stems (s ++ { fieldRefs := [type] }) d') (Stems s) d := by
  unfold fieldRef
  simp only [wp_bind, wp_ofExcept, wp_blob, wp_text, wp_modify, wp_get, wp_reference]
  refine ⟨fun xs hxs ho => ?_, fun _ _ => h⟩
  obtain ⟨ho, -⟩ := overflow_noting.1 ho
  obtain ⟨hd, hsig⟩ := h.intern ho
  exact (hd.fieldRef hxs hsig).noting _

theorem wp_methodRef_stems (h : Stems s d) (container : UInt16) (name : String)
    (signature : MethodSignature) :
    wp (methodRef container name signature) (fun _ d' => Stems (s ++ { methodRefs := [signature] }) d')
      (Stems s) d := by
  unfold methodRef
  simp only [wp_bind, wp_ofExcept, wp_blob, wp_text, wp_modify, wp_get, wp_reference]
  refine ⟨fun xs hxs ho => ?_, fun _ _ => h⟩
  obtain ⟨ho, -⟩ := overflow_noting.1 ho
  obtain ⟨hd, hsig⟩ := h.intern ho
  exact (hd.methodRef hxs hsig).noting _

theorem wp_typeSpec_stems (h : Stems s d) (type : Element) :
    wp (typeSpec type) (fun _ d' => Stems (s ++ { typeSpecs := [type] }) d') (Stems s) d := by
  unfold typeSpec
  simp only [wp_bind, wp_ofExcept, wp_blob, wp_modify, wp_get, wp_reference]
  refine ⟨fun xs hxs ho => ?_, fun _ _ => h⟩
  obtain ⟨ho, -⟩ := overflow_noting.1 ho
  have hd := h ((Extends.withBlob d xs).overflow ho)
  exact ((hd.withBlob ho).typeSpec hxs (hd.holdsAt_blobReference ho)).noting _

theorem wp_fieldDef_stems (f : FieldDraft) (h : Stems s d) :
    wp (fieldDef f) (fun _ d' => Stems (s ++ { fieldDefs := [f.type] }) d') (Stems s) d := by
  unfold fieldDef
  simp only [wp_bind, wp_ofExcept, wp_blob, wp_text, wp_modify]
  refine ⟨fun xs hxs ho => ?_, fun _ _ => h⟩
  obtain ⟨hd, hsig⟩ := h.intern ho
  exact hd.fieldDef hxs hsig

theorem wp_methodDef_stems (m : MethodDraft) (h : Stems s d) :
    wp (methodDef m) (fun _ d' => Stems (s ++ { methodDefs := [m.signature] }) d') (Stems s) d := by
  unfold methodDef
  simp only [wp_bind, wp_ofExcept, wp_blob, wp_text, wp_count, wp_modify]
  refine ⟨fun xs hxs => ⟨fun _ ho => ?_, fun _ ho => ?_⟩, fun _ _ => h⟩
  · obtain ⟨hd, hsig⟩ := h.intern ho
    exact hd.methodDef hxs hsig
  · exact (h.intern ho).1

theorem wp_forM_stems {α : Type} {op : α → Drafting Unit} {f : List α → Sources} (hnil : f [] = {})
    (hcons : ∀ a as, f (a :: as) = f [a] ++ f as)
    (h : ∀ a {s d}, Stems s d → wp (op a) (fun _ d' => Stems (s ++ f [a]) d') (Stems s) d)
    (as : List α) (hd : Stems s d) :
    wp (as.forM op) (fun _ d' => Stems (s ++ f as) d')
      (fun d' => ∃ done, done <+: as ∧ Stems (s ++ f done) d') d := by
  induction as generalizing s d with
  | nil =>
    show Stems (s ++ f []) d
    rwa [hnil, Sources.append_empty]
  | cons a as ih =>
    show wp (op a >>= fun _ => as.forM op) _ _ d
    rw [wp_bind]
    refine wp_mono (h a hd) (fun _ d₁ h₁ => ?_) (fun d₁ h₁ => ⟨[], List.nil_prefix, ?_⟩)
    · refine wp_mono (ih h₁) (fun _ d₂ h₂ => ?_) (fun d₂ ⟨done, hdone, h₂⟩ => ⟨a :: done, ?_, ?_⟩)
      · rwa [hcons, ← Sources.append_assoc]
      · exact List.cons_prefix_cons.2 ⟨rfl, hdone⟩
      · rwa [hcons, ← Sources.append_assoc]
    · rwa [hnil, Sources.append_empty]

theorem wp_forM_fieldDef_stems (fs : List FieldDraft) (h : Stems s d) :
    wp (fs.forM fieldDef) (fun _ d' => Stems (s ++ .members fs []) d')
      (fun d' => ∃ done, done <+: fs ∧ Stems (s ++ .members done []) d') d :=
  wp_forM_stems (f := fun fs => .members fs []) rfl (fun _ _ => rfl)
    (fun f _ _ h => wp_fieldDef_stems f h) fs h

theorem wp_forM_methodDef_stems (ms : List MethodDraft) (h : Stems s d) :
    wp (ms.forM methodDef) (fun _ d' => Stems (s ++ .members [] ms) d')
      (fun d' => ∃ done, done <+: ms ∧ Stems (s ++ .members [] done) d') d :=
  wp_forM_stems (f := fun ms => .members [] ms) rfl (fun _ _ => rfl)
    (fun m _ _ h => wp_methodDef_stems m h) ms h

theorem wp_typeDef_stems (h : Stems s d) (t : TypeDraft) :
    wp (typeDef t) (fun _ => Accounts s (.typeDef t)) (Accounts s (.typeDef t)) d := by
  have hnoting {u : Sources} {d : Draft} (h : Stems u d) (position : Nat) : Stems u (d.noting position) :=
    Lasting.noting (R := KeepsSources) d position u h
  rw [wp_typeDef_groups]
  -- after each group of members: what a failure leaves, then the next group
  refine wp_mono (wp_forM_fieldDef_stems t.staticFields (hnoting h _)) (fun _ d₁ h₁ => ?_) ?failed
  case failed =>
    rintro d₁ ⟨done, hdone, h₁⟩
    exact ⟨_, Sources.Prefix.members (hdone.trans (List.prefix_append ..)) List.nil_prefix, h₁⟩
  refine wp_mono (wp_forM_fieldDef_stems t.instanceFields (hnoting h₁ _)) (fun _ d₂ h₂ => ?_) ?failed
  case failed =>
    rintro d₂ ⟨done, hdone, h₂⟩
    rw [Sources.append_members] at h₂
    exact ⟨_, Sources.Prefix.members ((List.prefix_append_right_inj _).2 hdone) List.nil_prefix, h₂⟩
  rw [Sources.append_members] at h₂
  refine wp_mono (wp_forM_methodDef_stems t.orderedMethods (hnoting h₂ _)) (fun _ d₃ h₃ => ?_) ?failed
  case failed =>
    rintro d₃ ⟨done, hdone, h₃⟩
    rw [Sources.append_members, List.append_nil] at h₃
    exact ⟨_, Sources.Prefix.members List.prefix_rfl hdone, h₃⟩
  rw [Sources.append_members, List.append_nil] at h₃
  -- the names, the counts and the record itself concern no signature
  have hrecord (d : Draft) (row : TypeDef) : KeepsSources d { d with typeDefs := d.typeDefs.push row } :=
    fun _ h ho => { h ho with }
  have haccounts {d' : Draft} (hk : KeepsSources d₃ d') : Accounts s (.typeDef t) d' :=
    ⟨_, .refl _, hk _ h₃⟩
  exact wp_mono (follows_typeRecord_of (R := KeepsSources) (fun _ => .store (fun d => hrecord d _) _) t _ _ _ d₃)
    (fun _ _ => haccounts) (fun _ => haccounts)

theorem wp_perform_stems (h : Stems s d) (step : Step) :
    wp step.perform (fun _ => Accounts s step) (Accounts s step) d := by
  have hplain (hf : Follows KeepsSources step.perform) :
      wp step.perform (fun _ => Accounts s step) (Accounts s step) d :=
    wp_mono (hf d) (fun _ _ hk => .of_stems (hk s h)) (fun _ hk => .of_stems (hk s h))
  cases step with
  | text value => exact hplain (.text value)
  | blob value => exact hplain (.blob value)
  | body code => exact hplain (follows_body code)
  | assemblyRef name version => exact hplain (follows_assemblyRef name version)
  | typeRef nameSpace name scope => exact hplain (follows_typeRef nameSpace name scope)
  | fieldRef container name type =>
    exact wp_mono (wp_fieldRef_stems h container name type) (fun _ _ h' => ⟨_, .refl _, h'⟩)
      (fun _ h' => .of_stems h')
  | methodRef container name signature =>
    exact wp_mono (wp_methodRef_stems h container name signature) (fun _ _ h' => ⟨_, .refl _, h'⟩)
      (fun _ h' => .of_stems h')
  | typeSpec type =>
    exact wp_mono (wp_typeSpec_stems h type) (fun _ _ h' => ⟨_, .refl _, h'⟩) (fun _ h' => .of_stems h')
  | attach owner ownerIndex constructor data => exact hplain (follows_attach owner ownerIndex constructor data)
  | resource id kind data => exact hplain (follows_resource id kind data)
  | resourceFile name resourceCount => exact hplain (follows_resourceFile name resourceCount)
  | typeDef type => exact wp_typeDef_stems h type

end Drafting

namespace Draft

theorem Stems.applyAll {s : Sources} {d : Draft} (h : Stems s d) (steps : List Step) :
    ∃ t, Stems (s ++ t) (d.applyAll steps).2 := by
  induction steps generalizing s d with
  | nil => exact ⟨{}, (Sources.append_empty s).symm ▸ h⟩
  | cons step steps ih =>
    obtain ⟨t, -, ht⟩ := apply_of_wp (Drafting.wp_perform_stems h step)
    obtain ⟨u, hu⟩ := ih ht
    exact ⟨t ++ u, Sources.append_assoc s t u ▸ hu⟩

theorem exists_stems_built (name : String) (version : Version) (before : List Step) (step : Step)
    (after : List Step) :
    ∃ s t u, t.Prefix step.sources ∧ Stems s (built name version before) ∧
      Stems (s ++ t) (built name version (before ++ [step])) ∧
      Stems (s ++ t ++ u) (built name version (before ++ step :: after)) := by
  obtain ⟨s, hs⟩ := Stems.applyAll (fun _ => Signed.named name version) before
  obtain ⟨t, ht, hst⟩ := apply_of_wp (Drafting.wp_perform_stems hs step)
  obtain ⟨u, hstu⟩ := hst.applyAll after
  refine ⟨_, t, u, ht, hs, ?_, ?_⟩
  · rw [built_append]
    exact hst
  · rw [built_append]
    exact hstu

end Draft

/-- Rows `first` up to `stop` of a table were made from these sources, in order: the signature of each
reads back as its source. -/
def Image.GivesBack {ρ σ : Type} [Row ρ] (image : Image) (heap : Bytes) (sig : ρ → UInt16)
    (reader : SignatureReader σ) (Readable : σ → Prop) (first stop : Nat) (sources : List σ) : Prop :=
  ∀ k, first + k < stop → ∃ source row rest, sources[k]? = some source ∧
    image.get ρ (first + k) = .ok row ∧ heap.blob (sig row) = .ok rest ∧
    (Readable source → reader.value rest 0 = .ok source)

theorem Bytes.HoldsAt.blob {heap : Bytes} {index : UInt16} {xs : List UInt8}
    (h : heap.HoldsAt index.toNat xs) (hxs : xs ≠ []) :
    ∃ rest, heap.blob index = .ok rest ∧ rest.HoldsAt 0 xs := by
  have hlt : index.toNat < heap.size := by
    have := h.le_size
    have := List.length_pos_iff.2 hxs
    omega
  obtain ⟨before, after, hheap, hlen⟩ := h
  have hsize : heap.size = before.length + (xs ++ after).length := by
    rw [← Array.length_toList, hheap, List.length_append]
  refine ⟨heap.extract index.toNat, if_pos hlt, [], after, ?_, rfl⟩
  rw [Array.toList_extract, hheap, ← hlen, List.extract_eq_take_drop, List.drop_left, hsize,
    Nat.add_sub_cancel_left, List.take_length, List.nil_append]

theorem Filed.givesBack {ρ σ : Type} [Row ρ] {encode : σ → Except Fault (List UInt8)} {sig : ρ → UInt16}
    {heap data : Bytes} {header : Header} {rows : Array ρ} {s t u declared : List σ}
    (h : Filed encode sig heap rows (s ++ t ++ u)) (ht : t <+: declared) (hrows : header.Stores data rows)
    {reader : SignatureReader σ} {Readable : σ → Prop} (hne : ∀ {a xs}, encode a = .ok xs → xs ≠ [])
    (hreads : ∀ {a xs}, Readable a → encode a = .ok xs → reader.Reads 0 0 xs a) :
    (Image.view data header).GivesBack heap sig reader Readable s.length (s ++ t).length declared := by
  intro k hk
  rw [List.length_append] at hk
  have hkt : k < t.length := Nat.lt_of_add_lt_add_left hk
  have hget : (s ++ t ++ u)[s.length + k]? = some t[k] := by
    rw [List.append_assoc, List.getElem?_append_right (Nat.le_add_right ..), Nat.add_sub_cancel_left,
      List.getElem?_append_left hkt, List.getElem?_eq_getElem hkt]
  obtain ⟨row, xs, hrow, hxs, hd⟩ := h.exists_row hget
  obtain ⟨rest, hblob, hrest⟩ := hd.blob (hne hxs)
  obtain ⟨more, rfl⟩ := ht
  refine ⟨t[k], row, rest, ?_, ?_, hblob, fun ha => (hreads ha hxs).value hrest⟩
  · rw [List.getElem?_append_left hkt, List.getElem?_eq_getElem hkt]
  · obtain ⟨hlt, rfl⟩ := Array.getElem?_eq_some_iff.1 hrow
    exact hrows.get_view hlt

namespace Draft

/-- Whatever steps led to a draft and whatever else is in its heap of signatures: a row that a step added
gives back the signature it was made from. -/
theorem built_signatures_read_back {name : String} {version : Version} {steps : List Step} {data : Bytes}
    (h : (built name version steps).image = .ok data) :
    ∃ image heap, Image.ofBytes data = .ok image ∧ image.region .signatures = .ok heap ∧
      ∀ before step after, steps = before ++ step :: after →
        let d := built name version before
        let d' := built name version (before ++ [step])
        image.GivesBack heap FieldRef.sig .field Element.Readable
          d.fieldRefs.size d'.fieldRefs.size step.sources.fieldRefs ∧
        image.GivesBack heap MethodRef.sig .method MethodSignature.Readable
          d.methodRefs.size d'.methodRefs.size step.sources.methodRefs ∧
        image.GivesBack heap FieldDef.sig .field Element.Readable
          d.fieldDefs.size d'.fieldDefs.size step.sources.fieldDefs ∧
        image.GivesBack heap MethodDef.sig .method MethodSignature.Readable
          d.methodDefs.size d'.methodDefs.size step.sources.methodDefs ∧
        image.GivesBack heap TypeSpec.sig .typeSpec Element.Readable
          d.typeSpecs.size d'.typeSpecs.size step.sources.typeSpecs := by
  obtain ⟨header, hc⟩ := closes_of_image h
  refine ⟨Image.view data header, (built name version steps).signatures.heap, hc.laid.ofBytes,
    hc.holds.signatures, ?_⟩
  rintro before step after rfl
  obtain ⟨s, t, u, ht, hs, hst, hstu⟩ := exists_stems_built name version before step after
  have hov := (extends_closed _).overflow hc.overflow
  have hall := hstu hov
  have hd := hs ((extends_built name version before _).overflow hov)
  have hd' : Signed (s ++ t) (built name version (before ++ [step])) := by
    rw [← List.singleton_append, ← List.append_assoc] at hov
    exact hst ((extends_built name version _ after).overflow hov)
  refine ⟨?_, ?_, ?_, ?_, ?_⟩
  · rw [hd.fieldRefs.size_eq, hd'.fieldRefs.size_eq]
    exact hall.fieldRefs.givesBack ht.fieldRefs hc.holds.fieldRefs encodeField_ne_nil
      SignatureReader.reads_field
  · rw [hd.methodRefs.size_eq, hd'.methodRefs.size_eq]
    exact hall.methodRefs.givesBack ht.methodRefs hc.holds.methodRefs MethodSignature.encode_ne_nil
      SignatureReader.reads_method
  · rw [hd.fieldDefs.size_eq, hd'.fieldDefs.size_eq]
    exact hall.fieldDefs.givesBack ht.fieldDefs hc.holds.fieldDefs encodeField_ne_nil
      SignatureReader.reads_field
  · rw [hd.methodDefs.size_eq, hd'.methodDefs.size_eq]
    exact hall.methodDefs.givesBack ht.methodDefs hc.holds.methodDefs MethodSignature.encode_ne_nil
      SignatureReader.reads_method
  · rw [hd.typeSpecs.size_eq, hd'.typeSpecs.size_eq]
    exact hall.typeSpecs.givesBack ht.typeSpecs hc.holds.typeSpecs Element.encode_ne_nil
      SignatureReader.reads_element

theorem built_signatures_read_back_next :
    ∃ data image heap row rest,
      (built "Home" ⟨1, 0, 0, 0⟩ [.blob [6], .fieldRef 3 "next" (.szArray (.classType ⟨0x04000002⟩)),
        .typeSpec (.byRef (.primitive .i4))]).image = .ok data ∧
      Image.ofBytes data = .ok image ∧ image.region .signatures = .ok heap ∧
      image.get FieldRef 0 = .ok row ∧ heap.blob row.sig = .ok rest ∧
      SignatureReader.field.value rest 0 = .ok (.szArray (.classType ⟨0x04000002⟩)) := by
  obtain ⟨data, -, h, -⟩ := image_closes (close_ok (d := built "Home" ⟨1, 0, 0, 0⟩ [.blob [6],
    .fieldRef 3 "next" (.szArray (.classType ⟨0x04000002⟩)), .typeSpec (.byRef (.primitive .i4))])
    (by cbv)) (by cbv) (by cbv)
  obtain ⟨image, heap, himage, hheap, hsteps⟩ := built_signatures_read_back h
  obtain ⟨hfieldRefs, -⟩ := hsteps [.blob [6]] _ _ rfl
  obtain ⟨type, row, rest, htype, hrow, hblob, hread⟩ := hfieldRefs 0 (by cbv)
  obtain rfl : Element.szArray (.classType ⟨0x04000002⟩) = type := Option.some.inj htype
  have hfirst : (built "Home" ⟨1, 0, 0, 0⟩ [.blob [6]]).fieldRefs.size + 0 = 0 := by cbv
  rw [hfirst] at hrow
  have hreadable : (Element.szArray (.classType ⟨0x04000002⟩)).Readable :=
    ⟨by decide, fun _ h => by cases h⟩
  exact ⟨data, image, heap, row, rest, h, himage, hheap, hrow, hblob, hread hreadable⟩

end Draft

end CompactAssembly
