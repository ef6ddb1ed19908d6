import CompactAssembly.Proofs.ImageLayout
import CompactAssembly.Proofs.Tiling

/-!
# Which records a reference can name

A step that hands out a reference notes a position that does not fit, so a table of such steps never has more
records than there are references (`Draft.numbered_built`). Members are entered without one: a type definition
notes where each group of its members starts, before the group, and that is the only trace of the members that
came earlier (`Draft.positions_of_image`). The last group of all is noted by nobody, and an image can have more
fields than there are references for them (`Draft.image_of_crowd`).
-/

namespace CompactAssembly

namespace Draft

/-- Every table with references of its own is small enough for them. -/
structure Numbered (d : Draft) : Prop where
  assemblyRefs : d.assemblyRefs.size ≤ 0xFFFF
  typeRefs : d.typeRefs.size ≤ 0xFFFF
  fieldRefs : d.fieldRefs.size ≤ 0xFFFF
  methodRefs : d.methodRefs.size ≤ 0xFFFF
  typeDefs : d.typeDefs.size ≤ 0xFFFF
  attributes : d.attributes.size ≤ 0xFFFF
  typeSpecs : d.typeSpecs.size ≤ 0xFFFF
  resources : d.resources.size ≤ 0xFFFF
  resourceFiles : d.resourceFiles.size ≤ 0xFFFF

theorem Numbered.named (name : String) (version : Version) : (Draft.named name version).Numbered := by
  constructor <;> exact Nat.zero_le _

/-- Tables that are small enough stay so, unless a reference overflowed. -/
def KeepsNumbers (d d' : Draft) : Prop :=
  (d.overflow = false → d.Numbered) → d'.overflow = false → d'.Numbered

namespace KeepsNumbers
variable {d d' : Draft}

theorem withText (d : Draft) (value : String) : KeepsNumbers d (d.withText value) := by
  intro h ho
  have hd := h ((Extends.withText d value).overflow ho)
  obtain ⟨strings, overflow, heq⟩ := d.withText_eq value
  rw [heq]
  exact { hd with }

theorem withBlob (d : Draft) (value : List UInt8) : KeepsNumbers d (d.withBlob value) := by
  intro h ho
  have hd := h ((Extends.withBlob d value).overflow ho)
  obtain ⟨signatures, overflow, heq⟩ := d.withBlob_eq value
  rw [heq]
  exact { hd with }

end KeepsNumbers

instance : Lasting KeepsNumbers where
  refl _ h := h
  trans h h' hd := h' (h hd)
  noting _ _ h ho := { h (overflow_noting.1 ho).1 with }
  withText := .withText
  withBlob := .withBlob

end Draft

namespace Drafting
open Draft

theorem le_of_push {α : Type} {rows : Array α} {row : α} (h : (rows.push row).size - 1 < 0xFFFF) :
    (rows.push row).size ≤ 0xFFFF := by
  rw [Array.size_push] at h ⊢
  exact h

/-- A record that gets the last reference of its table. -/
theorem follows_store_numbers {f : Draft → Draft} {size : Draft → Nat}
    (hsame : ∀ d, (f d).overflow = false → d.overflow = false)
    (hnumbered : ∀ d, d.Numbered → size (f d) - 1 < 0xFFFF → (f d).Numbered) :
    Follows KeepsNumbers (do modify f; reference (size (← MonadState.get) - 1)) := by
  intro d
  simp only [wp_bind, wp_modify]
  show wp (get >>= fun d => reference (size d - 1)) _ _ _
  simp only [wp_bind, wp_get, wp_reference]
  intro h ho
  obtain ⟨ho, hfit⟩ := overflow_noting.1 ho
  exact { hnumbered d (h (hsame d ho)) hfit with }

theorem follows_typeDef_numbers (t : TypeDraft) : Follows KeepsNumbers (typeDef t) :=
  follows_typeDef_of (follows_fieldDef_of fun _ _ h ho => { h ho with })
    (follows_methodDef_of fun _ _ h ho => { h ho with })
    (follows_typeRecord_of (fun _ => follows_store_numbers (fun _ => id) fun _ h hs =>
      { h with typeDefs := le_of_push hs }) t)

theorem follows_numbers (step : Step) : Follows KeepsNumbers step.perform := by
  cases step with
  | text value => exact .text value
  | blob value => exact .blob value
  | body code => exact follows_body_of fun _ h ho => { h ho with }
  | assemblyRef name version =>
    exact (Follows.text _).bind fun _ =>
      follows_store_numbers (fun _ => id) fun _ h hs => { h with assemblyRefs := le_of_push hs }
  | typeRef nameSpace name scope =>
    exact (Follows.text _).bind fun _ => (Follows.text _).bind fun _ =>
      follows_store_numbers (fun _ => id) fun _ h hs => { h with typeRefs := le_of_push hs }
  | fieldRef container name type =>
    exact (Follows.ofExcept _).bind fun _ => (Follows.blob _).bind fun _ => (Follows.text _).bind fun _ =>
      follows_store_numbers (fun _ => id) fun _ h hs => { h with fieldRefs := le_of_push hs }
  | methodRef container name signature =>
    exact (Follows.ofExcept _).bind fun _ => (Follows.blob _).bind fun _ => (Follows.text _).bind fun _ =>
      follows_store_numbers (fun _ => id) fun _ h hs => { h with methodRefs := le_of_push hs }
  | typeSpec type =>
    exact (Follows.ofExcept _).bind fun _ => (Follows.blob _).bind fun _ =>
      follows_store_numbers (fun _ => id) fun _ h hs => { h with typeSpecs := le_of_push hs }
  | attach owner ownerIndex constructor data =>
    exact (Follows.blob _).bind fun _ =>
      follows_store_numbers (fun _ => id) fun _ h hs => { h with attributes := le_of_push hs }
  | resource id kind data =>
    exact (follows_resourceOffset fun _ _ ho => Bool.noConfusion ho).bind fun _ =>
      follows_store_numbers (fun _ ho => ho) fun _ h hs => { h with resources := le_of_push hs }
  | resourceFile name resourceCount =>
    exact (Follows.text _).bind fun _ =>
      follows_store_numbers (fun _ => id) fun _ h hs => { h with resourceFiles := le_of_push hs }
  | typeDef type => exact follows_typeDef_numbers type

/-- The group after a group of members notes where that one ended, whatever comes of it. -/
theorem wp_typeDef_positions (t : TypeDraft) (d : Draft) :
    wp (typeDef t)
      (fun _ d' => d'.overflow = false → d.fieldDefs.size + t.staticFields.length < 0xFFFF ∧
        d.methodDefs.size < 0xFFFF)
      (fun _ => True) d := by
  rw [wp_typeDef_groups]
  refine wp_mono (wp_forM_fieldDef t.staticFields _) (fun _ d₁ h₁ => ?_) (fun _ _ => trivial)
  refine wp_mono (wp_forM_fieldDef t.instanceFields _) (fun _ d₂ h₂ => ?_) (fun _ _ => trivial)
  refine wp_mono (wp_forM_methodDef t.orderedMethods _) (fun _ d₃ h₃ => ?_) (fun _ _ => trivial)
  simp only [typeRecord, wp_bind, wp_get, wp_reference, wp_text, wp_count, wp_modify, implies_true, and_true]
  intro _ _ _ _ _ ho
  have hnames : Gains 0 0 [] d₃ ((d₃.withText t.name).withText t.nameSpace) :=
    (Gains.withText d₃ t.name).trans (Gains.withText _ t.nameSpace)
  obtain ⟨ho, -⟩ := overflow_noting.1 ho
  obtain ⟨ho₂, hmethods⟩ := overflow_noting.1 (h₃.overflow (hnames.overflow ho))
  obtain ⟨-, hfields⟩ := overflow_noting.1 (h₂.overflow ho₂)
  rw [h₁.fieldDefs] at hfields
  rw [h₂.methodDefs] at hmethods
  rw [Draft.noting, h₁.methodDefs] at hmethods
  exact ⟨hfields, hmethods⟩

end Drafting

namespace Draft

theorem noting_noting (d : Draft) (position : Nat) : (d.noting position).noting position = d.noting position := by
  simp only [noting, Bool.or_assoc, Bool.or_self]

theorem perform_typeDef_noting (t : TypeDraft) (d : Draft) :
    (Step.typeDef t).perform (d.noting d.fieldDefs.size) = (Step.typeDef t).perform d := by
  have hget : ∀ d, (get : Drafting Draft) d = .ok d d := fun _ => rfl
  have hnoted : (d.noting d.fieldDefs.size).fieldDefs = d.fieldDefs := rfl
  show Drafting.typeDef t _ = Drafting.typeDef t d
  unfold Drafting.typeDef
  rw [Drafting.run_bind (hget d), Drafting.run_bind (hget _), hnoted,
    Drafting.run_bind (Drafting.run_reference ..), Drafting.run_bind (Drafting.run_reference ..),
    noting_noting]

theorem fieldDefs_lt_of_typeDef {d : Draft} {t : TypeDraft}
    (h : (d.apply (.typeDef t)).2.overflow = false) : d.fieldDefs.size < 0xFFFF := by
  have hsame : (d.noting d.fieldDefs.size).apply (.typeDef t) = d.apply (.typeDef t) := by
    unfold apply
    rw [perform_typeDef_noting]
  have hext : (d.noting d.fieldDefs.size).Extends (d.apply (.typeDef t)).2 := by
    rw [← hsame]
    exact extends_applyAll _ [.typeDef t]
  exact (overflow_noting.1 (hext.overflow h)).2

theorem numbered_built {name : String} {version : Version} {steps : List Step}
    (h : (built name version steps).overflow = false) : (built name version steps).Numbered := by
  suffices hall : ∀ d : Draft, (d.overflow = false → d.Numbered) → (d.applyAll steps).2.overflow = false →
      (d.applyAll steps).2.Numbered from hall _ (fun _ => .named name version) h
  clear h
  induction steps with
  | nil => exact fun _ hd ho => hd ho
  | cons step steps ih =>
    intro d hd
    exact ih (d.apply step).2 (apply_of_follows (Drafting.follows_numbers step) d hd)

theorem overflow_of_image {d : Draft} {image : Bytes} (h : d.image = .ok image) : d.overflow = false := by
  obtain ⟨_, hc⟩ := closes_of_image h
  exact d.extends_closed.overflow hc.overflow

theorem gains_applyAll {d : Draft} {steps : List Step} (h : ∀ type, .typeDef type ∉ steps) :
    Gains 0 0 [] d (d.applyAll steps).2 := by
  induction steps generalizing d with
  | nil => exact .refl d
  | cons step steps ih =>
    have hstep : Gains 0 0 [] d (d.apply step).2 :=
      apply_of_follows (Drafting.follows_perform_of_ne fun type hs => h type (hs ▸ List.mem_cons_self)) d
    exact hstep.trans (ih fun type ht => h type (List.mem_cons_of_mem _ ht))

/-- Which records of an image a reference can name. Every table that hands out references holds no more
records than there are references. Members are in reach of references as far as type definitions came after
them: each notes first of all where its fields start, and one that succeeds has noted where its instance fields
and its methods start. Nothing notes where the last ones end: the image has what the last type definition left. -/
theorem positions_of_image {name : String} {version : Version} {steps : List Step} {image : Bytes}
    (h : (built name version steps).image = .ok image) :
    (built name version steps).Numbered ∧
      ((∀ type, .typeDef type ∉ steps) →
        (built name version steps).fieldDefs.size = 0 ∧ (built name version steps).methodDefs.size = 0) ∧
      ∀ before type after, steps = before ++ .typeDef type :: after →
        (built name version before).fieldDefs.size < 0xFFFF ∧
        (∀ index, ((built name version before).apply (.typeDef type)).1 = .ok index →
          (built name version before).fieldDefs.size + type.staticFields.length < 0xFFFF ∧
            (built name version before).methodDefs.size < 0xFFFF) ∧
        ((∀ other, .typeDef other ∉ after) →
          (built name version steps).fieldDefs.size =
              ((built name version before).apply (.typeDef type)).2.fieldDefs.size ∧
            (built name version steps).methodDefs.size =
              ((built name version before).apply (.typeDef type)).2.methodDefs.size) := by
  have ho := overflow_of_image h
  refine ⟨numbered_built ho, fun hnone => ?_, ?_⟩
  · have hgains := gains_applyAll (d := Draft.named name version) hnone
    exact ⟨hgains.fieldDefs, hgains.methodDefs⟩
  rintro before type after rfl
  have hbuilt : built name version (before ++ .typeDef type :: after) =
      (((built name version before).apply (.typeDef type)).2.applyAll after).2 := built_append ..
  rw [hbuilt] at ho ⊢
  have ho' := (extends_applyAll _ after).overflow ho
  refine ⟨fieldDefs_lt_of_typeDef ho', fun index hindex => ?_, fun hlast => ?_⟩
  · exact Drafting.wp_ok (Drafting.wp_typeDef_positions type _) (perform_of_apply hindex) ho'
  · have hgains := gains_applyAll (d := ((built name version before).apply (.typeDef type)).2) hlast
    exact ⟨hgains.fieldDefs, hgains.methodDefs⟩

theorem positions_of_image_lamp :
    ∃ image, (built "Home" ⟨1, 0, 0, 0⟩ lampSteps).image = .ok image ∧
      (built "Home" ⟨1, 0, 0, 0⟩ lampSteps).Numbered ∧
      (built "Home" ⟨1, 0, 0, 0⟩ (lampSteps.take 3)).fieldDefs.size < 0xFFFF := by
  obtain ⟨image, -, h, -⟩ := image_closes (close_ok (d := built "Home" ⟨1, 0, 0, 0⟩ lampSteps) (by cbv))
    (by cbv) (by cbv)
  obtain ⟨hnumbered, -, hbefore⟩ := positions_of_image h
  exact ⟨image, h, hnumbered, (hbefore (lampSteps.take 3) _ [] rfl).1⟩

end Draft

namespace Drafting
open Draft

/-- A field whose name and signature are in the heaps adds its record and nothing else. -/
theorem run_fieldDef {f : FieldDraft} {blob : List UInt8} {name sig : UInt16} {d : Draft}
    (hencode : encodeField f.type = .ok blob) (hblob : d.signatures.find? blob = some sig)
    (hempty : f.name.isEmpty = false) (hname : d.strings.find? f.name = some name) :
    fieldDef f d = .ok () { d with fieldDefs := d.fieldDefs.push ⟨name, sig, noReference, f.flags⟩ } := by
  have hb : d.withBlob blob = d := if_pos (by rw [hblob]; rfl)
  have hbref : d.blobReference blob = sig := by rw [blobReference, hblob]; rfl
  have ht : d.withText f.name = d := if_pos (by rw [hname]; exact .inr rfl)
  have htref : d.textReference f.name = name := by rw [textReference, hempty, hname]; rfl
  unfold fieldDef
  rw [hencode]
  show (Drafting.blob blob >>= _) d = _
  rw [run_bind (run_blob blob d), hb, hbref, run_bind (run_text f.name d), ht, htref]
  rfl

/-- The same field over and over. -/
theorem run_forM_fieldDef {f : FieldDraft} {blob : List UInt8} {name sig : UInt16} {d : Draft} (n : Nat)
    (hencode : encodeField f.type = .ok blob) (hblob : d.signatures.find? blob = some sig)
    (hempty : f.name.isEmpty = false) (hname : d.strings.find? f.name = some name) :
    (List.replicate n f).forM fieldDef d = .ok ()
      { d with fieldDefs := d.fieldDefs ++ Array.replicate n ⟨name, sig, noReference, f.flags⟩ } := by
  induction n generalizing d with
  | zero => rw [Array.replicate_zero, Array.append_empty]; rfl
  | succ n ih =>
    rw [List.replicate_succ]
    show (fieldDef f >>= fun _ => (List.replicate n f).forM fieldDef) d = _
    rw [run_bind (run_fieldDef hencode hblob hempty hname)]
    refine (ih (d := { d with fieldDefs := d.fieldDefs.push _ }) hblob hname).trans ?_
    simp only [Array.push_eq_append, Array.append_assoc, Array.replicate_succ']

theorem wp_of_run {α : Type} {m : Drafting α} {a : α} {d d' : Draft} {Q : α → Draft → Prop}
    {E : Draft → Prop} (h : m d = .ok a d') : wp m Q E d = Q a d' := by
  rw [wp, h]

end Drafting

namespace Draft

def crowdField : FieldDraft := ⟨"f", .primitive .i4, ⟨0⟩⟩

/-- A type with any number of fields, all alike, whose name and signature are there before it. -/
def crowdSteps (n : Nat) : List Step :=
  [.text "f", .blob [6, 7],
    .typeDef ((TypeDraft.named "" "T").withInstanceFields (List.replicate n crowdField))]

def crowdBase : Draft := built "A" .zero [.text "f", .blob [6, 7]]

/-- The fields are all there when the type is refused for their count. -/
def crowd (n : Nat) : Draft :=
  { crowdBase with fieldDefs := Array.replicate n ⟨0, 0, noReference, ⟨0⟩⟩ }

theorem run_crowd (n : Nat) :
    (List.replicate n crowdField).forM Drafting.fieldDef crowdBase = .ok () (crowd n) := by
  have hblob : crowdBase.signatures.find? [6, 7] = some 0 := by cbv
  have hname : crowdBase.strings.find? crowdField.name = some 0 := by cbv
  rw [Drafting.run_forM_fieldDef n rfl hblob rfl hname, crowd, show crowdBase.fieldDefs = #[] by cbv,
    Array.empty_append]
  rfl

theorem built_crowd {n : Nat} (hn : 256 ≤ n) :
    built "A" .zero (crowdSteps n) = ((crowd n).withText "T").withText "" := by
  have hnote : ∀ d : Draft, d.noting 0 = d := fun d => noting_of_lt (by decide)
  have hfields : crowdBase.fieldDefs.size = 0 := by cbv
  have hmethods : (crowd n).methodDefs.size = 0 := by cbv
  have hnone : ([] : List FieldDraft).forM Drafting.fieldDef = pure () := rfl
  have hordered : (TypeDraft.withInstanceFields (.named "" "T")
      (List.replicate n crowdField)).orderedMethods.forM Drafting.methodDef = pure () := rfl
  show (crowdBase.apply (.typeDef _)).2 = _
  refine apply_of_wp (P := (· = _)) ?_
  show Drafting.wp (Drafting.typeDef _) _ _ _
  unfold Drafting.typeDef
  simp only [Drafting.wp_bind, Drafting.wp_get, Drafting.wp_reference, hfields, hnote, hordered]
  simp only [TypeDraft.withInstanceFields, TypeDraft.named, List.nil_append, hnone, Drafting.wp_pure,
    Drafting.wp_bind, Drafting.wp_get, Drafting.wp_reference, hfields, hmethods, hnote,
    Drafting.wp_of_run (run_crowd n), Drafting.wp_text, Drafting.wp_count, List.length_replicate,
    Nat.not_lt.2 hn, false_implies, implies_true, and_true]

theorem size_body_crowd (n : Nat) :
    (((crowd n).withText "T").withText "").closed.body.size ≤ n * 8 + 138 := by
  have hrows : (((crowd n).withText "T").withText "").closed.fieldDefs =
      Array.replicate n ⟨0, 0, noReference, ⟨0⟩⟩ := by cbv
  generalize hd : (((crowd n).withText "T").withText "").closed = d at hrows ⊢
  have hfields : (d.region .fieldDef).size = n * 8 := by
    rw [region, size_encodeRows, hrows, Array.size_replicate]
    rfl
  have hothers : ∀ kind, kind ≠ .fieldDef → (d.region kind).size ≤ 6 := by
    intro kind hkind
    rw [← hd]
    cases kind with
    | fieldDef => exact absurd rfl hkind
    | _ => cbv
  have hbefore : (((TableKind.all.take 5).map d.region).flatMap padded).length ≤ 5 * 9 :=
    length_flatMap_padded_le fun kind hk => hothers kind fun h => absurd (h ▸ hk) (by decide)
  have hafter : (((TableKind.all.drop 6).map d.region).flatMap padded).length ≤ 10 * 9 :=
    length_flatMap_padded_le fun kind hk => hothers kind fun h => absurd (h ▸ hk) (by decide)
  have hpadding := paddingFor_lt (d.region .fieldDef).size
  have hall : d.regions = (TableKind.all.take 5).map d.region ++
      d.region .fieldDef :: (TableKind.all.drop 6).map d.region := rfl
  rw [body, ← Array.length_toList, toList_layRegions, hall, List.flatMap_append, List.flatMap_cons,
    List.length_append, List.length_append, length_padded]
  omega

theorem image_of_crowd {n : Nat} (hn : 256 ≤ n) (hn' : n ≤ 0x10000000) :
    ∃ image, (built "A" .zero (crowdSteps n)).image = .ok image ∧
      (built "A" .zero (crowdSteps n)).fieldDefs.size = n := by
  have hbody := size_body_crowd n
  have hheader : Header.size ≤ 256 := by decide
  rw [built_crowd hn]
  obtain ⟨image, -, himage, -⟩ := image_closes (close_ok (d := ((crowd n).withText "T").withText "") (by cbv))
    (by cbv) (by omega)
  refine ⟨image, himage, ?_⟩
  have hrows : (((crowd n).withText "T").withText "").fieldDefs = (crowd n).fieldDefs := by cbv
  rw [hrows, crowd, Array.size_replicate]

theorem unnumbered_crowd :
    ∃ image, (built "A" .zero (crowdSteps 0x10000)).image = .ok image ∧
      ¬ (built "A" .zero (crowdSteps 0x10000)).fieldDefs.size ≤ 0xFFFF := by
  obtain ⟨image, himage, hsize⟩ := image_of_crowd (n := 0x10000) (by decide) (by decide)
  refine ⟨image, himage, ?_⟩
  rw [hsize]
  decide

end Draft

end CompactAssembly
