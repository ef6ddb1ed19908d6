import CompactAssembly.Proofs.Blocks
import CompactAssembly.Proofs.Lookup

/-!
# Numbers of static fields

A header numbers the static fields through all types. A type starts where the types before it have used up numbers
(`staticsBefore`), whether they have a block or not; only what a compiler made up for its own data uses none. The
numbers stand in the header beside the names of the fields, and grow from the first to the last.
-/

namespace CompactAssembly

/-- The constants for static fields in a rendered header: the block of a class or value type that is no detail has
one for each static field of the type, numbered in turn from the sum of what the types before it use up, and no other
type has a block. The numbers grow through the header, so no two of them are the same. -/
theorem Assembly.static_numbers {a : Assembly} {options : GeneratorOptions} {skeleton : Skeleton}
    (h : a.render options = .ok skeleton) :
    ∃ (fileName assemblyName : String) (stem : Path) (types : List (TypeDef × String)) (blocks : List Block)
      (rest : List Artifact), options.fileName = .ok fileName ∧ options.stem = .ok stem ∧
      a.name? = some assemblyName ∧
      skeleton.artifacts =
        ⟨.header, stem.extended ".h", headerFrame options.mode (Naming.headerGuard (stem.extended ".h"))
          (Text.replaceChar '.' '_' assemblyName) (String.join (blocks.map Block.text))⟩ :: rest ∧
      types.length = a.typeCount ∧ blocks.length = a.typeCount ∧
      (∀ (i : Nat) t className block, types[i]? = some (t, className) → blocks[i]? = some block →
        a.get TypeDef i = .ok t ∧ a.className .identifier i = .ok className ∧
        ((t.isDelegate = false ∧ (t.semantics = .classType ∨ t.semantics = .valueType)) ∧ ¬ IsDetail className →
          (∃ instances identifiers,
            block.text = Wording.block fileName className block.statics instances identifiers) ∧
          a.Names t.staticFields.toList (block.statics.map Prod.fst) ∧
          block.statics.map Prod.snd = List.range' (staticsBefore types i) t.staticFieldCount.toNat) ∧
        (¬ ((t.isDelegate = false ∧ (t.semantics = .classType ∨ t.semantics = .valueType)) ∧ ¬ IsDetail className) →
          block.statics = [] ∧ block.text = "")) ∧
      (blocks.flatMap fun block => block.statics.map Prod.snd).Pairwise (· < ·) := by
  obtain ⟨fileName, assemblyName, -, plans, text, others, stem, hfile, rfl, hname, -, hplans, htext, -, rfl⟩ :=
    render_ok_iff.1 h
  obtain ⟨hlen, hof⟩ := Image.plan_ok hplans
  obtain ⟨headerBlocks, hheader, rfl⟩ := headerText_ok_iff.1 htext
  obtain ⟨blocks, hblocks, hjoin⟩ := exists_blocks hheader fileName
  rw [hjoin]
  refine ⟨fileName, assemblyName, _, plans.map TypePlan.named, blocks, _, hfile, stem_eq hfile, hname, rfl,
    by rw [List.length_map, hlen], hblocks.length_eq.symm.trans hlen, fun i t className block htype hblock => ?_,
    hblocks.pairwise_numbers⟩
  rw [List.getElem?_map, Option.map_eq_some_iff] at htype
  obtain ⟨plan, hplan, hnamed⟩ := htype
  cases hnamed
  obtain ⟨hi, rfl⟩ := List.getElem?_eq_some_iff.1 hplan
  obtain ⟨hshown, hhidden⟩ := hblocks.getElem? hplan hblock
  rw [Nat.zero_add] at hshown
  rw [TypePlan.eligible, TypeDef.isEligible_iff] at hshown hhidden
  refine ⟨(hof i hi).record, (hof i hi).className, fun hclass => ?_, fun hnone => ?_⟩
  · obtain ⟨⟨instances, htext, hnames, -⟩, hnumbers⟩ := hshown hclass
    exact ⟨⟨instances, _, htext⟩, hnames, hnumbers⟩
  · rw [hhidden hnone]
    exact ⟨rfl, rfl⟩

namespace Draft

def detailHeader : Header where
  headerCrc := 0
  assemblyCrc := 0
  flags := 0
  nativeChecksum := 0
  patchEntryOffset := 0xFFFFFFFF
  version := .zero
  assemblyName := 40
  stringTableVersion := 1
  starts := #v[124, 124, 124, 124, 124, 196, 236, 236, 236, 236, 236, 236, 284, 284, 284, 284]
  patchedMethodCount := 0
  paddings := #v[0, 0, 0, 0, 0, 0, 0, 0, 0, 0, 0, 3, 0, 0, 0, 0]

/-- A detail with two static fields, an interface with one and a class with two. -/
def detailImage : Bytes := (detailHeader.encode ++
  [0, 0, 255, 255, 255, 255, 255, 255, 0, 0, 255, 255, 0, 0, 0, 0, 0, 17, 0, 0, 0, 0, 2, 0,
    31, 0, 255, 255, 255, 255, 255, 255, 32, 0, 255, 255, 0, 0, 0, 0, 0, 17, 2, 0, 0, 0, 1, 0,
    33, 0, 255, 255, 255, 255, 255, 255, 0, 0, 255, 255, 0, 0, 0, 0, 0, 17, 3, 0, 0, 0, 2, 0,
    38, 0, 0, 0, 255, 255, 0, 0, 38, 0, 0, 0, 255, 255, 0, 0, 38, 0, 0, 0, 255, 255, 0, 0,
    38, 0, 0, 0, 255, 255, 0, 0, 31, 0, 0, 0, 255, 255, 0, 0,
    60, 80, 114, 105, 118, 97, 116, 101, 73, 109, 112, 108, 101, 109, 101, 110, 116, 97, 116, 105, 111, 110,
    68, 101, 116, 97, 105, 108, 115, 62, 0, 73, 0, 76, 97, 109, 112, 0, 65, 0, 72, 111, 109, 101, 0, 0, 0, 0]).toArray

def detailed : Assembly where
  toImage := Image.view detailImage detailHeader
  owners := ⟨#[some 0, some 0, some 1, some 2, some 2], #[]⟩
  fieldOffsets := #[none, none, none, none, none]

theorem load_detailed : Assembly.load .bare detailImage = .ok detailed :=
  Assembly.load_encode rfl (by decide +kernel) (by decide +kernel) (by decide +kernel)

def detailPlans : List TypePlan :=
  [⟨0, ⟨0, 0xFFFF, 0xFFFF, 0xFFFF, ⟨0⟩, 0xFFFF, 0, 0, 0, 0, 17, 0, 0, 2, 0⟩, "<PrivateImplementationDetails>", []⟩,
    ⟨1, ⟨31, 0xFFFF, 0xFFFF, 0xFFFF, ⟨32⟩, 0xFFFF, 0, 0, 0, 0, 17, 2, 0, 1, 0⟩, "I", []⟩,
    ⟨2, ⟨33, 0xFFFF, 0xFFFF, 0xFFFF, ⟨0⟩, 0xFFFF, 0, 0, 0, 0, 17, 3, 0, 2, 0⟩, "Lamp", []⟩]

theorem plan_detailed : detailed.plan .plain = .ok detailPlans := by decide +kernel

theorem render_detailed : ∃ skeleton, detailed.render homeOptions = .ok skeleton := by
  have hname : detailed.name? = some "Home" := by decide +kernel
  have hblocks : detailed.headerBlocks 0 detailPlans = .ok [⟨"Lamp", [⟨⟨"A"⟩, 1⟩, ⟨⟨"I"⟩, 2⟩], [], []⟩] := by
    decide +kernel
  exact Assembly.exists_render rfl fileName_home hname plan_detailed project_home hblocks

/-- The detail uses up no number and the interface, which has no block, uses up one. -/
theorem static_numbers_detailed :
    ∃ skeleton fileName guard assemblyId instances identifiers, Assembly.load .bare detailImage = .ok detailed ∧
      detailed.render homeOptions = .ok skeleton ∧
      (skeleton.artifacts.map Artifact.contents).head? = some (headerFrame .coreLibrary guard assemblyId
        (Wording.block fileName "Lamp" [("A", 1), ("I", 2)] instances identifiers)) := by
  obtain ⟨skeleton, hrender⟩ := render_detailed
  obtain ⟨fileName, assemblyName, stem, types, blocks, rest, -, -, -, hartifacts, htypesLen, hblocksLen, hblocks, -⟩ :=
    Assembly.static_numbers hrender
  obtain ⟨hcount, hof⟩ := Image.plan_ok plan_detailed
  obtain ⟨detail, interface, lamp, rfl⟩ := List.length_eq_three.1 (hblocksLen.trans hcount.symm)
  have htypes : types = detailPlans.map TypePlan.named := by
    refine List.ext_getElem (by rw [htypesLen, ← hcount, List.length_map]) fun i hi hi' => ?_
    rw [List.length_map] at hi'
    have hblock := List.getElem?_eq_getElem (show i < [detail, interface, lamp].length from hi')
    obtain ⟨hget, hname, -⟩ := hblocks i _ _ _ (List.getElem?_eq_getElem hi) hblock
    have hrecord := Except.ok.inj ((hof i hi').record.symm.trans hget)
    have hclass := Except.ok.inj ((hof i hi').className.symm.trans hname)
    rw [List.getElem_map]
    exact Prod.ext hrecord.symm hclass.symm
  subst htypes
  obtain ⟨-, hdetail⟩ := (hblocks 0 _ _ detail rfl rfl).2.2.2 (by decide +kernel)
  obtain ⟨-, hinterface⟩ := (hblocks 1 _ _ interface rfl rfl).2.2.2 (by decide +kernel)
  obtain ⟨⟨instances, identifiers, hlamp⟩, hnames, hnumbers⟩ := (hblocks 2 _ _ lamp rfl rfl).2.2.1 (by decide +kernel)
  have hbefore : staticsBefore (detailPlans.map TypePlan.named) 2 = 1 := by decide +kernel
  rw [hbefore] at hnumbers
  have hstatics : lamp.statics = [("A", 1), ("I", 2)] := by
    obtain ⟨_, _, ⟨f, hf, hfirst⟩, hrest, hnames⟩ := List.forall₂_cons_left_iff.1 hnames
    obtain ⟨_, _, ⟨g, hg, hsecond⟩, ⟨⟩, rfl⟩ := List.forall₂_cons_left_iff.1 hrest
    cases (show detailed.get FieldDef 3 = .ok ⟨38, 0, 0xFFFF, ⟨0⟩⟩ by decide +kernel).symm.trans hf
    cases (show detailed.get FieldDef 4 = .ok ⟨31, 0, 0xFFFF, ⟨0⟩⟩ by decide +kernel).symm.trans hg
    cases (show detailed.text 38 = .ok "A" by decide +kernel).symm.trans hfirst
    cases (show detailed.text 31 = .ok "I" by decide +kernel).symm.trans hsecond
    rw [← List.zip_unzip lamp.statics, List.unzip_eq_map, hnames, hnumbers]
    rfl
  have hheader : (skeleton.artifacts.map Artifact.contents).head? =
      some (headerFrame .coreLibrary _ _ (String.join ([detail, interface, lamp].map Block.text))) :=
    congrArg (fun artifacts => (artifacts.map Artifact.contents).head?) hartifacts
  have hjoin : String.join ([detail, interface, lamp].map Block.text) = lamp.text := by
    simp only [List.map_cons, List.map_nil, hdetail, hinterface, String.join_cons, String.join_nil,
      String.empty_append, String.append_empty]
  rw [hjoin, hlamp, hstatics] at hheader
  exact ⟨skeleton, fileName, _, _, instances, identifiers, load_detailed, hrender, hheader⟩

end Draft
end CompactAssembly
