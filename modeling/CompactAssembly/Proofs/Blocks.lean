import CompactAssembly.Proofs.Distinct
import CompactAssembly.Proofs.Skeletons
import CompactAssembly.Proofs.Wording
import Mathlib

/-!
# What a header holds of each type

A header is written in one run over the types, which numbers the static fields through all of them. A class or value
type has a block with a constant for each field and a declaration of each native method (`HeaderBlock.Declares`); any
other type has none, but uses up numbers, and what a compiler made up for its own data does neither. `Blocks` follows
the run type by type, and all that is said of a header comes from it.
-/

namespace CompactAssembly

namespace Text

theorem holds_iff {needle cs : List Char} : holds needle cs = true ↔ needle <:+: cs := by
  induction cs with
  | nil => rw [holds, List.isEmpty_iff, List.infix_nil]
  | cons c cs ih => rw [holds, Bool.or_eq_true, List.isPrefixOf_iff_prefix, ih, List.infix_cons_iff]

end Text

theorem TypeDef.isEligible_iff {t : TypeDef} : t.isEligible = true ↔
    t.isDelegate = false ∧ (t.semantics = .classType ∨ t.semantics = .valueType) := by
  simp only [isEligible, Bool.and_eq_true, Bool.not_eq_true', Bool.or_eq_true, decide_eq_true_eq]

/-- The class holds what a compiler made up for its own data, as its name says. -/
def IsDetail (className : String) : Prop := "<PrivateImplementationDetails>".toList <:+: className.toList

instance : DecidablePred IsDetail := fun _ => inferInstanceAs (Decidable (_ <:+: _))

/-- How many numbers a type of that class name uses up. -/
def staticsUsed (t : TypeDef) (className : String) : Nat :=
  if IsDetail className then 0 else t.staticFieldCount.toNat

/-- How many numbers are used up before the type at an index. -/
def staticsBefore (types : List (TypeDef × String)) (index : Nat) : Nat :=
  ((types.take index).map fun (t, className) => staticsUsed t className).sum

theorem staticsBefore_succ (t : TypeDef) (className : String) (types : List (TypeDef × String)) (index : Nat) :
    staticsBefore ((t, className) :: types) (index + 1) = staticsUsed t className + staticsBefore types index := by
  rw [staticsBefore, List.take_succ_cons, List.map_cons, List.sum_cons]
  rfl

namespace TypePlan

theorem isPrivateDetail_iff {plan : TypePlan} : plan.isPrivateDetail = true ↔ IsDetail plan.className :=
  Text.holds_iff

/-- The record of a type and the name of its class. -/
def named (plan : TypePlan) : TypeDef × String := (plan.record, plan.className)

theorem map_natives (plan : TypePlan) :
    plan.natives.map (fun (_, native) => native.identifier) = plan.identifiers := by
  rw [natives, List.map_filterMap, identifiers]
  congr 1
  funext m
  simp only [MethodPlan.identifier?, Option.map_map]
  rfl

end TypePlan

/-- The names of fields, as the image writes them. -/
def Image.Names (image : Image) (fields : List Nat) (names : List String) : Prop :=
  List.Forall₂ (fun field name => ∃ f, image.get FieldDef field = .ok f ∧ image.text f.name = .ok name) fields names

/-- The text of a class in a header: its static fields under these numbers, its instance fields under their offsets,
and its native methods. -/
def HeaderBlock.Declares (a : Assembly) (fileName className : String) (t : TypeDef) (statics : List (String × Nat))
    (identifiers : List String) (text : String) : Prop :=
  ∃ instances, text = Wording.block fileName className statics instances identifiers ∧
    a.Names t.staticFields.toList (statics.map Prod.fst) ∧ a.Names t.instanceFields.toList (instances.map Prod.fst) ∧
    instances.map (some ∘ Prod.snd) = t.instanceFields.toList.map fun field => (a.fieldOffset? field).map UInt16.toNat

/-- What a header holds of one type: the numbers of its static fields, and its text. -/
structure Block where
  statics : List (String × Nat)
  text : String

def Block.none : Block := ⟨[], ""⟩

def Block.numbers (b : Block) : List Nat := b.statics.map Prod.snd

namespace Assembly
variable {a : Assembly} {fileName : String} {plan : TypePlan} {plans : List TypePlan} {base : Nat}

theorem fieldLabel_ok {field : Nat} {label : FieldLabel} (h : a.fieldLabel field = .ok label) :
    ∃ f, a.get FieldDef field = .ok f ∧ a.text f.name = .ok label.written := by
  obtain ⟨f, hf, h⟩ := bind_eq_ok.1 h
  obtain ⟨name, hname, h⟩ := bind_eq_ok.1 h
  cases h
  exact ⟨f, hf, hname⟩

theorem instanceConstant_ok {field : Nat} {c : FieldConstant} (h : a.instanceConstant field = .ok c) :
    (∃ f, a.get FieldDef field = .ok f ∧ a.text f.name = .ok c.field.written) ∧
      (a.fieldOffset? field).map UInt16.toNat = some c.value := by
  obtain ⟨label, hlabel, h⟩ := bind_eq_ok.1 h
  cases hoffset : a.fieldOffset? field with
  | none =>
    rw [hoffset] at h
    cases h
  | some offset =>
    rw [hoffset] at h
    cases h
    exact ⟨fieldLabel_ok hlabel, rfl⟩

/-- What the block of a type says, with its static fields numbered from `base` on. -/
structure Shows (a : Assembly) (fileName : String) (base : Nat) (plan : TypePlan) (block : Block) : Prop where
  declares : HeaderBlock.Declares a fileName plan.className plan.record block.statics plan.identifiers block.text
  numbers : block.numbers = List.range' base plan.record.staticFieldCount.toNat

theorem shows_of_headerBlock {block : HeaderBlock} (h : a.headerBlock plan base = .ok block) (fileName : String) :
    a.Shows fileName base plan ⟨block.statics.map FieldConstant.written, block.text fileName⟩ := by
  obtain ⟨statics, hstatics, h⟩ := bind_eq_ok.1 h
  obtain ⟨instances, hinstances, h⟩ := bind_eq_ok.1 h
  cases h
  have hstatics : List.Forall₂ (fun x c => (∃ f, a.get FieldDef x.1 = .ok f ∧ a.text f.name = .ok c.field.written) ∧
      c.value = base + x.2) plan.record.staticFields.toList.zipIdx statics := by
    refine (mapM_eq_ok.1 hstatics).imp fun x c hc => ?_
    obtain ⟨label, hlabel, hc⟩ := bind_eq_ok.1 hc
    cases hc
    exact ⟨fieldLabel_ok hlabel, rfl⟩
  have hinstances := (mapM_eq_ok.1 hinstances).imp fun field c hc => instanceConstant_ok hc
  refine ⟨⟨instances.map FieldConstant.written, ?_, ?_, ?_, ?_⟩, ?_⟩
  · rw [HeaderBlock.text_eq, plan.map_natives]
  · rw [List.map_map, ← List.zipIdx_map_fst 0 plan.record.staticFields.toList, Image.Names, List.forall₂_map_left_iff,
      List.forall₂_map_right_iff]
    exact hstatics.imp fun x c hc => hc.1
  · rw [List.map_map, Image.Names, List.forall₂_map_right_iff]
    exact hinstances.imp fun field c hc => hc.1
  · rw [List.map_map, ← List.forall₂_eq_eq_eq, List.forall₂_map_left_iff, List.forall₂_map_right_iff]
    exact hinstances.flip.imp fun c field hc => hc.2.symm
  · have hvalues : statics.map FieldConstant.value =
        (plan.record.staticFields.toList.zipIdx.map Prod.snd).map (base + ·) := by
      rw [List.map_map, ← List.forall₂_eq_eq_eq, List.forall₂_map_left_iff, List.forall₂_map_right_iff]
      exact hstatics.flip.imp fun c x hc => hc.2
    rw [List.zipIdx_map_snd, List.map_add_range', IndexRange.toList, List.length_range'] at hvalues
    rw [Block.numbers, List.map_map]
    exact hvalues

/-- What a header holds of types whose static fields are numbered from `base` on. -/
inductive Blocks (a : Assembly) (fileName : String) : Nat → List TypePlan → List Block → Prop
  | nil {base : Nat} : Blocks a fileName base [] []
  | shown {base : Nat} {plan : TypePlan} {plans : List TypePlan} {block : Block} {blocks : List Block} :
    plan.eligible = true → ¬ IsDetail plan.className → a.Shows fileName base plan block →
    Blocks a fileName (base + staticsUsed plan.record plan.className) plans blocks →
    Blocks a fileName base (plan :: plans) (block :: blocks)
  | hidden {base : Nat} {plan : TypePlan} {plans : List TypePlan} {blocks : List Block} :
    ¬ (plan.eligible = true ∧ ¬ IsDetail plan.className) →
    Blocks a fileName (base + staticsUsed plan.record plan.className) plans blocks →
    Blocks a fileName base (plan :: plans) (.none :: blocks)

theorem exists_blocks {blocks : List HeaderBlock} (h : a.headerBlocks base plans = .ok blocks) (fileName : String) :
    ∃ shown, a.Blocks fileName base plans shown ∧
      String.join (blocks.map fun block => block.text fileName) = String.join (shown.map Block.text) := by
  induction plans generalizing base blocks with
  | nil =>
    cases h
    exact ⟨[], .nil, rfl⟩
  | cons plan plans ih =>
    -- a type without a block stands in the list with an empty one
    have hempty : ∀ shown : List Block, String.join (shown.map Block.text) =
        String.join ((Block.none :: shown).map Block.text) := by
      intro shown
      rw [List.map_cons, String.join_cons, Block.none, String.empty_append]
    unfold headerBlocks at h
    split at h
    · next hprivate =>
      have hdetail := TypePlan.isPrivateDetail_iff.1 hprivate
      obtain ⟨shown, hshown, htext⟩ := ih h
      refine ⟨.none :: shown, .hidden (fun hplan => hplan.2 hdetail) ?_, htext.trans (hempty shown)⟩
      rwa [staticsUsed, if_pos hdetail]
    · next hpublic =>
      have hdetail := mt TypePlan.isPrivateDetail_iff.2 hpublic
      have hused : staticsUsed plan.record plan.className = plan.record.staticFieldCount.toNat := if_neg hdetail
      split at h
      · next heligible =>
        obtain ⟨block, hblock, h⟩ := bind_eq_ok.1 h
        obtain ⟨rest, hrest, h⟩ := bind_eq_ok.1 h
        cases h
        obtain ⟨shown, hshown, htext⟩ := ih hrest
        rw [← hused] at hshown
        refine ⟨_, .shown heligible hdetail (shows_of_headerBlock hblock fileName) hshown, ?_⟩
        rw [List.map_cons, List.map_cons, String.join_cons, String.join_cons, htext]
      · next heligible =>
        obtain ⟨shown, hshown, htext⟩ := ih h
        rw [← hused] at hshown
        exact ⟨.none :: shown, .hidden (fun hplan => heligible hplan.1) hshown, htext.trans (hempty shown)⟩

namespace Blocks
variable {blocks : List Block}

theorem length_eq (h : a.Blocks fileName base plans blocks) : plans.length = blocks.length := by
  induction h with
  | nil => rfl
  | shown _ _ _ _ ih | hidden _ _ ih => rw [List.length_cons, List.length_cons, ih]

/-- Each type has its block at its own index, with the numbers behind those that the types before it use up. -/
theorem getElem? (h : a.Blocks fileName base plans blocks) {i : Nat} {plan : TypePlan} {block : Block}
    (hplan : plans[i]? = some plan) (hblock : blocks[i]? = some block) :
    (plan.eligible = true ∧ ¬ IsDetail plan.className →
      a.Shows fileName (base + staticsBefore (plans.map TypePlan.named) i) plan block) ∧
    (¬ (plan.eligible = true ∧ ¬ IsDetail plan.className) → block = .none) := by
  induction h generalizing i with
  | nil => cases hplan
  | shown heligible hdetail hshows _ ih =>
    cases i with
    | zero =>
      cases hplan
      cases hblock
      exact ⟨fun _ => hshows, fun hnot => absurd ⟨heligible, hdetail⟩ hnot⟩
    | succ i =>
      rw [List.map_cons, TypePlan.named, staticsBefore_succ, ← Nat.add_assoc]
      exact ih hplan hblock
  | hidden hhidden _ ih =>
    cases i with
    | zero =>
      cases hplan
      cases hblock
      exact ⟨fun hshown => absurd hshown hhidden, fun _ => rfl⟩
    | succ i =>
      rw [List.map_cons, TypePlan.named, staticsBefore_succ, ← Nat.add_assoc]
      exact ih hplan hblock

/-- The texts alone, beside the types. -/
theorem texts (h : a.Blocks fileName base plans blocks) : List.Forall₂ (fun plan text =>
    (plan.eligible = true ∧ ¬ IsDetail plan.className →
      ∃ statics, HeaderBlock.Declares a fileName plan.className plan.record statics plan.identifiers text) ∧
    (¬ (plan.eligible = true ∧ ¬ IsDetail plan.className) → text = "")) plans (blocks.map Block.text) := by
  induction h with
  | nil => exact .nil
  | shown heligible hdetail hshows _ ih =>
    exact .cons ⟨fun _ => ⟨_, hshows.declares⟩, fun hnot => absurd ⟨heligible, hdetail⟩ hnot⟩ ih
  | hidden hhidden _ ih => exact .cons ⟨fun hshown => absurd hshown hhidden, fun _ => rfl⟩ ih

theorem base_le (h : a.Blocks fileName base plans blocks) : ∀ v ∈ blocks.flatMap Block.numbers, base ≤ v := by
  induction h with
  | nil => exact nofun
  | shown _ _ hshows _ ih =>
    rw [List.flatMap_cons, hshows.numbers]
    intro v hv
    rcases List.mem_append.1 hv with hv | hv
    · exact (List.mem_range'_1.1 hv).1
    · exact Nat.le_of_add_right_le (ih v hv)
  | hidden _ _ ih => exact fun v hv => Nat.le_of_add_right_le (ih v hv)

theorem pairwise_numbers (h : a.Blocks fileName base plans blocks) :
    (blocks.flatMap Block.numbers).Pairwise (· < ·) := by
  induction h with
  | nil => exact .nil
  | @shown base plan plans block blocks _ hdetail hshows hblocks ih =>
    -- the blocks behind this one start where its numbers end
    have hlow := hblocks.base_le
    rw [staticsUsed, if_neg hdetail] at hlow
    rw [List.flatMap_cons, hshows.numbers]
    refine List.pairwise_append.2 ⟨List.pairwise_lt_range', ih, fun v hv w hw => ?_⟩
    exact Nat.lt_of_lt_of_le (List.mem_range'_1.1 hv).2 (hlow w hw)
  | hidden _ _ ih => exact ih

end Blocks

end Assembly

end CompactAssembly
