import CompactAssembly.Proofs.Emission
import CompactAssembly.Proofs.Places
import Mathlib.Data.List.Nodup

/-!
# Where artifacts go

All artifacts but the build module lie behind one stem, each with an ending made of the name of its class.
Two of them are the same place where the names of their classes agree up to repeated slashes, or where, for a
library, one name is the other with the mark of marshaling code (`Assembly.artifacts_apart`).
-/

namespace CompactAssembly

namespace GenerationMode

/-- What stands behind the name of a class in the names of its files. -/
def tails : GenerationMode → List String
  | .interop => ["_mshl.cpp", ".h", ".cpp"]
  | .coreLibrary => [".cpp"]

def endings (mode : GenerationMode) (className : String) : List String :=
  mode.tails.map fun tail => "_" ++ className ++ tail

/-- Names of classes whose files have different names. -/
def Apart (mode : GenerationMode) (c d : List Char) : Prop :=
  c ≠ d ∧ (mode = .interop → c ≠ d ++ "_mshl".toList ∧ d ≠ c ++ "_mshl".toList)

end GenerationMode

/-- The names of the classes that have native methods. -/
def boundClasses (plans : List TypePlan) : List String :=
  (plans.filter fun plan => !plan.natives.isEmpty).map TypePlan.className

namespace Naming

theorem fixChar_plain (c : Char) : fixChar c ≠ '/' ∧ fixChar c ≠ '.' := by
  unfold fixChar
  split
  · next h =>
    constructor <;>
    · rintro rfl
      exact absurd h (by decide)
  · decide

theorem fixIdentifier_plain (name : String) : ∀ c ∈ (fixIdentifier name).toList, c ≠ '/' ∧ c ≠ '.' := by
  intro c hc
  unfold fixIdentifier at hc
  split at hc
  · cases hc
  · next first rest _ =>
    rw [String.toList_ofList, List.mem_cons, List.mem_map] at hc
    rcases hc with rfl | ⟨d, -, rfl⟩
    · split
      · decide
      · exact fixChar_plain first
    · exact fixChar_plain d

end Naming

theorem GeneratorOptions.fileName_ok {options : GeneratorOptions} {fileName : String}
    (h : options.fileName = .ok fileName) :
    fileName.toList ≠ [] ∧ ∀ c ∈ fileName.toList, c ≠ '/' ∧ c ≠ '.' := by
  unfold GeneratorOptions.fileName at h
  simp only at h
  split at h
  · cases h
  · next hempty =>
    cases h
    refine ⟨fun hnil => hempty ?_, Naming.fixIdentifier_plain _⟩
    rw [String.isEmpty_iff, ← String.toList_eq_nil_iff, hnil]

theorem Text.not_mem_replaceChar {old new : Char} (h : new ≠ old) (text : String) :
    old ∉ (replaceChar old new text).toList := by
  rw [replaceChar, String.toList_ofList, List.mem_map]
  rintro ⟨c, -, hc⟩
  split at hc
  · exact h hc
  · next hne => exact hne hc

theorem Image.className_plain {image : Image} {index : Nat} {name : String}
    (h : image.className .identifier index = .ok name) : '.' ∉ name.toList := by
  obtain ⟨chain, -, h⟩ := bind_eq_ok.1 h
  obtain ⟨texts, -, h⟩ := bind_eq_ok.1 h
  cases h
  exact Text.not_mem_replaceChar (by decide) _

theorem Image.boundClasses_plain {image : Image} {policy : NamingPolicy} {plans : List TypePlan}
    (h : image.plan policy = .ok plans) : ∀ name ∈ boundClasses plans, '.' ∉ name.toList := by
  intro name hname
  obtain ⟨plan, hplan, rfl⟩ := List.mem_map.1 hname
  obtain ⟨index, hindex, rfl⟩ := List.getElem_of_mem (List.mem_of_mem_filter hplan)
  exact Image.className_plain ((Image.plan_ok h).2 index hindex).className

namespace GenerationMode
variable {mode : GenerationMode} {name : String}

theorem extended_of_mem_endings (hname : '.' ∉ name.toList) {ending : String}
    (h : ending ∈ mode.endings name) : Path.Extended ending.toList := by
  obtain ⟨tail, htail, rfl⟩ := List.mem_map.1 h
  have hextended : Path.Extended tail.toList := by
    cases mode
    · simp only [tails, List.mem_cons, List.not_mem_nil, or_false] at htail
      rcases htail with rfl | rfl | rfl
      · exact ⟨"_mshl".toList, "cpp".toList, by decide⟩
      · exact ⟨[], "h".toList, by decide⟩
      · exact ⟨[], "cpp".toList, by decide⟩
    · obtain rfl := List.mem_singleton.1 htail
      exact ⟨[], "cpp".toList, by decide⟩
  rw [String.toList_append]
  refine hextended.append ?_
  rw [String.toList_append, List.mem_append, not_or]
  exact ⟨by decide, hname⟩

/-- The endings of a class, its name given as it is once slashes are not repeated. -/
def plainEndings (mode : GenerationMode) (name : List Char) : List (List Char) :=
  mode.tails.map fun tail => '_' :: (name ++ tail.toList)

theorem squeeze_endings (mode : GenerationMode) (name : String) :
    (mode.endings name).map (fun ending => Text.squeeze ending.toList) =
      mode.plainEndings (Text.squeeze name.toList) := by
  rw [endings, plainEndings, List.map_map]
  refine List.map_congr_left fun tail htail => ?_
  have hslash : '/' ∉ tail.toList := by
    revert tail
    cases mode <;> decide
  rw [Function.comp_apply, String.toList_append, String.toList_append, Text.squeeze_append _ hslash,
    Text.squeeze_append_of_not_mem (by decide)]
  rfl

theorem nodup_plainEndings (mode : GenerationMode) (name : List Char) : (mode.plainEndings name).Nodup := by
  refine List.Nodup.map ?_ (by cases mode <;> decide)
  intro tail tail' h
  exact String.toList_inj.1 (List.append_cancel_left (List.cons.inj h).2)

theorem disjoint_plainEndings_iff {c d : List Char} :
    (mode.plainEndings c).Disjoint (mode.plainEndings d) ↔ mode.Apart c d := by
  have hdisjoint : (mode.plainEndings c).Disjoint (mode.plainEndings d) ↔
      ∀ tail ∈ mode.tails, ∀ tail' ∈ mode.tails, c ++ tail.toList ≠ d ++ tail'.toList := by
    unfold plainEndings
    constructor
    · intro h tail htail tail' htail' heq
      exact h (List.mem_map_of_mem htail) (List.mem_map.2 ⟨tail', htail', by rw [heq]⟩)
    · intro h ending hc hd
      obtain ⟨tail, htail, rfl⟩ := List.mem_map.1 hc
      obtain ⟨tail', htail', heq⟩ := List.mem_map.1 hd
      exact h tail htail tail' htail' (List.cons.inj heq).2.symm
  have hmark : ∀ c d : List Char, c ++ "_mshl.cpp".toList = d ++ ".cpp".toList ↔ d = c ++ "_mshl".toList := by
    intro c d
    rw [show "_mshl.cpp".toList = "_mshl".toList ++ ".cpp".toList from rfl, ← List.append_assoc,
      List.append_cancel_right_eq, eq_comm]
  -- a header and a source end in different letters
  have hkind : ∀ (c d : List Char) (tail : String), tail.toList.getLast? = some 'p' →
      c ++ ".h".toList ≠ d ++ tail.toList := by
    intro c d tail htail heq
    have hlast := congrArg List.getLast? heq
    rw [List.getLast?_append, List.getLast?_append, htail] at hlast
    cases hlast
  rw [hdisjoint, Apart]
  cases mode with
  | coreLibrary => simp [tails]
  | interop =>
    constructor
    · intro h
      refine ⟨fun heq => h ".h" (by decide) ".h" (by decide) (by rw [heq]), fun _ => ⟨fun hc => ?_, fun hd => ?_⟩⟩
      · exact h ".cpp" (by decide) "_mshl.cpp" (by decide) ((hmark d c).2 hc).symm
      · exact h "_mshl.cpp" (by decide) ".cpp" (by decide) ((hmark c d).2 hd)
    · rintro ⟨hne, hmarks⟩
      obtain ⟨hc, hd⟩ := hmarks rfl
      have hsame : ∀ tail : List Char, c ++ tail ≠ d ++ tail := fun tail heq => hne (List.append_cancel_right heq)
      simp only [tails, List.forall_mem_cons, List.not_mem_nil, false_imp_iff, implies_true, and_true]
      refine ⟨⟨hsame _, (hkind d c _ rfl).symm, mt (hmark c d).1 hd⟩, ⟨hkind c d _ rfl, hsame _, hkind c d _ rfl⟩,
        fun heq => hc ((hmark d c).1 heq.symm), (hkind d c _ rfl).symm, hsame _⟩

/-- The endings of all files behind a stem, for classes of these names. -/
def allEndings (mode : GenerationMode) (names : List String) : List String :=
  ".h" :: ".cpp" :: names.flatMap mode.endings

theorem extended_of_mem_allEndings {names : List String} (hnames : ∀ name ∈ names, '.' ∉ name.toList)
    {ending : String} (h : ending ∈ mode.allEndings names) : Path.Extended ending.toList := by
  simp only [allEndings, List.mem_cons] at h
  rcases h with rfl | rfl | h
  · exact ⟨[], "h".toList, by decide⟩
  · exact ⟨[], "cpp".toList, by decide⟩
  · obtain ⟨name, hname, h⟩ := List.mem_flatMap.1 h
    exact extended_of_mem_endings (hnames name hname) h

theorem getLast?_of_mem_allEndings {names : List String} {ending : String} (h : ending ∈ mode.allEndings names) :
    ending.toList.getLast? = some 'h' ∨ ending.toList.getLast? = some 'p' := by
  simp only [allEndings, List.mem_cons] at h
  rcases h with rfl | rfl | h
  · exact .inl rfl
  · exact .inr rfl
  · obtain ⟨name, -, h⟩ := List.mem_flatMap.1 h
    obtain ⟨tail, htail, rfl⟩ := List.mem_map.1 h
    have hlast : ∀ tail ∈ mode.tails, tail.toList.getLast? = some 'h' ∨ tail.toList.getLast? = some 'p' := by
      cases mode <;> decide
    rw [String.toList_append, List.getLast?_append]
    rcases hlast tail htail with hlast | hlast
    · exact .inl (by rw [hlast]; rfl)
    · exact .inr (by rw [hlast]; rfl)

theorem nodup_allEndings_iff {names : List String} :
    ((mode.allEndings names).map fun ending => Text.squeeze ending.toList).Nodup ↔
      names.Pairwise fun c d => mode.Apart (Text.squeeze c.toList) (Text.squeeze d.toList) := by
  have hsqueeze : (mode.allEndings names).map (fun ending => Text.squeeze ending.toList) =
      [".h".toList, ".cpp".toList] ++ (names.map fun name => Text.squeeze name.toList).flatMap mode.plainEndings := by
    rw [allEndings, List.map_cons, List.map_cons, List.map_flatMap, List.flatMap_map]
    simp only [squeeze_endings]
    rfl
  have hfirst : [".h".toList, ".cpp".toList].Disjoint
      ((names.map fun name => Text.squeeze name.toList).flatMap mode.plainEndings) := by
    intro ending hfixed h
    obtain ⟨name, -, h⟩ := List.mem_flatMap.1 h
    obtain ⟨tail, -, rfl⟩ := List.mem_map.1 h
    simp at hfixed
  rw [hsqueeze, List.nodup_append', List.nodup_flatMap, List.pairwise_map]
  simp only [Function.onFun, disjoint_plainEndings_iff]
  constructor
  · exact fun h => h.2.1.2
  · exact fun h => ⟨by decide, ⟨fun name _ => nodup_plainEndings mode name, h⟩, hfirst⟩

end GenerationMode

namespace Path

/-- Behind one stem files of classes are apart where the names are. -/
theorem pairwise_allEndings_iff (mode : GenerationMode) {stem : Path} {front name : List Char}
    (hstem : stem.text.toList = front ++ name) (hfront : Leading front)
    (hname : name ≠ [] ∧ ∀ c ∈ name, c ≠ '/' ∧ c ≠ '.') {names : List String}
    (hnames : ∀ name ∈ names, '.' ∉ name.toList) :
    ((mode.allEndings names).map stem.extended).Pairwise (fun p q => p.same q = false) ↔
      names.Pairwise fun c d => mode.Apart (Text.squeeze c.toList) (Text.squeeze d.toList) := by
  rw [List.pairwise_map, ← GenerationMode.nodup_allEndings_iff, List.Nodup, List.pairwise_map]
  refine List.Pairwise.iff_of_mem fun {ending ending'} h h' => ?_
  have hsame := same_extended_iff hstem hfront hname.1 hname.2
    (GenerationMode.extended_of_mem_allEndings hnames h) (GenerationMode.extended_of_mem_allEndings hnames h')
  rw [Ne, ← hsame, Bool.not_eq_true]

theorem getLast?_extended {p : Path} {ending : String} {c : Char} (h : ending.toList.getLast? = some c) :
    (p.extended ending).text.toList.getLast? = some c := by
  rw [extended, String.toList_append, List.getLast?_append, h]
  rfl

theorem getLast?_sibling {p : Path} {name : String} {c : Char} (h : name.toList.getLast? = some c) :
    (p.sibling name).text.toList.getLast? = some c := by
  obtain ⟨front, -, htext⟩ := p.exists_sibling name
  rw [htext, List.getLast?_append, h]
  rfl

end Path

namespace LookupTable

/-- Names of classes of which none can be mistaken for another in front of two colons. -/
def Apart (c d : String) : Prop :=
  c ≠ d ∧ ¬ c.toList ++ [':'] <+: d.toList ∧ ¬ d.toList ++ [':'] <+: c.toList

theorem slot_inj {fileName : String} {handler handler' : Handler} :
    Wording.slot fileName (some handler) = Wording.slot fileName (some handler') ↔
      handler.className.toList ++ ':' :: ':' :: handler.identifier.toList =
        handler'.className.toList ++ ':' :: ':' :: handler'.identifier.toList := by
  have htext : ∀ handler : Handler, (Wording.slot fileName (some handler)).toList =
      ("    Library_" ++ fileName ++ "_").toList ++
        ((handler.className.toList ++ ':' :: ':' :: handler.identifier.toList) ++ ",\n".toList) := by
    intro handler
    simp only [Wording.slot, String.toList_append, List.append_assoc]
    rfl
  rw [← String.toList_inj, htext, htext, List.append_cancel_left_eq, List.append_cancel_right_eq]

theorem Apart.slot_ne {c d : String} (h : Apart c d) (fileName identifier identifier' : String) :
    Wording.slot fileName (some ⟨c, identifier⟩) ≠ Wording.slot fileName (some ⟨d, identifier'⟩) := by
  intro heq
  rcases List.append_eq_append_iff.1 (slot_inj.1 heq) with ⟨between, hd, hcolons⟩ | ⟨between, hc, hcolons⟩
  · cases between with
    | nil => exact h.1 (String.toList_inj.1 (hd.trans (List.append_nil _)).symm)
    | cons e between =>
      obtain rfl : ':' = e := (List.cons.inj hcolons).1
      exact h.2.1 ⟨between, by rw [List.append_assoc]; exact hd.symm⟩
  · cases between with
    | nil => exact h.1 (String.toList_inj.1 (hc.trans (List.append_nil _)))
    | cons e between =>
      obtain rfl : ':' = e := (List.cons.inj hcolons).1
      exact h.2.2 ⟨between, by rw [List.append_assoc]; exact hc.symm⟩

end LookupTable

theorem Image.nodup_slots {image : Image} {policy : NamingPolicy} {plans : List TypePlan}
    (hplans : image.plan policy = .ok plans) (h : (boundClasses plans).Pairwise LookupTable.Apart) (fileName : String) :
    (((slots plans).filterMap id).map fun handler => Wording.slot fileName (some handler)).Nodup := by
  have hlines : ((slots plans).filterMap id).map (fun handler => Wording.slot fileName (some handler)) =
      plans.flatMap fun plan => plan.identifiers.map fun identifier =>
        Wording.slot fileName (some ⟨plan.className, identifier⟩) := by
    rw [slots_eq, List.filterMap_flatMap, List.map_flatMap]
    simp only [TypePlan.filterMap_slots, List.map_map]
    rfl
  rw [hlines, List.nodup_flatMap]
  constructor
  · intro plan hplan
    refine (Image.nodup_identifiers hplans hplan).map fun identifier identifier' heq => ?_
    have htexts := LookupTable.slot_inj.1 heq
    simp only [List.append_cancel_left_eq, List.cons.injEq, true_and] at htexts
    exact String.toList_inj.1 htexts
  · rw [boundClasses, List.pairwise_map, List.pairwise_filter] at h
    refine h.imp fun {plan plan'} hapart line hline hline' => ?_
    obtain ⟨identifier, hmem, rfl⟩ := List.mem_map.1 hline
    obtain ⟨identifier', hmem', heq⟩ := List.mem_map.1 hline'
    have hnatives : ∀ {plan : TypePlan} {identifier : String}, identifier ∈ plan.identifiers →
        (!plan.natives.isEmpty) = true := by
      intro plan identifier hmem
      rw [Bool.not_eq_true', Bool.eq_false_iff, Ne, List.isEmpty_iff, ← TypePlan.identifiers_eq_nil_iff]
      exact List.ne_nil_of_mem hmem
    exact (hapart (hnatives hmem) (hnatives hmem')).slot_ne _ _ _ heq.symm

namespace Assembly
variable {a : Assembly} {options : GeneratorOptions}

theorem otherArtifacts_paths {fileName project assemblyName : String} {stem : Path} {lookup : Artifact}
    {plans : List TypePlan} {others : List Artifact}
    (h : a.otherArtifacts options fileName project assemblyName stem lookup plans = .ok others) :
    ∃ rest, others.map Artifact.path =
      ((plans.map TypePlan.className).flatMap options.mode.endings).map stem.extended ++ rest ∧
      (rest = [] ∨ options.mode = .interop ∧ ∃ q : Path, rest = [q] ∧ q.text.toList.getLast? = some 'e') := by
  unfold otherArtifacts at h
  generalize options.mode = mode at h ⊢
  cases mode with
  | interop =>
    obtain ⟨units, hunits, rfl⟩ := libraryArtifacts_ok_iff.1 h
    have hclasses : plans.map TypePlan.className = units.map StubUnit.className := by
      rw [← List.forall₂_eq_eq_eq, List.forall₂_map_left_iff, List.forall₂_map_right_iff]
      exact (mapM_eq_ok.1 hunits).imp fun plan u hu => (stubUnit_ok hu).1.symm
    -- no other file of a library ends in this letter
    have hbuild : s!"FindINTEROP-{assemblyName}.cmake".toList.getLast? = some 'e' := by
      rw [String.toList_append, List.getLast?_append]
      rfl
    refine ⟨[stem.sibling s!"FindINTEROP-{assemblyName}.cmake"], ?_, .inr ⟨rfl, _, rfl, Path.getLast?_sibling hbuild⟩⟩
    rw [List.map_append, List.map_flatMap, hclasses, List.flatMap_map, List.map_flatMap]
    rfl
  | coreLibrary =>
    cases h
    refine ⟨[], ?_, .inl rfl⟩
    rw [List.map_map, List.append_nil, List.flatMap_map, List.map_flatMap]
    exact List.map_eq_flatMap

/-- The paths of a rendering: all behind one stem, but for the build module of a library. -/
theorem artifacts_paths {skeleton : Skeleton} (h : a.render options = .ok skeleton) :
    ∃ fileName plans rest, options.fileName = .ok fileName ∧ a.plan options.policy = .ok plans ∧
      skeleton.artifacts.map Artifact.path = (options.mode.allEndings (boundClasses plans)).map
        (options.path.sibling fileName).extended ++ rest ∧
      (rest = [] ∨ options.mode = .interop ∧ ∃ q : Path, rest = [q] ∧ q.text.toList.getLast? = some 'e') := by
  obtain ⟨fileName, assemblyName, project, plans, text, others, stem, hfile, rfl, -, -, hplans, -, hothers, rfl⟩ :=
    render_ok_iff.1 h
  obtain ⟨rest, hpaths, hrest⟩ := otherArtifacts_paths hothers
  refine ⟨fileName, plans, rest, hfile, hplans, ?_, hrest⟩
  rw [List.map_cons, List.map_cons, hpaths]
  rfl

theorem pairwise_paths_iff {skeleton : Skeleton} {plans : List TypePlan} (h : a.render options = .ok skeleton)
    (hplans : a.plan options.policy = .ok plans) :
    skeleton.artifacts.Pairwise (fun p q => p.path.same q.path = false) ↔
      (boundClasses plans).Pairwise fun c d => options.mode.Apart (Text.squeeze c.toList) (Text.squeeze d.toList) := by
  obtain ⟨fileName, plans', rest, hfile, hplans', hpaths, hrest⟩ := artifacts_paths h
  cases hplans.symm.trans hplans'
  obtain ⟨front, hfront, hstem⟩ := options.path.exists_sibling fileName
  have hiff := Path.pairwise_allEndings_iff options.mode hstem hfront
    (GeneratorOptions.fileName_ok hfile) (Image.boundClasses_plain hplans)
  rw [← List.pairwise_map (f := Artifact.path) (R := fun p q => p.same q = false), hpaths, List.pairwise_append, hiff]
  refine and_iff_left_of_imp fun _ => ⟨?_, fun p hp q hq => ?_⟩
  · rcases hrest with rfl | ⟨-, q, rfl, -⟩
    · exact .nil
    · exact List.pairwise_singleton _ q
  · obtain ⟨ending, hending, rfl⟩ := List.mem_map.1 hp
    rcases hrest with rfl | ⟨-, _, rfl, hlast⟩
    · cases hq
    · obtain rfl := List.mem_singleton.1 hq
      rcases GenerationMode.getLast?_of_mem_allEndings hending with h | h
      · exact Path.not_same_of_getLast? (Path.getLast?_extended h) hlast (by decide) (by decide) (by decide)
      · exact Path.not_same_of_getLast? (Path.getLast?_extended h) hlast (by decide) (by decide) (by decide)

/-- No artifact takes the place of another exactly where the names of the classes keep their files apart, and
no handler stands in two slots where no name can be mistaken for another. -/
theorem artifacts_apart {skeleton : Skeleton} (h : a.render options = .ok skeleton) :
    ∃ (fileName project assemblyName : String) (plans : List TypePlan) (entries : List (Option Handler))
      (artifact : Artifact), options.fileName = .ok fileName ∧ options.project = .ok project ∧
      a.name? = some assemblyName ∧ a.plan options.policy = .ok plans ∧
      (List.range a.typeCount).mapM (a.className .identifier) = .ok (plans.map TypePlan.className) ∧
      (skeleton.artifacts.Pairwise (fun p q => p.path.same q.path = false) ↔
        (boundClasses plans).Pairwise fun c d =>
          options.mode.Apart (Text.squeeze c.toList) (Text.squeeze d.toList)) ∧
      skeleton.artifact? .lookup = some artifact ∧
      artifact.contents = a.lookupFrame options.mode fileName project assemblyName skeleton.checksum
        (String.join (entries.map (Wording.slot fileName))) ∧
      entries = slots plans ∧
      ((boundClasses plans).Pairwise LookupTable.Apart →
        ((entries.filterMap id).map fun handler => Wording.slot fileName (some handler)).Nodup) := by
  obtain ⟨fileName, assemblyName, project, plans, artifact, hfile, hproject, hname, hplans, hchecksum, hlookup,
    htext⟩ := render_ok h
  obtain ⟨hlen, hof⟩ := Image.plan_ok hplans
  refine ⟨fileName, project, assemblyName, plans, slots plans, artifact, hfile, hproject, hname, hplans, ?_,
    pairwise_paths_iff h hplans, hlookup, ?_, rfl, fun hapart => Image.nodup_slots hplans hapart fileName⟩
  · refine mapM_range_eq_ok.2 ⟨by rw [List.length_map, hlen], fun index hindex => ?_⟩
    rw [List.length_map] at hindex
    rw [List.getElem_map]
    exact (hof index hindex).className
  · rw [htext, lookupTable_text, hchecksum]

end Assembly

namespace Draft

/-- Two classes with three handlers between them. -/
theorem artifacts_apart_home :
    ∃ (skeleton : Skeleton) (lines : List String), home.render homeOptions = .ok skeleton ∧
      boundClasses homePlans = ["Lamp", "Studio_Hub"] ∧
      skeleton.artifacts.Pairwise (fun p q => p.path.same q.path = false) ∧
      lines = ["    Library_Home_Lamp::Dim___VOID__U1,\n", "    Library_Home_Lamp::On___STATIC__VOID,\n",
        "    Library_Home_Studio_Hub::Find___STATIC__I4,\n"] ∧ lines.Nodup := by
  obtain ⟨skeleton, hrender⟩ := render_home
  obtain ⟨fileName, project, assemblyName, plans, entries, artifact, hfile, -, -, hplans, -, hpaths, -, -, rfl,
    hlines⟩ := Assembly.artifacts_apart hrender
  cases plan_home.symm.trans hplans
  cases fileName_home.symm.trans hfile
  have hbound : boundClasses homePlans = ["Lamp", "Studio_Hub"] := by decide +kernel
  rw [hbound] at hpaths hlines
  have hpair : ["Lamp", "Studio_Hub"].Pairwise LookupTable.Apart :=
    List.pairwise_pair.2 ⟨by decide, by decide, by decide⟩
  refine ⟨skeleton, _, hrender, hbound, hpaths.2 (List.pairwise_pair.2 ⟨by decide, nofun⟩), ?_, hlines hpair⟩
  decide +kernel

def twinHeader : Header where
  headerCrc := 3235350817
  assemblyCrc := 4224596025
  flags := 0
  nativeChecksum := 0
  patchEntryOffset := 0xFFFFFFFF
  version := .zero
  assemblyName := 11
  stringTableVersion := 1
  starts := #v[124, 124, 124, 124, 124, 172, 172, 204, 204, 204, 204, 204, 220, 224, 224, 224]
  patchedMethodCount := 0
  paddings := #v[0, 0, 0, 0, 0, 0, 0, 0, 0, 0, 0, 0, 1, 0, 0, 0]

/-- A type `B` in a namespace `A` beside a type `A_B`, each with a native method. -/
def twinImage : Bytes := (twinHeader.encode ++
  [3, 0, 5, 0, 255, 255, 255, 255, 0, 0, 255, 255, 0, 0, 0, 0, 1, 17, 0, 0, 0, 0, 0, 0,
    7, 0, 255, 255, 255, 255, 255, 255, 0, 0, 255, 255, 1, 0, 0, 0, 1, 17, 0, 0, 0, 0, 0, 0,
    0, 0, 255, 255, 16, 0, 0, 0, 0, 0, 0, 0, 255, 255, 0, 0,
    0, 0, 255, 255, 16, 0, 0, 0, 0, 0, 0, 0, 255, 255, 0, 0,
    79, 110, 0, 66, 0, 65, 0, 65, 95, 66, 0, 72, 111, 109, 101, 0, 0, 0, 0, 0]).toArray

def twins : Assembly where
  toImage := Image.view twinImage twinHeader
  owners := ⟨#[], #[some 0, some 1]⟩
  fieldOffsets := #[]

theorem load_twins : Assembly.load .bare twinImage = .ok twins :=
  Assembly.load_encode rfl (by decide +kernel) (by decide +kernel) (by decide +kernel)

def twinPlans : List TypePlan :=
  [⟨0, ⟨3, 5, 0xFFFF, 0xFFFF, ⟨0⟩, 0xFFFF, 0, 0, 0, 1, 17, 0, 0, 0, 0⟩, "A_B",
      [⟨⟨0, 0xFFFF, ⟨16⟩, 0, 0, 0, 0, 0xFFFF, 0⟩, some ⟨"On___STATIC__VOID", ⟨false, .primitive .void, []⟩⟩⟩]⟩,
    ⟨1, ⟨7, 0xFFFF, 0xFFFF, 0xFFFF, ⟨0⟩, 0xFFFF, 1, 0, 0, 1, 17, 0, 0, 0, 0⟩, "A_B",
      [⟨⟨0, 0xFFFF, ⟨16⟩, 0, 0, 0, 0, 0xFFFF, 0⟩, some ⟨"On___STATIC__VOID", ⟨false, .primitive .void, []⟩⟩⟩]⟩]

set_option maxRecDepth 4000 in
theorem plan_twins : twins.plan .plain = .ok twinPlans := by cbv

theorem render_twins : ∃ skeleton, twins.render homeOptions = .ok skeleton := by
  have hname : twins.name? = some "Home" := by decide +kernel
  have hblocks : twins.headerBlocks 0 twinPlans = .ok
      [⟨"A_B", [], [], ["On___STATIC__VOID"]⟩, ⟨"A_B", [], [], ["On___STATIC__VOID"]⟩] := by
    decide +kernel
  exact Assembly.exists_render rfl fileName_home hname plan_twins project_home hblocks

/-- Dots that become underscores can make two names one, and their files and handlers with them. -/
theorem artifacts_collide_twins :
    ∃ skeleton, Assembly.load .bare twinImage = .ok twins ∧
      (List.range twins.typeCount).mapM (twins.className .dotted) = .ok ["A.B", "A_B"] ∧
      twins.render homeOptions = .ok skeleton ∧ twins.plan homeOptions.policy = .ok twinPlans ∧
      skeleton.artifacts.map Artifact.path = [⟨"Home.h"⟩, ⟨"Home.cpp"⟩, ⟨"Home_A_B.cpp"⟩, ⟨"Home_A_B.cpp"⟩] ∧
      ((slots twinPlans).filterMap id).map (fun handler => Wording.slot "Home" (some handler)) =
        ["    Library_Home_A_B::On___STATIC__VOID,\n", "    Library_Home_A_B::On___STATIC__VOID,\n"] := by
  obtain ⟨skeleton, hrender⟩ := render_twins
  obtain ⟨fileName, plans, rest, hfile, hplans, hpaths, hrest⟩ := Assembly.artifacts_paths hrender
  cases plan_twins.symm.trans hplans
  cases fileName_home.symm.trans hfile
  obtain rfl : rest = [] := hrest.resolve_right fun h => by cases h.1
  have hendings :
      (homeOptions.mode.allEndings (boundClasses twinPlans)).map (homeOptions.path.sibling "Home").extended =
        [⟨"Home.h"⟩, ⟨"Home.cpp"⟩, ⟨"Home_A_B.cpp"⟩, ⟨"Home_A_B.cpp"⟩] := by decide +kernel
  rw [hendings, List.append_nil] at hpaths
  exact ⟨skeleton, load_twins, by decide +kernel, hrender, plan_twins, hpaths, by decide +kernel⟩

end Draft

end CompactAssembly
