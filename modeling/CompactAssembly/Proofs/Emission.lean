import CompactAssembly.Proofs.Blocks
import CompactAssembly.Proofs.Lookup

/-!
# All artifacts bind the same native methods

Header, lookup table and the files of single types are written by different walks over one plan. An
`Emission` gathers what they hold of one type; a rendering is made of one for each type in table order
(`exists_emissions`), and each holds the identifiers of the type in the order of its methods.
-/

namespace CompactAssembly

/-- The files of a class: none if it has no native methods. Else one of them, marshaling code or source of
the mode, defines each native method in turn. -/
def Artifact.Binds (options : GeneratorOptions) (fileName : String) (stem : Path) (className : String)
    (identifiers : List String) (files : List Artifact) : Prop :=
  (identifiers = [] ∧ files = []) ∨ identifiers ≠ [] ∧
    match options.mode with
    | .interop => ∃ u : StubUnit, u.stubs.map (fun (native, _) => native.identifier) = identifiers ∧ files = [
        ⟨.marshal, stem.extended ("_" ++ className ++ "_mshl.cpp"),
          keepOutBanner ++ "#include \"" ++ fileName ++ ".h\"\n#include \"" ++ fileName ++ "_" ++ className ++
            ".h\"\n\n" ++ u.usingNamespace ++ String.join (u.stubs.map fun (native, stub) =>
              Wording.definition fileName className native.identifier (stub.marshalBody u.structName))⟩,
        ⟨.stubHeader, stem.extended ("_" ++ className ++ ".h"),
          u.headerText fileName (Naming.headerGuard (stem.extended ("_" ++ className ++ ".h")))⟩,
        ⟨.stubSource, stem.extended ("_" ++ className ++ ".cpp"), u.sourceText fileName⟩]
    | .coreLibrary => ∃ project, options.project = .ok project ∧ files = [
        ⟨.librarySource, stem.extended ("_" ++ className ++ ".cpp"),
          copyFirstBanner ++ "\n#include \"" ++ String.ofList (project.toList.map Char.toLower) ++ ".h\"\n\n" ++
            String.join (identifiers.map fun identifier =>
              Wording.definition fileName className identifier Wording.notImplemented)⟩]

namespace TypePlan
variable {image : Image} {index : Nat} {plan : TypePlan}

theorem identifiers_eq_nil_iff : plan.identifiers = [] ↔ plan.natives = [] := by
  rw [← map_natives, List.map_eq_nil_iff]

theorem filterMap_slots (plan : TypePlan) :
    (plan.methods.map plan.slot).filterMap id = plan.identifiers.map (Handler.mk plan.className) := by
  rw [List.filterMap_map, identifiers, List.map_filterMap]
  exact congrArg (List.filterMap · plan.methods) (funext plan.slot_eq)

theorem Of.identifiers_eq_nil (h : plan.Of image index) (hplan : plan.eligible = false) :
    plan.identifiers = [] := by
  refine List.filterMap_eq_nil_iff.2 fun m hm => ?_
  obtain ⟨i, hi, rfl⟩ := List.getElem_of_mem hm
  have hi' : i < plan.record.methods.toList.length := h.methods.length_eq ▸ hi
  have hnative := (h.methods.get hi' hi).native
  rw [hplan, Bool.false_and, Option.isSome_eq_false_iff, Option.isNone_iff_eq_none] at hnative
  exact Option.map_eq_none_iff.2 hnative

end TypePlan

/-- What the artifacts hold of one type. -/
structure Emission where
  /-- Its block of the header. -/
  block : String
  /-- Its entries of the lookup table. -/
  entries : List (Option Handler)
  /-- Its own files. -/
  files : List Artifact

/-- Lists along the types make one emission for each. -/
theorem exists_emissions {P : TypePlan → String → Prop} {Q : TypePlan → List Artifact → Prop}
    {plans : List TypePlan} {blocks : List String} {files : List (List Artifact)}
    (hblocks : List.Forall₂ P plans blocks) (hfiles : List.Forall₂ Q plans files) :
    ∃ emissions : List Emission, emissions.map Emission.block = blocks ∧
      emissions.flatMap Emission.entries = slots plans ∧ emissions.flatMap Emission.files = files.flatten ∧
      List.Forall₂ (fun plan e => P plan e.block ∧ e.entries = plan.methods.map plan.slot ∧ Q plan e.files)
        plans emissions := by
  induction hblocks generalizing files with
  | nil =>
    cases hfiles
    exact ⟨[], rfl, rfl, rfl, .nil⟩
  | @cons plan block plans blocks hblock _ ih =>
    obtain ⟨own, others, hown, hothers, rfl⟩ := List.forall₂_cons_left_iff.1 hfiles
    obtain ⟨emissions, rfl, hentries, hflat, hall⟩ := ih hothers
    refine ⟨⟨block, plan.methods.map plan.slot, own⟩ :: emissions, rfl, ?_, ?_, .cons ⟨hblock, rfl, hown⟩ hall⟩
    · rw [List.flatMap_cons, hentries]
      rfl
    · rw [List.flatMap_cons, hflat, List.flatten_cons]

theorem StubUnit.Of.identifiers {a : Assembly} {policy : NamingPolicy} {plan : TypePlan} {u : StubUnit}
    (h : u.Of a policy plan) : u.stubs.map (fun (native, _) => native.identifier) = plan.identifiers := by
  rw [← plan.map_natives, ← List.forall₂_eq_eq_eq, List.forall₂_map_left_iff, List.forall₂_map_right_iff]
  exact (h.stubs.imp fun x y hxy => congrArg NativeMethod.identifier hxy.1).flip

namespace Assembly
variable {a : Assembly} {options : GeneratorOptions}

theorem stubUnit_ok {policy : NamingPolicy} {plan : TypePlan} {u : StubUnit} (h : a.stubUnit policy plan = .ok u) :
    u.className = plan.className ∧ u.stubs.map (fun (native, _) => native.identifier) = plan.identifiers :=
  ⟨(of_stubUnit h).className, (of_stubUnit h).identifiers⟩

theorem binds_stubUnit {policy : NamingPolicy} {plan : TypePlan} {u : StubUnit} (hmode : options.mode = .interop)
    (hplan : plan.identifiers ≠ []) (h : a.stubUnit policy plan = .ok u) (fileName : String) (stem : Path) :
    Artifact.Binds options fileName stem plan.className plan.identifiers (u.artifacts fileName stem) := by
  obtain ⟨hclass, hstubs⟩ := stubUnit_ok h
  refine .inr ⟨hplan, ?_⟩
  rw [hmode]
  refine ⟨u, hstubs, ?_⟩
  rw [← hclass]
  simp only [StubUnit.artifacts, StubUnit.marshalText, StubUnit.includes, Artifact.methodDefinition_eq,
    Text.toString_text, String.append_assoc]

theorem binds_libraryArtifact {plan : TypePlan} {project : String} (hmode : options.mode = .coreLibrary)
    (hproject : options.project = .ok project) (hplan : plan.identifiers ≠ []) (fileName : String) (stem : Path) :
    Artifact.Binds options fileName stem plan.className plan.identifiers
      [plan.libraryArtifact fileName project stem] := by
  refine .inr ⟨hplan, ?_⟩
  rw [hmode]
  refine ⟨project, hproject, ?_⟩
  rw [← plan.map_natives, List.map_map]
  simp only [TypePlan.libraryArtifact, Artifact.methodDefinition_eq, Text.toString_text, String.append_assoc]
  rfl

/-- The artifacts behind the lookup table, beside all types. -/
theorem otherArtifacts_ok {fileName project assemblyName : String} {stem : Path} {lookup : Artifact}
    {plans : List TypePlan} {others : List Artifact}
    (hproject : options.project = .ok project) (h : a.otherArtifacts options fileName project assemblyName stem lookup
      (plans.filter fun plan => !plan.natives.isEmpty) = .ok others) :
    ∃ files rest, others = List.flatten files ++ rest ∧
      rest.map Artifact.kind = (match options.mode with
        | .interop => [.buildModule]
        | .coreLibrary => []) ∧
      List.Forall₂ (fun plan own =>
        Artifact.Binds options fileName stem plan.className plan.identifiers own) plans files := by
  have hnone : ∀ plan : TypePlan, (!plan.natives.isEmpty) = false → plan.identifiers = [] := by
    intro plan hplan
    rw [Bool.not_eq_false', List.isEmpty_iff] at hplan
    exact TypePlan.identifiers_eq_nil_iff.2 hplan
  have hsome : ∀ plan : TypePlan, (!plan.natives.isEmpty) = true → plan.identifiers ≠ [] := by
    intro plan hplan hids
    rw [Bool.not_eq_true', TypePlan.identifiers_eq_nil_iff.1 hids] at hplan
    cases hplan
  unfold otherArtifacts at h
  cases hmode : options.mode with
  | interop =>
    rw [hmode] at h
    obtain ⟨units, hunits, rfl⟩ := libraryArtifacts_ok_iff.1 h
    -- only types with native methods have a unit: each of the others gets an empty part
    obtain ⟨parts, rfl, hparts⟩ := exists_flatten_of_filter (mapM_eq_ok.1 hunits)
    refine ⟨parts.map fun part => part.flatMap fun u => u.artifacts fileName stem,
      [buildModule assemblyName stem (lookup :: parts.flatten.flatMap fun u => u.artifacts fileName stem)],
      ?_, rfl, ?_⟩
    · rw [List.flatMap_def, List.map_flatten, List.flatten_flatten, List.map_map]
      rfl
    · rw [List.forall₂_map_right_iff]
      refine hparts.imp fun plan part hpart => ?_
      rcases hpart with ⟨hp, u, hu, rfl⟩ | ⟨hp, rfl⟩
      · rw [List.flatMap_singleton]
        exact binds_stubUnit hmode (hsome plan hp) hu fileName stem
      · exact .inl ⟨hnone plan hp, rfl⟩
  | coreLibrary =>
    rw [hmode] at h
    cases h
    have hfiles : List.Forall₂ (fun plan file => plan.libraryArtifact fileName project stem = file)
        (plans.filter fun plan => !plan.natives.isEmpty)
        ((plans.filter fun plan => !plan.natives.isEmpty).map fun plan =>
          plan.libraryArtifact fileName project stem) := by
      rw [List.forall₂_map_right_iff, List.forall₂_same]
      exact fun plan _ => rfl
    obtain ⟨files, hflat, hall⟩ := exists_flatten_of_filter hfiles
    refine ⟨files, [], by rw [hflat, List.append_nil], rfl, hall.imp fun plan own hown => ?_⟩
    rcases hown with ⟨hp, file, rfl, rfl⟩ | ⟨hp, rfl⟩
    · exact binds_libraryArtifact hmode hproject (hsome plan hp) fileName stem
    · exact .inl ⟨hnone plan hp, rfl⟩

/-- What the artifacts hold of the type at an index: in its block, its entries and its files the same native
methods in the same order, one for each method without body that is not abstract if the type is a class or a
value type. -/
structure Emits (a : Assembly) (options : GeneratorOptions) (fileName : String) (stem : Path) (index : Nat)
    (record : TypeDef) (className : String) (identifiers : List String) (e : Emission) : Prop where
  type : a.get TypeDef index = .ok record
  name : a.className .identifier index = .ok className
  methods : List.Forall₂ (fun method entry => ∃ m, a.get MethodDef method = .ok m ∧
    (entry.isSome = true ↔
      (record.isDelegate = false ∧ (record.semantics = .classType ∨ record.semantics = .valueType)) ∧
        m.hasBody = false ∧ m.isAbstract = false)) record.methods.toList e.entries
  entries : e.entries.filterMap id = identifiers.map (Handler.mk className)
  block : (record.isDelegate = false ∧ (record.semantics = .classType ∨ record.semantics = .valueType)) ∧
    ¬ IsDetail className → ∃ statics, HeaderBlock.Declares a fileName className record statics identifiers e.block
  /-- The header leaves out all other types and what a compiler made up for its own data. -/
  hidden : ¬ ((record.isDelegate = false ∧ (record.semantics = .classType ∨ record.semantics = .valueType)) ∧
    ¬ IsDetail className) → e.block = ""
  files : Artifact.Binds options fileName stem className identifiers e.files
  ineligible : record.isDelegate = true ∨ record.semantics = .interface ∨ record.semantics = .enumeration →
    identifiers = []
  nodup : identifiers.Nodup

theorem emits_of_plan {fileName : String} {stem : Path} {index : Nat} {plan : TypePlan} {e : Emission}
    (h : plan.Of a.toImage index) (hnodup : plan.identifiers.Nodup)
    (hshown : plan.eligible = true ∧ ¬ IsDetail plan.className →
      ∃ statics, HeaderBlock.Declares a fileName plan.className plan.record statics plan.identifiers e.block)
    (hhidden : ¬ (plan.eligible = true ∧ ¬ IsDetail plan.className) → e.block = "")
    (hentries : e.entries = plan.methods.map plan.slot)
    (hfiles : Artifact.Binds options fileName stem plan.className plan.identifiers e.files) :
    a.Emits options fileName stem index plan.record plan.className plan.identifiers e where
  type := h.record
  name := h.className
  methods := by
    rw [hentries, List.forall₂_map_right_iff]
    refine h.methods.imp fun method m hm => ⟨m.record, hm.record, ?_⟩
    rw [TypePlan.slot, Option.isSome_map, hm.native, TypePlan.eligible, MethodDef.isEligible, Bool.and_eq_true,
      TypeDef.isEligible_iff, Bool.and_eq_true, Bool.not_eq_true', Bool.not_eq_true']
  entries := by rw [hentries, plan.filterMap_slots]
  block := by rwa [TypePlan.eligible, TypeDef.isEligible_iff] at hshown
  hidden := by rwa [TypePlan.eligible, TypeDef.isEligible_iff] at hhidden
  files := hfiles
  ineligible := by
    intro hkind
    refine h.identifiers_eq_nil (Bool.eq_false_iff.2 fun heligible => ?_)
    obtain ⟨hdelegate, hsemantics⟩ := TypeDef.isEligible_iff.1 heligible
    rcases hkind with hkind | hkind | hkind
    · cases hdelegate.symm.trans hkind
    · rw [hkind] at hsemantics
      rcases hsemantics with h | h <;> cases h
    · rw [hkind] at hsemantics
      rcases hsemantics with h | h <;> cases h
  nodup := hnodup

/-- Whatever is rendered is made of one emission for each type in table order: the header of their blocks,
the lookup table of their entries, and behind both their files. -/
theorem artifacts_bind_alike {skeleton : Skeleton} (h : a.render options = .ok skeleton) :
    ∃ (fileName project assemblyName : String) (stem : Path) (emissions : List Emission) (rest : List Artifact),
      options.fileName = .ok fileName ∧ options.stem = .ok stem ∧ options.project = .ok project ∧
      a.name? = some assemblyName ∧
      skeleton.artifacts =
        ⟨.header, stem.extended ".h", headerFrame options.mode (Naming.headerGuard (stem.extended ".h"))
          (Text.replaceChar '.' '_' assemblyName) (String.join (emissions.map Emission.block))⟩ ::
        ⟨.lookup, stem.extended ".cpp", a.lookupFrame options.mode fileName project assemblyName skeleton.checksum
          (String.join ((emissions.flatMap Emission.entries).map (Wording.slot fileName)))⟩ ::
        (emissions.flatMap Emission.files ++ rest) ∧
      rest.map Artifact.kind = (match options.mode with
        | .interop => [.buildModule]
        | .coreLibrary => []) ∧
      emissions.length = a.typeCount ∧
      ∀ (index : Nat) e, emissions[index]? = some e → ∃ record className identifiers,
        a.Emits options fileName stem index record className identifiers e := by
  obtain ⟨fileName, assemblyName, project, plans, text, others, stem, hfile, rfl, hname, hproject, hplans, htext,
    hothers, rfl⟩ := render_ok_iff.1 h
  obtain ⟨hlen, hof⟩ := Image.plan_ok hplans
  obtain ⟨headerBlocks, hheader, rfl⟩ := headerText_ok_iff.1 htext
  obtain ⟨blocks, hblocks, hjoin⟩ := exists_blocks hheader fileName
  obtain ⟨files, rest, rfl, hrest, hfiles⟩ := otherArtifacts_ok hproject hothers
  obtain ⟨emissions, htexts, hentries, hflat, hall⟩ := exists_emissions hblocks.texts hfiles
  refine ⟨fileName, project, assemblyName, _, emissions, rest, hfile, stem_eq hfile, hproject, hname, ?_, hrest,
    hall.length_eq.symm.trans hlen, fun index e he => ?_⟩
  · rw [hjoin, lookupTable_text, ← htexts, ← hentries, hflat]
  · obtain ⟨hindex, rfl⟩ := List.getElem?_eq_some_iff.1 he
    have hindex' : index < plans.length := hall.length_eq ▸ hindex
    obtain ⟨⟨hshown, hhidden⟩, hslots, hbinds⟩ := hall.get hindex' hindex
    have hnodup := Image.nodup_identifiers hplans (List.getElem_mem hindex')
    exact ⟨_, _, _, emits_of_plan (hof index hindex') hnodup hshown hhidden hslots hbinds⟩

/-- Whether a method is bound natively in a type. -/
def isNative (a : Assembly) (record : TypeDef) (method : Nat) : Bool :=
  match a.get MethodDef method with
  | .ok m => record.isEligible && m.isEligible
  | .error _ => false

theorem Emits.length_identifiers {fileName className : String} {stem : Path} {index : Nat} {record : TypeDef}
    {identifiers : List String} {e : Emission}
    (h : a.Emits options fileName stem index record className identifiers e) :
    identifiers.length = record.methods.toList.countP (a.isNative record) := by
  have hcount : ∀ {methods : List Nat} {entries : List (Option Handler)},
      List.Forall₂ (fun method entry => entry.isSome = a.isNative record method) methods entries →
        (entries.filterMap id).length = methods.countP (a.isNative record) := by
    intro methods entries h
    induction h with
    | nil => rfl
    | @cons method entry methods entries hentry _ ih =>
      cases entry with
      | none => rw [List.filterMap_cons_none rfl, ih, List.countP_cons_of_neg (by rw [← hentry]; nofun)]
      | some handler =>
        rw [List.filterMap_cons_some (f := id) rfl, List.length_cons, ih, List.countP_cons_of_pos hentry.symm]
  rw [← List.length_map (Handler.mk className), ← h.entries]
  refine hcount (h.methods.imp fun method entry hentry => ?_)
  obtain ⟨m, hm, hsome⟩ := hentry
  rw [isNative, hm, Bool.eq_iff_iff, hsome, Bool.and_eq_true, TypeDef.isEligible_iff, MethodDef.isEligible,
    Bool.and_eq_true, Bool.not_eq_true', Bool.not_eq_true']

/-- A class with two native methods, an interface, and a class with one: two files behind header and table. -/
theorem artifacts_bind_alike_home :
    ∃ skeleton e₀ e₁ e₂ identifiers identifiers', Draft.home.render Draft.homeOptions = .ok skeleton ∧
      skeleton.artifacts.drop 2 = Emission.files e₀ ++ Emission.files e₂ ∧
      Draft.home.Emits Draft.homeOptions "Home" (Draft.homeOptions.path.sibling "Home") 0 Draft.homePlans[0].record
        "Lamp" identifiers e₀ ∧ identifiers.length = 2 ∧
      Draft.home.Emits Draft.homeOptions "Home" (Draft.homeOptions.path.sibling "Home") 1 Draft.homePlans[1].record
        "Switch" [] e₁ ∧
      Draft.home.Emits Draft.homeOptions "Home" (Draft.homeOptions.path.sibling "Home") 2 Draft.homePlans[2].record
        "Studio_Hub" identifiers' e₂ ∧ identifiers'.length = 1 := by
  obtain ⟨skeleton, hrender⟩ := Draft.render_home
  obtain ⟨fileName, project, assemblyName, stem, emissions, rest, hfile, hstem, -, -, hartifacts, hrest, hlength,
    hemits⟩ := artifacts_bind_alike hrender
  cases Draft.fileName_home.symm.trans hfile
  cases (stem_eq hfile).symm.trans hstem
  obtain rfl : rest = [] := List.map_eq_nil_iff.1 hrest
  obtain ⟨e₀, e₁, e₂, rfl⟩ := List.length_eq_three.1 (hlength.trans Draft.counts_home.1)
  obtain ⟨record, className, identifiers, h₀⟩ := hemits 0 e₀ rfl
  have hlamp := Draft.of_home (i := 0) (by decide)
  cases hlamp.record.symm.trans h₀.type
  cases hlamp.className.symm.trans h₀.name
  obtain ⟨record, className, none, h₁⟩ := hemits 1 e₁ rfl
  have hswitch := Draft.of_home (i := 1) (by decide)
  cases hswitch.record.symm.trans h₁.type
  cases hswitch.className.symm.trans h₁.name
  obtain ⟨record, className, identifiers', h₂⟩ := hemits 2 e₂ rfl
  have hhub := Draft.of_home (i := 2) (by decide)
  cases hhub.record.symm.trans h₂.type
  cases hhub.className.symm.trans h₂.name
  obtain rfl := h₁.ineligible (.inr (.inl (by decide)))
  have hfiles : e₁.files = [] := h₁.files.elim And.right fun hbound => absurd rfl hbound.1
  refine ⟨skeleton, e₀, e₁, e₂, identifiers, identifiers', hrender, ?_, h₀, ?_, h₁, h₂, ?_⟩
  · rw [hartifacts]
    simp only [List.flatMap_cons, List.flatMap_nil, List.append_nil, hfiles, List.nil_append]
    rfl
  · exact h₀.length_identifiers.trans (by decide +kernel)
  · exact h₂.length_identifiers.trans (by decide +kernel)

end Assembly

end CompactAssembly
