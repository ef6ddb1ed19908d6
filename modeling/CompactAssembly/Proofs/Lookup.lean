import CompactAssembly.Proofs.Distinct
import CompactAssembly.Proofs.Skeletons
import CompactAssembly.Proofs.ImageLayout
import CompactAssembly.Proofs.Tiling
import CompactAssembly.Proofs.Wording

/-!
# The lookup table binds by position

The runtime finds the handler of a method by the method's position, while the table is written type by
type. Both agree where the ranges of the types run through the method table in order, which they do in
every image of a draft whose type definitions succeeded.
-/

namespace CompactAssembly

namespace Assembly
variable {a : Assembly} {options : GeneratorOptions} {skeleton : Skeleton}

/-- What a rendered skeleton is made of: checksum and table follow one plan. -/
theorem render_ok (h : a.render options = .ok skeleton) :
    ∃ fileName assemblyName project plans artifact, options.fileName = .ok fileName ∧
      options.project = .ok project ∧ a.name? = some assemblyName ∧ a.plan options.policy = .ok plans ∧
      skeleton.checksum = nativeChecksum plans assemblyName ∧ skeleton.artifact? .lookup = some artifact ∧
      artifact.contents = (a.lookupTable options.mode fileName project assemblyName plans).text := by
  obtain ⟨fileName, assemblyName, project, plans, text, others, stem, hfile, -, hname, hproject, hplans, -, -, rfl⟩ :=
    render_ok_iff.1 h
  exact ⟨fileName, assemblyName, project, plans, _, hfile, hproject, hname, hplans, rfl, rfl, rfl⟩

/-- The file of a lookup table with these lines: its banner, its include and its version go by the mode. -/
def lookupFrame (a : Assembly) (mode : GenerationMode) (fileName project assemblyName : String) (checksum : UInt32)
    (lines : String) : String :=
  match mode with
  | .interop => Wording.lookup Artifact.keepOutBanner (fileName ++ ".h") (Text.replaceChar '.' '_' assemblyName)
      assemblyName checksum a.header.version lines
  | .coreLibrary => Wording.lookup "" (project ++ ".h") (Text.replaceChar '.' '_' assemblyName) assemblyName checksum
      .zero lines

theorem lookupTable_text (mode : GenerationMode) (fileName project assemblyName : String) (plans : List TypePlan) :
    (a.lookupTable mode fileName project assemblyName plans).text =
      a.lookupFrame mode fileName project assemblyName (nativeChecksum plans assemblyName)
        (String.join ((slots plans).map (Wording.slot fileName))) := by
  rw [LookupTable.text_eq]
  cases mode <;> rfl

theorem exists_render {fileName name project : String} {plans : List TypePlan}
    {blocks : List HeaderBlock} (hmode : options.mode = .coreLibrary)
    (hfile : options.fileName = .ok fileName) (hname : a.name? = some name)
    (hplan : a.plan options.policy = .ok plans) (hproject : options.project = .ok project)
    (hblocks : a.headerBlocks 0 plans = .ok blocks) : ∃ skeleton, a.render options = .ok skeleton := by
  have hothers : ∀ stem lookup plans, a.otherArtifacts options fileName project name stem lookup plans =
      .ok (plans.map fun plan => plan.libraryArtifact fileName project stem) := by
    intro stem lookup plans
    rw [otherArtifacts, hmode]
  exact ⟨_, render_ok_iff.2 ⟨fileName, name, project, plans, _, _, _, hfile, rfl, hname, hproject, hplan,
    headerText_ok_iff.2 ⟨blocks, hblocks, rfl⟩, hothers _ _ _, rfl⟩⟩

/-- The entry of the lookup table at a position is that of the method there: the owner's class and the
planned identifier if both are eligible, else nothing. -/
def Binds (a : Assembly) (plans : List TypePlan) (position : Nat) (entry : Option Handler) : Prop :=
  ∃ (owner : UInt16) (plan : TypePlan) (m : MethodPlan), a.methodOwner? position = some owner ∧
    plans[owner.toNat]? = some plan ∧ plan.Of a.toImage owner.toNat ∧ position ∈ plan.record.methods ∧
    plan.methods[position - plan.record.methods.first]? = some m ∧ a.get MethodDef position = .ok m.record ∧
    (entry.isSome ↔ plan.record.isEligible ∧ m.record.hasBody = false ∧ m.record.isAbstract = false) ∧
    ∀ handler, entry = some handler → handler.className = plan.className ∧
      m.native?.map NativeMethod.identifier = some handler.identifier

/-- The entry at a position is the one handler of the method there. -/
theorem Binds.entry_eq {plans : List TypePlan} {position : Nat} {entry : Option Handler} {owner : UInt16}
    {plan : TypePlan} {m : MethodPlan} (h : a.Binds plans position entry)
    (howner : a.methodOwner? position = some owner) (hplan : plans[owner.toNat]? = some plan)
    (hm : plan.methods[position - plan.record.methods.first]? = some m) :
    entry = if plan.record.isEligible ∧ m.record.hasBody = false ∧ m.record.isAbstract = false then
      m.native?.map fun native => ⟨plan.className, native.identifier⟩ else none := by
  obtain ⟨owner', plan', m', howner', hplan', -, -, hm', -, hsome, hhandler⟩ := h
  cases howner.symm.trans howner'
  cases hplan.symm.trans hplan'
  cases hm.symm.trans hm'
  split
  · next heligible =>
    obtain ⟨handler, rfl⟩ := Option.isSome_iff_exists.1 (hsome.2 heligible)
    obtain ⟨hclass, hidentifier⟩ := hhandler handler rfl
    obtain ⟨native, hnative, hname⟩ := Option.map_eq_some_iff.1 hidentifier
    rw [hnative, Option.map_some, hname, ← hclass]
  · next heligible => exact Option.not_isSome_iff_eq_none.1 (mt hsome.1 heligible)

theorem binds_slot {plans : List TypePlan} {position : Nat} {owner : UInt16} {plan : TypePlan}
    {m : MethodPlan} (howner : a.methodOwner? position = some owner)
    (hplan : plans[owner.toNat]? = some plan) (hof : plan.Of a.toImage owner.toNat)
    (hmem : position ∈ plan.record.methods)
    (hm : plan.methods[position - plan.record.methods.first]? = some m)
    (hmof : m.Of a.toImage plan.eligible position) : a.Binds plans position (plan.slot m) := by
  refine ⟨owner, plan, m, howner, hplan, hof, hmem, hm, hmof.record, ?_, ?_⟩
  · rw [TypePlan.slot, Option.isSome_map, hmof.native, TypePlan.eligible, MethodDef.isEligible]
    simp only [Bool.and_eq_true, Bool.not_eq_true']
  · rintro handler hhandler
    obtain ⟨native, hnative, rfl⟩ := Option.map_eq_some_iff.1 hhandler
    exact ⟨rfl, congrArg (Option.map _) hnative⟩

end Assembly

namespace Draft
variable {d : Draft} {header : Header} {data : Bytes} {a : Assembly}

theorem Closes.toImage {layout : BaseLayout} (h : d.Closes header data)
    (hload : Assembly.load layout data = .ok a) : a.toImage = Image.view data header :=
  Except.ok.inj ((Assembly.load_ok hload).1.symm.trans h.laid.ofBytes)

/-- In the image of a draft whose ranges tile, each method belongs to the type that was added with it. -/
theorem Tiled.methodOwner? {layout : BaseLayout} (ht : d.Tiled) (h : d.Closes header data)
    (hload : Assembly.load layout data = .ok a) {index method : Nat} {t : TypeDef}
    (hindex : d.typeDefs.toList[index]? = some t) (hmethod : method ∈ t.methods) :
    a.methodOwner? method = some (UInt16.ofNat index) := by
  obtain ⟨types, htypes, hlast⟩ := Image.resolveOwners_last (Assembly.load_ok hload).2.1
  rw [h.toImage hload, h.holds.typeDefs.records_view] at htypes
  cases htypes
  refine (hlast.methods method).eq_of_nodup (fun t ht => IndexRange.mem_toList.2 ht) ?_ hindex hmethod
  rw [ht.methods]
  exact List.nodup_range

/-- Its methods come into the table in another order: virtual, instance, static. -/
def homeLamp : TypeDraft :=
  (((TypeDraft.named "" "Lamp").withStaticFields [⟨"Count", .primitive .i4, ⟨0⟩⟩]).withInstanceFields
    [⟨"Level", .primitive .u1, ⟨0⟩⟩]).withMethods
      [.native "On" ⟨false, .primitive .void, []⟩, .managed "Off" ⟨true, .primitive .void, []⟩ 0,
        (MethodDraft.native "Dim" ⟨true, .primitive .void, [.primitive .u1]⟩).withFlags ⟨MethodFlags.overridable⟩]

/-- An interface, whose method is without body but not native. -/
def homeSwitch : TypeDraft :=
  ((TypeDraft.named "" "Switch").withFlags ⟨0x20⟩).withMethods [.native "Flip" ⟨true, .primitive .void, []⟩]

def homeHub : TypeDraft :=
  ((TypeDraft.named "Studio" "Hub").withInstanceFields [⟨"Lamps", .primitive .i4, ⟨0⟩⟩]).withMethods
    [.native "Find" ⟨false, .primitive .i4, []⟩]

def homeSteps : List Step := [.typeDef homeLamp, .typeDef homeSwitch, .typeDef homeHub]

def homeDraft : Draft := built "Home" .zero homeSteps

def homePlans : List TypePlan :=
  [{ index := 0
     record := ⟨23, 0xFFFF, 0xFFFF, 0xFFFF, ⟨0⟩, 0xFFFF, 0, 1, 1, 1, 17, 0, 1, 1, 1⟩
     className := "Lamp"
     methods := [
      ⟨⟨12, 0xFFFF, ⟨64⟩, 0, 2, 0, 0, 0xFFFF, 4⟩, some ⟨"Dim___VOID__U1", ⟨true, .primitive .void, [.primitive .u1]⟩⟩⟩,
      ⟨⟨16, 0, ⟨0⟩, 0, 1, 0, 0, 0xFFFF, 8⟩, none⟩,
      ⟨⟨20, 0xFFFF, ⟨16⟩, 0, 0, 0, 0, 0xFFFF, 11⟩, some ⟨"On___STATIC__VOID", ⟨false, .primitive .void, []⟩⟩⟩] },
    { index := 1
      record := ⟨33, 0xFFFF, 0xFFFF, 0xFFFF, ⟨32⟩, 0xFFFF, 3, 0, 1, 0, 17, 2, 2, 0, 0⟩
      className := "Switch"
      methods := [⟨⟨28, 0xFFFF, ⟨0⟩, 0, 1, 0, 0, 0xFFFF, 8⟩, none⟩] },
    { index := 2
      record := ⟨51, 55, 0xFFFF, 0xFFFF, ⟨0⟩, 0xFFFF, 4, 0, 0, 1, 17, 2, 2, 0, 1⟩
      className := "Studio_Hub"
      methods := [
        ⟨⟨46, 0xFFFF, ⟨16⟩, 7, 0, 0, 0, 0xFFFF, 14⟩, some ⟨"Find___STATIC__I4", ⟨false, .primitive .i4, []⟩⟩⟩] }]

def homeFields : List FieldDef := [⟨0, 0, 0xFFFF, ⟨16⟩⟩, ⟨6, 2, 0xFFFF, ⟨0⟩⟩, ⟨40, 0, 0xFFFF, ⟨0⟩⟩]

def homeStrings : Bytes :=
  "Count\x00Level\x00Dim\x00Off\x00On\x00Lamp\x00Flip\x00Switch\x00Lamps\x00Find\x00Hub\x00Studio\x00Home\x00".toUTF8.data

def homeSignatures : Bytes := #[6, 7, 6, 3, 32, 1, 0, 3, 32, 0, 0, 0, 0, 0, 0, 0, 7]

def homeRegions : List Bytes :=
  [#[], #[], #[], #[], ((homePlans.map TypePlan.record).flatMap Row.encode).toArray,
    (homeFields.flatMap Row.encode).toArray,
    ((homePlans.flatMap fun plan => plan.methods.map MethodPlan.record).flatMap Row.encode).toArray,
    #[], #[], #[], #[], homeStrings, homeSignatures, #[], #[], #[]]

def homeHeader : Header where
  headerCrc := 1295683069
  assemblyCrc := 174094302
  flags := 0
  nativeChecksum := 0
  patchEntryOffset := 0xFFFFFFFF
  version := .zero
  assemblyName := 62
  stringTableVersion := 1
  starts := #v[124, 124, 124, 124, 124, 196, 220, 300, 300, 300, 300, 300, 368, 388, 388, 388]
  patchedMethodCount := 0
  paddings := #v[0, 0, 0, 0, 0, 0, 0, 0, 0, 0, 0, 1, 3, 0, 0, 0]

def homeBody : List UInt8 :=
  [23, 0, 255, 255, 255, 255, 255, 255, 0, 0, 255, 255, 0, 0, 1, 1, 1, 17, 0, 0, 1, 0, 1, 1,
    33, 0, 255, 255, 255, 255, 255, 255, 32, 0, 255, 255, 3, 0, 0, 1, 0, 17, 2, 0, 2, 0, 0, 0,
    51, 0, 55, 0, 255, 255, 255, 255, 0, 0, 255, 255, 4, 0, 0, 0, 1, 17, 2, 0, 2, 0, 0, 1,
    0, 0, 0, 0, 255, 255, 16, 0, 6, 0, 2, 0, 255, 255, 0, 0, 40, 0, 0, 0, 255, 255, 0, 0,
    12, 0, 255, 255, 64, 0, 0, 0, 0, 2, 0, 0, 255, 255, 4, 0, 16, 0, 0, 0, 0, 0, 0, 0, 0, 1, 0, 0, 255, 255, 8, 0,
    20, 0, 255, 255, 16, 0, 0, 0, 0, 0, 0, 0, 255, 255, 11, 0, 28, 0, 255, 255, 0, 0, 0, 0, 0, 1, 0, 0, 255, 255, 8, 0,
    46, 0, 255, 255, 16, 0, 0, 0, 7, 0, 0, 0, 255, 255, 14, 0,
    67, 111, 117, 110, 116, 0, 76, 101, 118, 101, 108, 0, 68, 105, 109, 0, 79, 102, 102, 0, 79, 110, 0,
    76, 97, 109, 112, 0, 70, 108, 105, 112, 0, 83, 119, 105, 116, 99, 104, 0, 76, 97, 109, 112, 115, 0,
    70, 105, 110, 100, 0, 72, 117, 98, 0, 83, 116, 117, 100, 105, 111, 0, 72, 111, 109, 101, 0, 0,
    6, 7, 6, 3, 32, 1, 0, 3, 32, 0, 0, 0, 0, 0, 0, 0, 7, 0, 0, 0]

def homeImage : Bytes := (homeHeader.encode ++ homeBody).toArray

theorem seal_home : Bytes.seal ({ homeHeader with headerCrc := 0, assemblyCrc := 0 }.encode ++ homeBody).toArray
    ({ homeHeader with headerCrc := 0, assemblyCrc := 0 }.encode ++ homeBody).toArray.size =
      .ok ⟨homeHeader.assemblyCrc, homeHeader.headerCrc, homeImage⟩ := by
  have hassembly : Checksum.passes 22 0 homeBody
      [3273243488, 746370835, 2385719768, 1287070611, 3266548079, 1705356030, 3825492665, 641315975, 1433037351,
        668314157, 4009548280, 174094302] = true := by decide +kernel
  have hheader : Checksum.passes 25 0 { homeHeader with headerCrc := 0 }.encode
      [4188872916, 2046382143, 1827913490, 53503049, 1295683069] = true := by decide +kernel
  exact Bytes.seal_encode homeHeader homeBody (Checksum.update_of_passes hassembly)
    (Checksum.update_of_passes hheader)

theorem types_home : ∀ (i : Nat) type, homeSteps[i]? = some (.typeDef type) →
    ∃ index, ((named "Home" .zero).applyAll homeSteps).1[i]? = some (.ok index) := by
  have hresults : ((named "Home" .zero).applyAll homeSteps).1 = [.ok 0, .ok 1, .ok 2] := by cbv
  rintro (_ | _ | _ | i) type htype
  · exact ⟨0, by rw [hresults]; rfl⟩
  · exact ⟨1, by rw [hresults]; rfl⟩
  · exact ⟨2, by rw [hresults]; rfl⟩
  · cases htype

theorem rows_home : homeDraft.closed.typeDefs = (homePlans.map TypePlan.record).toArray ∧
    homeDraft.closed.fieldDefs = homeFields.toArray ∧ homeDraft.closed.methodDefs =
      (homePlans.flatMap fun plan => plan.methods.map MethodPlan.record).toArray := by
  cbv
  exact ⟨rfl, rfl, rfl⟩

theorem heaps_home : homeDraft.closed.strings.heap = homeStrings ∧
    homeDraft.closed.signatures.heap = homeSignatures ∧ homeDraft.closed.byteCode = #[] ∧
    homeDraft.closed.resourcesData = #[] := by
  cbv
  exact ⟨rfl, rfl, trivial⟩

theorem others_home : homeDraft.closed.assemblyRefs = #[] ∧ homeDraft.closed.typeRefs = #[] ∧
    homeDraft.closed.fieldRefs = #[] ∧ homeDraft.closed.methodRefs = #[] ∧ homeDraft.closed.typeSpecs = #[] ∧
    homeDraft.closed.attributes = #[] ∧ homeDraft.closed.resources = #[] ∧
    homeDraft.closed.resourceFiles = #[] := by cbv

theorem closed_home : homeDraft.textReference homeDraft.name = 62 ∧ homeDraft.closed.version = .zero ∧
    homeDraft.closed.overflow = false ∧ homeDraft.resourcesData.size < 0x100000000 := by
  cbv
  exact ⟨rfl, trivial⟩

theorem regions_home : homeDraft.closed.regions = homeRegions := by
  simp only [regions, TableKind.all, List.map_cons, List.map_nil, region, rows_home, heaps_home, others_home,
    encodeRows_toArray]
  rfl

theorem image_home : homeDraft.image = .ok homeImage := by
  obtain ⟨hname, hversion, hoverflow, hdata⟩ := closed_home
  have hbody : homeDraft.closed.body.toList = homeBody := by
    rw [body, regions_home, toList_layRegions]
    decide +kernel
  have hsize : homeDraft.closed.body.size = homeBody.length := by
    rw [← hbody, Array.length_toList]
  have hheader : homeDraft.closed.headerFor 62 (homeDraft.closed.regions.map Array.size) =
      { homeHeader with headerCrc := 0, assemblyCrc := 0 } := by
    rw [headerFor, hversion, regions_home]
    decide +kernel
  have hclose : close homeDraft = .ok 62 homeDraft.closed := by
    rw [close_ok hdata, hname]
  have hunsealed : homeDraft.closed.unsealed 62 =
      ({ homeHeader with headerCrc := 0, assemblyCrc := 0 }.encode ++ homeBody).toArray := by
    rw [← Array.toList_inj, unsealed, hheader, Array.toList_append, hbody]
  rw [image_eq_seal hclose hoverflow (by rw [hsize]; decide +kernel), hunsealed, seal_home]
  rfl

def home : Assembly where
  toImage := Image.view homeImage homeHeader
  owners := ⟨#[some 0, some 0, some 2], #[some 0, some 0, some 0, some 1, some 2]⟩
  fieldOffsets := #[none, some 1, some 1]

theorem load_home : Assembly.load .bare homeImage = .ok home :=
  Assembly.load_encode rfl (by decide +kernel) (by decide +kernel) (by decide +kernel)

def homeOptions : GeneratorOptions := ⟨⟨"Home"⟩, none, .coreLibrary, none⟩

theorem fileName_home : homeOptions.fileName = .ok "Home" := by decide +kernel

theorem project_home : homeOptions.project = .ok "Home" := by decide +kernel

theorem unnumbered_home : ∀ plan ∈ homePlans, List.Forall₂
    (MethodPlan.Unnumbered home.toImage .plain plan.record.isEligible) plan.record.methods.toList plan.methods := by
  unfold MethodPlan.Unnumbered
  decide +kernel

theorem counts_home : home.typeCount = 3 ∧ home.fieldCount = 3 ∧ home.methodCount = 5 := ⟨rfl, rfl, rfl⟩

theorem read_home : home.name? = some "Home" ∧ ∀ plan ∈ homePlans,
    home.get TypeDef plan.index = .ok plan.record ∧ home.className .identifier plan.index = .ok plan.className ∧
      (plan.methods.filterMap MethodPlan.identifier?).Nodup := by
  decide +kernel

theorem plan_home : home.plan .plain = .ok homePlans := by
  have hplan : ∀ plan ∈ homePlans, home.planType .plain plan.index = .ok plan := by
    intro plan hplan
    obtain ⟨hrecord, hclass, hnodup⟩ := read_home.2 plan hplan
    exact Image.planType_ok_iff.2 ⟨plan.record, plan.className, plan.methods, hrecord, hclass,
      Image.planMethods_of_bases (unnumbered_home plan hplan) (fun _ _ => Namer.unused_empty _) hnodup, rfl⟩
  have hindices : List.range home.typeCount = homePlans.map TypePlan.index := rfl
  rw [Image.plan, hindices, mapM_eq_ok, List.forall₂_map_left_iff, List.forall₂_same]
  exact hplan

theorem of_home {i : Nat} (hi : i < homePlans.length) : homePlans[i].Of home.toImage i :=
  (Image.plan_ok plan_home).2 i hi

theorem render_home : ∃ skeleton, home.render homeOptions = .ok skeleton := by
  have hblocks : home.headerBlocks 0 homePlans = .ok
      [⟨"Lamp", [⟨⟨"Count"⟩, 0⟩], [⟨⟨"Level"⟩, 1⟩], ["Dim___VOID__U1", "On___STATIC__VOID"]⟩,
        ⟨"Studio_Hub", [], [⟨⟨"Lamps"⟩, 1⟩], ["Find___STATIC__I4"]⟩] := by decide +kernel
  exact Assembly.exists_render rfl fileName_home read_home.1 plan_home project_home hblocks

/-- The handlers of the lookup table stand at the positions of the methods, whatever the options, and
the checksum covers the same slots in the same order. -/
theorem lookup_binds_by_position {name : String} {version : Version} {steps : List Step}
    {layout : BaseLayout} {options : GeneratorOptions} {skeleton : Skeleton}
    (htypes : ∀ (i : Nat) type, steps[i]? = some (.typeDef type) →
      ∃ index, ((named name version).applyAll steps).1[i]? = some (.ok index))
    (himage : (built name version steps).image = .ok data)
    (hload : Assembly.load layout data = .ok a) (hrender : a.render options = .ok skeleton) :
    ∃ (fileName project assemblyName : String) (plans : List TypePlan) (entries : List (Option Handler))
      (artifact : Artifact), options.fileName = .ok fileName ∧ options.project = .ok project ∧
      a.name? = some assemblyName ∧ a.plan options.policy = .ok plans ∧
      skeleton.artifact? .lookup = some artifact ∧
      artifact.contents = a.lookupFrame options.mode fileName project assemblyName skeleton.checksum
        (String.join (entries.map fun
          | some handler =>
            "    Library_" ++ fileName ++ "_" ++ handler.className ++ "::" ++ handler.identifier ++ ",\n"
          | none => "    NULL,\n")) ∧
      entries.length = a.methodCount ∧
      (∀ (i : Nat) entry, entries[i]? = some entry → a.Binds plans i entry) ∧
      skeleton.checksum = Checksum.update 0
        ((entries.flatMap fun
          | some handler => [assemblyName, handler.className, handler.identifier]
          | none => ["NULL"]).flatMap fun text => text.toUTF8.data.toList) := by
  obtain ⟨header, hc⟩ := closes_of_image himage
  have htiled : (built name version steps).Tiled :=
    (Tiled.named name version).applyAll steps htypes ((extends_closed _).overflow hc.overflow)
  have hview := hc.toImage hload
  obtain ⟨fileName, assemblyName, project, plans, artifact, hfile, hproject, hname, hplans, hchecksum, hlookup,
    htext⟩ := Assembly.render_ok hrender
  have hrecords : plans.map TypePlan.record = (built name version steps).typeDefs.toList := by
    have h := Image.records_of_plan hplans
    rw [hview, hc.holds.typeDefs.records_view] at h
    exact (Except.ok.inj h).symm
  have hcount : a.methodCount = (built name version steps).methodDefs.size := by
    rw [Image.methodCount, hview]
    exact hc.holds.methodDefs.count_view
  -- the ranges tile the table, so that the slots taken type by type stand in the order of the methods
  have hranges : plans.flatMap (fun plan => plan.record.methods.toList) = List.range a.methodCount := by
    rw [hcount, ← htiled.methods, ← hrecords, List.flatMap_map]
  refine ⟨fileName, project, assemblyName, plans, slots plans, artifact, hfile, hproject, hname, hplans, hlookup, ?_,
    length_slots hplans hranges, ?_, ?_⟩
  · rw [htext, Assembly.lookupTable_text, hchecksum]
    rfl
  · intro i entry hentry
    have hi : i < a.methodCount := length_slots hplans hranges ▸ (List.getElem?_eq_some_iff.1 hentry).1
    obtain ⟨index, plan, m, hplan, hof, hmem, hm, hmof, hslot⟩ := getElem?_slots hplans hranges hi
    obtain rfl := Option.some.inj (hslot.symm.trans hentry)
    have htype : (built name version steps).typeDefs.toList[index]? = some plan.record := by
      rw [← hrecords, List.getElem?_map, hplan]
      rfl
    have howner := htiled.methodOwner? hc hload htype hmem
    have hindex : (UInt16.ofNat index).toNat = index := by
      refine UInt16.toNat_ofNat_of_lt' (Nat.lt_of_lt_of_le (List.getElem?_eq_some_iff.1 htype).1 ?_)
      rw [Array.length_toList]
      exact Nat.le_succ_of_le htiled.typeDefs
    exact Assembly.binds_slot howner (by rw [hindex, hplan]) (by rw [hindex]; exact hof) hmem hm hmof
  · rw [hchecksum, nativeChecksum, foldl_updateText]
    rfl

theorem slots_home {entries : List (Option Handler)} (hlength : entries.length = home.methodCount)
    (hbinds : ∀ (i : Nat) entry, entries[i]? = some entry → home.Binds homePlans i entry) :
    entries = slots homePlans := by
  rw [counts_home.2.2] at hlength
  refine List.ext_getElem (hlength.trans (by decide)) fun i hi hi' => ?_
  have hbound := hbinds i _ (List.getElem?_eq_getElem hi)
  rw [hlength] at hi
  match i, hi with
  | 0, _ => exact (hbound.entry_eq (show home.methodOwner? 0 = some 0 by decide) rfl rfl).trans rfl
  | 1, _ => exact (hbound.entry_eq (show home.methodOwner? 1 = some 0 by decide) rfl rfl).trans rfl
  | 2, _ => exact (hbound.entry_eq (show home.methodOwner? 2 = some 0 by decide) rfl rfl).trans rfl
  | 3, _ => exact (hbound.entry_eq (show home.methodOwner? 3 = some 1 by decide) rfl rfl).trans rfl
  | 4, _ => exact (hbound.entry_eq (show home.methodOwner? 4 = some 2 by decide) rfl rfl).trans rfl

/-- The first method of the table was added last to its type, and the fourth is one of the interface. -/
theorem lookup_binds_by_position_home :
    ∃ (skeleton : Skeleton) (artifact : Artifact), homeDraft.image = .ok homeImage ∧
      Assembly.load .bare homeImage = .ok home ∧ home.render homeOptions = .ok skeleton ∧
      skeleton.artifact? .lookup = some artifact ∧
      artifact.contents = home.lookupFrame .coreLibrary "Home" "Home" "Home" skeleton.checksum
        ("    Library_Home_Lamp::Dim___VOID__U1,\n    NULL,\n    Library_Home_Lamp::On___STATIC__VOID,\n    NULL,\n" ++
          "    Library_Home_Studio_Hub::Find___STATIC__I4,\n") := by
  obtain ⟨skeleton, hrender⟩ := render_home
  obtain ⟨fileName, project, assemblyName, plans, entries, artifact, hfile, hproject, hname, hplans, hlookup, htext,
    hlength, hbinds, -⟩ := lookup_binds_by_position types_home image_home load_home hrender
  cases plan_home.symm.trans hplans
  cases fileName_home.symm.trans hfile
  cases project_home.symm.trans hproject
  cases read_home.1.symm.trans hname
  obtain rfl := slots_home hlength hbinds
  refine ⟨skeleton, artifact, image_home, load_home, hrender, hlookup, htext.trans ?_⟩
  refine congrArg (home.lookupFrame .coreLibrary "Home" "Home" "Home" skeleton.checksum) ?_
  decide +kernel

end Draft

end CompactAssembly
