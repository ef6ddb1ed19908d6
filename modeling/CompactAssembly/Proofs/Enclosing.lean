import CompactAssembly.Artifact.Stub
import CompactAssembly.Proofs.NestedTypes
import CompactAssembly.Proofs.Resigned
import CompactAssembly.Proofs.Skeletons

/-!
# Names of nested types

Class name, type name and the name in a listing are made of the same texts, those of a type and of all types
around it (`Image.nestedTexts`), so that one of them can be made exactly if the others can. They differ in
what stands between the texts. The parts of a type name between its dots are the namespaces and the struct of
a stub header; joined by underscores they are the class name unless one of them is empty.
-/

namespace CompactAssembly

namespace Text
variable {old new : Char} {cs : List Char}

theorem split_eq (separator : Char) (cs : List Char) : split separator cs = cs.splitOn separator := by
  induction cs with
  | nil => rfl
  | cons c cs ih =>
    obtain ⟨first, rest, hsplit⟩ := exists_split separator cs
    rw [List.splitOn, List.splitOnP_cons_eq_if_modifyHead, ← List.splitOn, ← ih]
    by_cases hc : c = separator
    · rw [hc, split_separator, if_pos (beq_self_eq_true separator)]
    · rw [split_cons hc hsplit, if_neg (by simpa using hc), hsplit]
      rfl

theorem map_intercalate {α β : Type} (f : α → β) (separator : List α) (xs : List (List α)) :
    (separator.intercalate xs).map f = (separator.map f).intercalate (xs.map (List.map f)) := by
  induction xs with
  | nil => rfl
  | cons x xs ih =>
    cases xs with
    | nil => simp
    | cons y xs =>
      rw [List.intercalate_cons_cons, List.map_append, List.map_append, ih]
      simp

theorem map_replace (old new : Char) (cs : List Char) :
    (cs.map fun c => if c = old then new else c) = [new].intercalate (split old cs) := by
  induction cs with
  | nil => rfl
  | cons c cs ih =>
    obtain ⟨first, rest, hsplit⟩ := exists_split old cs
    rw [List.map_cons, ih]
    by_cases hc : c = old
    · subst hc
      rw [split_separator, hsplit, if_pos rfl, List.intercalate_cons_cons]
      simp
    · rw [split_cons hc hsplit, hsplit, if_neg hc]
      cases rest <;> simp

theorem length_intercalate {α : Type} (separator : α) (xs : List (List α)) :
    ([separator].intercalate xs).length = (xs.map List.length).sum + (xs.length - 1) := by
  induction xs with
  | nil => rfl
  | cons x xs ih =>
    cases xs with
    | nil => simp
    | cons y xs =>
      rw [List.intercalate_cons_cons, List.length_append, List.length_append, ih]
      simp
      omega

theorem sum_lengths_filter {α : Type} [DecidableEq α] (xs : List (List α)) :
    ((xs.filter (· ≠ [])).map List.length).sum = (xs.map List.length).sum := by
  induction xs with
  | nil => rfl
  | cons x xs ih => cases x <;> simpa using ih

/-- Without its empty pieces a text is put together alike only if it has none. -/
theorem intercalate_filter_iff {α : Type} [DecidableEq α] (separator : α) {xs : List (List α)} (hxs : xs ≠ [[]]) :
    [separator].intercalate (xs.filter (· ≠ [])) = [separator].intercalate xs ↔ ∀ x ∈ xs, x ≠ [] := by
  constructor
  · intro h x hx hempty
    have hlength := congrArg List.length h
    rw [length_intercalate, length_intercalate, sum_lengths_filter] at hlength
    have hfewer : (xs.filter (· ≠ [])).length < xs.length :=
      List.length_filter_lt_length_iff_exists.2 ⟨x, hx, by simp [hempty]⟩
    -- the numbers of pieces differ, but not the numbers of separators, so that there is one piece
    obtain ⟨y, rfl⟩ := List.length_eq_one_iff.1 (show xs.length = 1 by omega)
    obtain rfl := List.mem_singleton.1 hx
    exact hxs (by rw [hempty])
  · intro h
    rw [List.filter_eq_self.2 fun x hx => decide_eq_true (h x hx)]

end Text

namespace Naming

/-- The parts of a name between its dots that are not empty. -/
def parts (name : String) : List String := ((name.toList.splitOn '.').filter (· ≠ [])).map String.ofList

theorem dotted_flatMap {texts : List (String × String)} (h : ∀ text ∈ texts, text.2 ≠ "") :
    dotted (texts.flatMap fun (nameSpace, name) => [nameSpace, name]) =
      ".".intercalate (texts.map fun (nameSpace, name) => segment nameSpace ++ name) := by
  unfold dotted
  induction texts with
  | nil => rfl
  | cons text texts ih =>
    obtain ⟨nameSpace, name⟩ := text
    have hname : name ≠ "" := h _ List.mem_cons_self
    have ih := ih fun text ht => h text (List.mem_cons_of_mem _ ht)
    have hown : ".".intercalate ([nameSpace, name].filter fun text => !text.isEmpty) = segment nameSpace ++ name := by
      unfold segment
      cases hspace : nameSpace.isEmpty <;> simp [hspace, hname]
    rw [List.flatMap_cons, List.filter_append, List.map_cons]
    dsimp only
    cases texts with
    | nil => simp [hown]
    | cons text' texts =>
      have hname' : text'.2 ≠ "" := h text' (by simp)
      rw [String.intercalate_append_of_ne_nil, ih, hown, List.map_cons, String.intercalate_cons_cons]
      · simp [hname]
      · intro hempty
        simp [hname'] at hempty

end Naming

namespace Image
variable {image : Image} {i j : Nat} {chain inner : List TypeDef}

theorem replaceChar_intercalate (texts : List String) :
    Text.replaceChar '.' '_' (".".intercalate texts) = Text.replaceChar '.' '_' ("_".intercalate texts) := by
  unfold Text.replaceChar
  rw [String.toList_intercalate, String.toList_intercalate, Text.map_intercalate, Text.map_intercalate]
  rfl

/-- With dots replaced by underscores a type name is the class name, if no type of the chain is without name. -/
theorem className_of_typeName {name : String} (hchain : image.Enclosed i chain)
    (hnames : ∀ t ∈ chain, image.text t.name ≠ .ok "") (h : image.typeName i = .ok name) :
    image.className .identifier i = .ok (Text.replaceChar '.' '_' name) ∧ name ≠ "" := by
  rw [typeName_eq, bind_eq_ok] at h
  obtain ⟨texts, htexts, h⟩ := h
  cases h
  obtain ⟨chain', hchain', -, hall⟩ := nestedTexts_ok_iff.1 htexts
  obtain rfl := hchain.unique hchain'
  have hnonempty : ∀ text ∈ texts, text.2 ≠ "" := by
    intro text htext hempty
    obtain ⟨k, hk, rfl⟩ := List.getElem_of_mem (List.mem_reverse.2 htext)
    have hk' : k < chain.length := hall.length_eq ▸ hk
    refine hnames chain[k] (List.getElem_mem hk') ?_
    rw [← hempty]
    exact (hall.get hk' hk).2
  refine ⟨?_, ?_⟩
  · rw [className_eq, htexts, ← replaceChar_intercalate, ← Naming.dotted_flatMap hnonempty]
    rfl
  · -- there is a type at least, the one that is named
    rcases texts with _ | ⟨⟨nameSpace, name⟩, texts⟩
    · obtain ⟨hnested, -⟩ := hchain
      cases hnested <;> cases hall
    · have hname : name ≠ "" := hnonempty (nameSpace, name) List.mem_cons_self
      intro hempty
      cases texts with
      | nil => simp [hname] at hempty
      | cons => simp [String.intercalate_cons_cons] at hempty

/-- A scope is made of the parts of the type name. -/
theorem scope_of_typeName {name structName : String} {namespaces : List String} (hname : image.typeName i = .ok name)
    (h : image.stubScope i = .ok (namespaces, structName)) :
    (Naming.parts name ≠ [] → namespaces ++ [structName] = Naming.parts name) ∧
    (Naming.parts name = [] → namespaces = [] ∧ structName = "") := by
  rw [stubScope, hname] at h
  obtain ⟨rfl, rfl⟩ := Prod.mk.inj (Except.ok.inj h)
  have hcut : ((Text.split '.' name.toList).filter (· ≠ [])).map String.ofList = Naming.parts name := by
    rw [Text.split_eq, Naming.parts]
  rw [hcut]
  constructor
  · intro hne
    rw [List.getLast?_eq_some_getLast hne]
    exact List.dropLast_append_getLast hne
  · intro hnone
    exact ⟨by rw [hnone, List.dropLast_nil], by rw [hnone]; rfl⟩

theorem flatten_scope {name structName : String} {namespaces : List String} (hname : image.typeName i = .ok name)
    (h : image.stubScope i = .ok (namespaces, structName)) :
    ("_".intercalate (namespaces ++ [structName])).toList =
      ['_'].intercalate ((name.toList.splitOn '.').filter (· ≠ [])) := by
  obtain ⟨hparts, hnone⟩ := scope_of_typeName hname h
  by_cases hempty : Naming.parts name = []
  · obtain ⟨rfl, rfl⟩ := hnone hempty
    rw [List.map_eq_nil_iff.1 hempty]
    rfl
  · rw [hparts hempty, String.toList_intercalate, Naming.parts, List.map_map]
    have hid : String.toList ∘ String.ofList = id := funext fun _ => String.toList_ofList
    rw [hid, List.map_id]
    rfl

theorem replaceChar_eq_flatten_iff {name structName : String} {namespaces : List String}
    (hname : image.typeName i = .ok name) (hne : name ≠ "") (h : image.stubScope i = .ok (namespaces, structName)) :
    "_".intercalate (namespaces ++ [structName]) = Text.replaceChar '.' '_' name ↔
      ∀ part ∈ name.toList.splitOn '.', part ≠ [] := by
  have hpieces : name.toList.splitOn '.' ≠ [[]] := by
    intro hsplit
    have hjoin : ['.'].intercalate (name.toList.splitOn '.') = name.toList := List.intercalate_splitOn '.'
    rw [hsplit] at hjoin
    exact hne (String.toList_inj.1 hjoin.symm)
  rw [← Text.intercalate_filter_iff '_' hpieces, ← flatten_scope hname h, ← Text.split_eq, ← Text.map_replace,
    ← String.toList_inj, Text.replaceChar, String.toList_ofList]

end Image

namespace StubUnit

/-- The lines that open the namespaces of a stub header and the struct inside them. -/
def opening (structName indent : String) : List String → String
  | [] => s!"{indent}struct {structName}\n{indent}\x7b\n"
  | name :: names => s!"{indent}namespace {name}\n{indent}\x7b\n" ++ opening structName (indent ++ "    ") names

theorem exists_nested (u : StubUnit) (library indent : String) (namespaces : List String) :
    ∃ rest, nested indent namespaces (u.structText library) = opening u.structName indent namespaces ++ rest := by
  induction namespaces generalizing indent with
  | nil =>
    simp only [nested, structText, opening, String.append_assoc]
    exact ⟨_, rfl⟩
  | cons name names ih =>
    obtain ⟨rest, hrest⟩ := ih (indent ++ "    ")
    refine ⟨rest ++ s!"{indent}\x7d\n", ?_⟩
    rw [nested, hrest, opening]
    simp only [String.append_assoc]

theorem headerText_eq (u : StubUnit) (fileName guard : String) :
    ∃ before after, u.headerText fileName guard = before ++ opening u.structName "" u.namespaces ++ after := by
  obtain ⟨rest, hrest⟩ := u.exists_nested (Artifact.libraryClass fileName u.className) "" u.namespaces
  refine ⟨Artifact.copyFirstBanner ++ Artifact.openGuard guard, rest ++ Artifact.closeGuard guard, ?_⟩
  rw [headerText, hrest]
  simp only [String.append_assoc]

end StubUnit

namespace Assembly

/-- The header of a type opens the parts of the type name that are not empty, and its path holds the class name. -/
theorem header_of_typeName {a : Assembly} {i : Nat} {policy : NamingPolicy} {plans : List TypePlan} {plan : TypePlan}
    {u : StubUnit} {name : String} (hplans : a.plan policy = .ok plans) (hplan : plans[i]? = some plan)
    (hunit : a.stubUnit policy plan = .ok u) (hname : a.typeName i = .ok name) (hne : name ≠ "")
    (hclass : a.className .identifier i = .ok (Text.replaceChar '.' '_' name)) {fileName : String} {stem : Path}
    {artifact : Artifact} (hartifact : artifact ∈ u.artifacts fileName stem) (hkind : artifact.kind = .stubHeader) :
    (∃ before after, artifact.contents = before ++ StubUnit.opening u.structName "" u.namespaces ++ after) ∧
    (Naming.parts name ≠ [] → u.namespaces ++ [u.structName] = Naming.parts name) ∧
    (Naming.parts name = [] → u.namespaces = [] ∧ u.structName = "") ∧
    artifact.path = stem.extended ("_" ++ Text.replaceChar '.' '_' name ++ ".h") ∧
    ("_".intercalate (u.namespaces ++ [u.structName]) = Text.replaceChar '.' '_' name ↔
      ∀ part ∈ name.toList.splitOn '.', part ≠ []) := by
  obtain ⟨hi, rfl⟩ := List.getElem?_eq_some_iff.1 hplan
  have hof := (Image.plan_ok hplans).2 i hi
  have hscope := (of_stubUnit hunit).scope
  rw [hof.index] at hscope
  have hpath : u.className = Text.replaceChar '.' '_' name :=
    (of_stubUnit hunit).className.trans (Except.ok.inj (hof.className.symm.trans hclass))
  simp only [StubUnit.artifacts, List.mem_cons, List.not_mem_nil, or_false] at hartifact
  rcases hartifact with rfl | rfl | rfl
  · cases hkind
  · obtain ⟨hparts, hnone⟩ := Image.scope_of_typeName hname hscope
    refine ⟨StubUnit.headerText_eq _ _ _, hparts, hnone, ?_, Image.replaceChar_eq_flatten_iff hname hne hscope⟩
    rw [← hpath]
    rfl
  · cases hkind

/-- One chain of types makes all names of a type or gives the fault of each. With dots replaced by underscores
the type name is the class name unless a type has no name. What a stub header opens are the parts of the type
name, which together make the class name in the path of the header if none of them is empty. -/
theorem names_of_nested_types (a : Assembly) (i : Nat) :
    (∀ style, (∃ name, a.className style i = .ok name) ↔ a.Nameable i) ∧
    ((∃ name, a.typeName i = .ok name) ↔ a.Nameable i) ∧
    ((∃ text, a.listedTypeName i = .ok text) ↔ a.Nameable i) ∧
    (∀ style fault, a.className style i = .error fault ↔ a.typeName i = .error fault) ∧
    (∀ fault, a.listedTypeName i = .error fault ↔ a.typeName i = .error fault) ∧
    (∀ chain, a.Nested i chain → 64 < chain.length → a.typeName i = .error (.nestingLimit 64)) ∧
    (∀ j, Relation.ReflTransGen a.LiesIn i j → Relation.TransGen a.LiesIn j j →
      a.typeName i = .error (.nestingLimit 64)) ∧
    ∀ chain name, a.Enclosed i chain → (∀ t ∈ chain, a.text t.name ≠ .ok "") → a.typeName i = .ok name →
      a.className .identifier i = .ok (Text.replaceChar '.' '_' name) ∧
      ∀ policy plans plan u, a.plan policy = .ok plans → plans[i]? = some plan → a.stubUnit policy plan = .ok u →
        ∀ fileName stem, ∀ artifact ∈ u.artifacts fileName stem, artifact.kind = .stubHeader →
          (∃ before after, artifact.contents =
            before ++ StubUnit.opening u.structName "" u.namespaces ++ after) ∧
          (Naming.parts name ≠ [] → u.namespaces ++ [u.structName] = Naming.parts name) ∧
          (Naming.parts name = [] → u.namespaces = [] ∧ u.structName = "") ∧
          artifact.path = stem.extended ("_" ++ Text.replaceChar '.' '_' name ++ ".h") ∧
          ("_".intercalate (u.namespaces ++ [u.structName]) = Text.replaceChar '.' '_' name ↔
            ∀ part ∈ name.toList.splitOn '.', part ≠ []) := by
  -- all the names are made of the same texts, so that they exist together and fail alike
  have hok : ∀ {β : Type} (f : List (String × String) → β),
      (∃ b, (a.nestedTexts i >>= fun texts => .ok (f texts)) = .ok b) ↔ a.Nameable i := by
    intro β f
    rw [Image.nameable_iff]
    constructor
    · rintro ⟨b, h⟩
      obtain ⟨texts, htexts, -⟩ := bind_eq_ok.1 h
      exact ⟨texts, htexts⟩
    · rintro ⟨texts, htexts⟩
      exact ⟨f texts, bind_eq_ok.2 ⟨texts, htexts, rfl⟩⟩
  have hfault : ∀ (f : List (String × String) → String) fault,
      (a.nestedTexts i >>= fun texts => .ok (f texts)) = .error fault ↔ a.nestedTexts i = .error fault := by
    intro f fault
    rw [bind_eq_error]
    constructor
    · rintro (h | ⟨texts, -, h⟩)
      · exact h
      · cases h
    · exact .inl
  have hlong : ∀ chain, a.Nested i chain → 64 < chain.length → a.typeName i = .error (.nestingLimit 64) := by
    intro chain hchain hlength
    refine bind_eq_error.2 (.inl ?_)
    exact Image.enclosingFrom_of_long hchain hlength
  simp only [Image.className_eq, Image.typeName_eq, Image.listedTypeName_eq] at hlong ⊢
  refine ⟨fun style => hok _, hok _, hok _, fun style fault => ?_, fun fault => ?_, hlong, fun j hj hcycle => ?_, ?_⟩
  · rw [hfault, hfault]
  · rw [hfault, hfault]
  · obtain ⟨chain, hchain, hlength⟩ := Image.exists_nested_of_cycle hj hcycle 64
    exact hlong chain hchain (by omega)
  · intro chain name hchain hnames hname
    rw [← Image.typeName_eq] at hname
    obtain ⟨hclass, hne⟩ := Image.className_of_typeName hchain hnames hname
    rw [← Image.className_eq]
    refine ⟨hclass, ?_⟩
    intro policy plans plan u hplans hplan hunit fileName stem artifact hartifact hkind
    exact header_of_typeName hplans hplan hunit hname hne hclass hartifact hkind

end Assembly

namespace Draft

def studioHeader : Header where
  headerCrc := 1140273402
  assemblyCrc := 2269645254
  flags := 0
  nativeChecksum := 0
  patchEntryOffset := 0xFFFFFFFF
  version := .zero
  assemblyName := 30
  stringTableVersion := 1
  starts := #v[124, 124, 124, 124, 124, 196, 196, 244, 244, 244, 244, 244, 280, 296, 296, 296]
  patchedMethodCount := 0
  paddings := #v[0, 0, 0, 0, 0, 0, 0, 0, 0, 0, 0, 1, 0, 0, 0, 0]

/-- An enumeration `Mode`, a class `A..B.Lamp` that is set by number and by mode, and inside it a class whose
name is no identifier. The header takes the first 124 bytes. -/
def studioImage : Bytes :=
  #[78, 70, 77, 82, 75, 49, 0, 0, 250, 48, 247, 67, 198, 9, 72, 135, 0, 0, 0, 0, 0, 0, 0, 0, 255, 255, 255, 255, 0, 0, 0,
    0, 0, 0, 0, 0, 30, 0, 1, 0, 124, 0, 0, 0, 124, 0, 0, 0, 124, 0, 0, 0, 124, 0, 0, 0, 124, 0, 0, 0, 196, 0,
    0, 0, 196, 0, 0, 0, 244, 0, 0, 0, 244, 0, 0, 0, 244, 0, 0, 0, 244, 0, 0, 0, 244, 0, 0, 0, 24, 1, 0, 0, 40,
    1, 0, 0, 40, 1, 0, 0, 40, 1, 0, 0, 0, 0, 0, 0, 0, 0, 0, 0, 0, 0, 0, 0, 0, 0, 0, 1, 0, 0, 0, 0,
    0, 0, 255, 255, 255, 255, 255, 255, 48, 0, 255, 255, 0, 0, 0, 0, 0, 7, 0, 0, 0, 0, 0, 0,
    9, 0, 14, 0, 255, 255, 255, 255, 0, 0, 255, 255, 0, 0, 0, 0, 2, 17, 0, 0, 0, 0, 0, 0,
    23, 0, 255, 255, 255, 255, 1, 0, 0, 0, 255, 255, 2, 0, 0, 1, 0, 17, 0, 0, 0, 0, 0, 0,
    5, 0, 255, 255, 16, 0, 0, 0, 0, 1, 0, 0, 255, 255, 0, 0,
    5, 0, 255, 255, 16, 0, 0, 0, 0, 1, 0, 0, 255, 255, 4, 0,
    19, 0, 255, 255, 0, 0, 0, 0, 7, 3, 0, 0, 255, 255, 9, 0,
    77, 111, 100, 101, 0, 83, 101, 116, 0, 76, 97, 109, 112, 0, 65, 46, 46, 66, 0,
    68, 105, 109, 0, 66, 117, 108, 98, 96, 49, 0, 72, 111, 109, 101, 0, 0,
    0, 1, 0, 7, 0, 1, 0, 18, 0, 32, 2, 7, 20, 7, 17, 8]

def studio : Assembly where
  toImage := Image.view studioImage studioHeader
  owners := ⟨#[], #[some 1, some 1, some 2]⟩
  fieldOffsets := #[]

theorem load_studio : Assembly.load .bare studioImage = .ok studio := by
  have hload : studioHeader.encode = studioImage.toList.take 124 ∧
      studioHeader.checkExtents studioImage.size = .ok () ∧
      (Image.view studioImage studioHeader).resolveOwners = .ok studio.owners ∧
      (Image.view studioImage studioHeader).resolveOffsets .bare = .ok #[] := by decide +kernel
  obtain ⟨hheader, hextents, howners, hoffsets⟩ := hload
  have himage : studioImage.toList = studioHeader.encode ++ studioImage.toList.drop 124 := by
    rw [hheader, List.take_append_drop]
  exact Assembly.load_encode himage hextents howners hoffsets

def modeType : TypeDef := ⟨0, 0xFFFF, 0xFFFF, 0xFFFF, ⟨48⟩, 0xFFFF, 0, 0, 0, 0, 7, 0, 0, 0, 0⟩

def lampType : TypeDef := ⟨9, 14, 0xFFFF, 0xFFFF, ⟨0⟩, 0xFFFF, 0, 0, 0, 2, 17, 0, 0, 0, 0⟩

def bulbType : TypeDef := ⟨23, 0xFFFF, 0xFFFF, 1, ⟨0⟩, 0xFFFF, 2, 0, 1, 0, 17, 0, 0, 0, 0⟩

def setByNumber : MethodSignature := ⟨false, .primitive .void, [.primitive .i4]⟩

def setByMode : MethodSignature := ⟨false, .primitive .void, [.valueType ⟨0x04000000⟩]⟩

def dimming : MethodSignature := ⟨true, .primitive .i4, [.byRef (.primitive .i4), .classType ⟨0x04000002⟩]⟩

def setter (sig : UInt16) : MethodDef := ⟨5, 0xFFFF, ⟨16⟩, 0, 1, 0, 0, 0xFFFF, sig⟩

def dimmer : MethodDef := ⟨19, 0xFFFF, ⟨0⟩, 7, 3, 0, 0, 0xFFFF, 9⟩

def lampPlan : TypePlan :=
  ⟨1, lampType, "A__B_Lamp",
    [⟨setter 0, some ⟨"Set___STATIC__VOID__I4", setByNumber⟩⟩,
      ⟨setter 4, some ⟨"Set___STATIC__VOID__Mode", setByMode⟩⟩]⟩

def bulbPlan : TypePlan :=
  ⟨2, bulbType, "A__B_Lamp_Bulb\x601", [⟨dimmer, some ⟨"Dim___I4__BYREF_I4__ABLampBulb\x601", dimming⟩⟩]⟩

def studioPlans : List TypePlan := [⟨0, modeType, "Mode", []⟩, lampPlan, bulbPlan]

def setStub : Stub := ⟨"Set", true, .void, [.value .int32]⟩

def dimStub : Stub := ⟨"Dim", false, .int32, [.byRef .int32, .value .unsupported]⟩

def lampUnit : StubUnit :=
  ⟨"A__B_Lamp", ["A", "B"], "Lamp", [],
    [(⟨"Set___STATIC__VOID__I4", setByNumber⟩, setStub), (⟨"Set___STATIC__VOID__Mode", setByMode⟩, setStub)]⟩

def bulbUnit : StubUnit :=
  ⟨"A__B_Lamp_Bulb\x601", ["A", "B"], "Lamp_Bulb\x601", [],
    [(⟨"Dim___I4__BYREF_I4__ABLampBulb\x601", dimming⟩, dimStub)]⟩

theorem read_studio :
    studio.typeCount = 3 ∧ studio.get TypeDef 0 = .ok modeType ∧ studio.get TypeDef 1 = .ok lampType ∧
    studio.get TypeDef 2 = .ok bulbType ∧ studio.className .identifier 0 = .ok "Mode" ∧
    studio.className .identifier 1 = .ok "A__B_Lamp" ∧
    studio.className .identifier 2 = .ok "A__B_Lamp_Bulb\x601" ∧
    studio.get MethodDef 0 = .ok (setter 0) ∧ studio.get MethodDef 1 = .ok (setter 4) ∧
    studio.get MethodDef 2 = .ok dimmer := by
  decide +kernel

theorem named_studio :
    studio.text lampType.name = .ok "Lamp" ∧ studio.text bulbType.name = .ok "Bulb\x601" ∧
    studio.typeName 1 = .ok "A..B.Lamp" ∧ studio.typeName 2 = .ok "A..B.Lamp_Bulb\x601" ∧
    studio.readSignature SignatureReader.method 0 = .ok setByNumber ∧
    studio.readSignature SignatureReader.method 4 = .ok setByMode ∧
    studio.readSignature SignatureReader.method 9 = .ok dimming ∧
    studio.methodIdentifier .interop (setter 0) setByNumber = .ok "Set___STATIC__VOID__I4" ∧
    studio.methodIdentifier .interop (setter 4) setByMode = .ok "Set___STATIC__VOID__Mode" ∧
    studio.methodIdentifier .interop dimmer dimming = .ok "Dim___I4__BYREF_I4__ABLampBulb\x601" := by
  decide +kernel

theorem based_studio :
    studio.Based .interop 0 setByNumber "Set___STATIC__VOID__I4" ∧
    studio.Based .interop 1 setByMode "Set___STATIC__VOID__Mode" ∧
    studio.Based .interop 2 dimming "Dim___I4__BYREF_I4__ABLampBulb\x601" := by
  obtain ⟨-, -, -, -, -, -, -, hfirst, hsecond, hdim⟩ := read_studio
  obtain ⟨-, -, -, -, hnumber, hmode, hdimming, hname₀, hname₁, hname₂⟩ := named_studio
  exact ⟨⟨_, hfirst, by decide, hnumber, hname₀⟩, ⟨_, hsecond, by decide, hmode, hname₁⟩,
    ⟨_, hdim, by decide, hdimming, hname₂⟩⟩

theorem plan_studio : studio.plan .interop = .ok studioPlans := by
  obtain ⟨hcount, hmode, hlamp, hbulb, hclass₀, hclass₁, hclass₂, hfirst, hsecond, hdim⟩ := read_studio
  obtain ⟨hbased₀, hbased₁, hbased₂⟩ := based_studio
  -- no form of the first name is the second, which has another letter behind the marks
  have hforms : ∀ n, 1 ≤ n → Namer.numbered "Set___STATIC__VOID__I4" n ≠ "Set___STATIC__VOID__Mode" := by
    intro n _ heq
    have hletter : (Namer.numbered "Set___STATIC__VOID__I4" n).toList[20]? = some 'I' := by
      unfold Namer.numbered
      split
      · rfl
      · rw [String.toList_append, String.toList_append]
        rfl
    rw [heq] at hletter
    cases hletter
  have hsetters : studio.planMethods .interop true .empty [0, 1] =
      .ok [⟨setter 0, some ⟨"Set___STATIC__VOID__I4", setByNumber⟩⟩,
        ⟨setter 4, some ⟨"Set___STATIC__VOID__Mode", setByMode⟩⟩] := by
    refine bind_eq_ok.2 ⟨_, hfirst, bind_eq_ok.2 ⟨_, hbased₀.planNative hfirst _, ?_⟩⟩
    refine bind_eq_ok.2 ⟨_, bind_eq_ok.2 ⟨_, hsecond, bind_eq_ok.2 ⟨_, hbased₁.planNative hsecond _, rfl⟩⟩, ?_⟩
    rw [((Namer.unused_empty _).next hforms).next_eq, (Namer.unused_empty _).next_eq]
    rfl
  have hdimmers : studio.planMethods .interop true .empty [2] =
      .ok [⟨dimmer, some ⟨"Dim___I4__BYREF_I4__ABLampBulb\x601", dimming⟩⟩] := by
    refine bind_eq_ok.2 ⟨_, hdim, bind_eq_ok.2 ⟨_, hbased₂.planNative hdim _, ?_⟩⟩
    rw [(Namer.unused_empty _).next_eq]
    rfl
  refine mapM_range_eq_ok.2 ⟨hcount.symm, fun i hi => ?_⟩
  match i, hi with
  | 0, _ => exact bind_eq_ok.2 ⟨_, hmode, bind_eq_ok.2 ⟨_, hclass₀, rfl⟩⟩
  | 1, _ => exact bind_eq_ok.2 ⟨_, hlamp, bind_eq_ok.2 ⟨_, hclass₁, bind_eq_ok.2 ⟨_, hsetters, rfl⟩⟩⟩
  | 2, _ => exact bind_eq_ok.2 ⟨_, hbulb, bind_eq_ok.2 ⟨_, hclass₂, bind_eq_ok.2 ⟨_, hdimmers, rfl⟩⟩⟩

theorem stubUnit_studio :
    studio.stubUnit .interop lampPlan = .ok lampUnit ∧ studio.stubUnit .interop bulbPlan = .ok bulbUnit := by
  decide +kernel

/-- A namespace with an empty part: the header opens two namespaces, but the class name holds two underscores. -/
theorem empty_part_missing_from_header :
    Assembly.load .bare studioImage = .ok studio ∧ studio.plan .interop = .ok studioPlans ∧
    studioPlans[1]? = some lampPlan ∧ studio.stubUnit .interop lampPlan = .ok lampUnit ∧
    studio.Enclosed 1 [lampType] ∧ studio.text lampType.name = .ok "Lamp" ∧
    studio.typeName 1 = .ok "A..B.Lamp" ∧ studio.className .identifier 1 = .ok "A__B_Lamp" ∧
    lampUnit.className = "A__B_Lamp" ∧
    "_".intercalate (lampUnit.namespaces ++ [lampUnit.structName]) = "A_B_Lamp" ∧ "A_B_Lamp" ≠ "A__B_Lamp" := by
  obtain ⟨-, -, hlamp, -, -, hclass, -⟩ := read_studio
  obtain ⟨hname, -, htype, -⟩ := named_studio
  exact ⟨load_studio, plan_studio, rfl, stubUnit_studio.1, Image.enclosed_outermost hlamp (by decide),
    hname, htype, hclass, rfl, rfl, by decide⟩

/-- The class inside: its type name is that of the class around it with its own behind an underscore. -/
theorem names_of_nested_types_bulb :
    studio.Nameable 2 ∧ studio.className .identifier 2 = .ok (Text.replaceChar '.' '_' "A..B.Lamp_Bulb\x601") ∧
    bulbUnit.namespaces ++ [bulbUnit.structName] = ["A", "B", "Lamp_Bulb\x601"] ∧
    (("_".intercalate (bulbUnit.namespaces ++ [bulbUnit.structName]) =
        Text.replaceChar '.' '_' "A..B.Lamp_Bulb\x601") ↔
      ∀ part ∈ "A..B.Lamp_Bulb\x601".toList.splitOn '.', part ≠ []) := by
  obtain ⟨-, -, hlamp, hbulb, -⟩ := read_studio
  obtain ⟨hlampName, hbulbName, -, htype, -⟩ := named_studio
  have henclosing : bulbType.enclosing? = some 1 := by decide
  have houter : studio.Enclosed (1 : UInt16).toNat [lampType] := Image.enclosed_outermost hlamp (by decide)
  have hchain : studio.Enclosed 2 [bulbType, lampType] := houter.more hbulb henclosing
  have hnames : ∀ t ∈ [bulbType, lampType], studio.text t.name ≠ .ok "" := by
    simp [hlampName, hbulbName]
  obtain ⟨-, hnameable, -, -, -, -, -, hall⟩ := studio.names_of_nested_types 2
  obtain ⟨hclass, hheader⟩ := hall _ _ hchain hnames htype
  obtain ⟨-, hopened, -, -, hflat⟩ := hheader .interop studioPlans bulbPlan bulbUnit plan_studio rfl stubUnit_studio.2
    "Home" ⟨"Home"⟩ _ (List.mem_cons_of_mem _ List.mem_cons_self) rfl
  have hparts : Naming.parts "A..B.Lamp_Bulb\x601" = ["A", "B", "Lamp_Bulb\x601"] := rfl
  rw [hparts] at hopened
  exact ⟨hnameable.1 ⟨_, htype⟩, hclass, hopened (List.cons_ne_nil _ _), hflat⟩

end Draft

end CompactAssembly
