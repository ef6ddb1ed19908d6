import CompactAssembly.Proofs.Enclosing
import CompactAssembly.Proofs.Instructions

/-!
# Marshaling code and the stub it calls

What is read around the call of a stub is laid beside the declaration of the stub: where each parameter is fetched
from, how it is passed, and what is stored behind the call (`Stub.Reading.LinesUp`).
-/

namespace CompactAssembly

theorem NativeType.variableType_eq_void_iff (type : NativeType) :
    type.variableType = "void" ↔ type.isVoid = true := by
  cases type <;> decide

namespace Stub

/-- What the texts of a stub say: the types of its declaration, what is passed between object and error code, and
the instructions before and behind the call. -/
structure Reading where
  result : String
  types : List String
  before : List Instruction
  arguments : List String
  after : List Instruction

/-- Declaration, definition and marshaling code of a stub in parts, of which the code around the call reads as
given. -/
structure Says (s : Stub) (r : Reading) : Prop where
  declaration : ∀ owner?, s.declaration owner? =
    r.result ++ " " ++ owner?.elim "" (fun owner => owner ++ "::") ++ s.name ++ "( " ++
      ", ".intercalate ((if s.isStatic then [] else ["CLR_RT_HeapBlock* pMngObj"]) ++
        r.types.zipIdx.map (fun (type, i) => type ++ " param" ++ toString i) ++ ["HRESULT &hr"]) ++ " )"
  definition : ∀ owner, s.emptyDefinition owner = s.declaration (some owner) ++ "\n\x7b\n" ++
    (if r.result = "void" then "" else "    " ++ r.result ++ " retVal = 0; \n    return retVal;\n") ++ "\x7d\n\n"
  marshaling : ∃ front back, Instruction.readAll front = some r.before ∧ Instruction.readAll back = some r.after ∧
    ∀ owner, s.marshalBody owner = front ++ (if r.result = "void" then "" else r.result ++ " retVal = ") ++
      owner ++ "::" ++ s.name ++ "( " ++
      ", ".intercalate ((if s.isStatic then [] else ["pMngObj"]) ++ r.arguments ++ ["hr"]) ++ " );" ++ back

variable (s : Stub)

def before : List Instruction :=
  [.enter, .openBlock] ++ (if s.isStatic then [] else [.object, .checkObject]) ++
    s.params.zipIdx.flatMap fun x => x.1.fetching x.2 (s.firstSlot + x.2)

def after : List Instruction :=
  [.checkCall] ++ (if s.result.isVoid then [] else [.setResult ("SetResult_" ++ s.result.marshalName)]) ++
    (s.params.zipIdx.flatMap fun x => x.1.storing x.2 (s.firstSlot + x.2)) ++ [.closeBlock, .leave]

def reading : Reading where
  result := s.result.variableType
  types := s.params.map Marshaled.paramType
  before := s.before
  arguments := s.params.zipIdx.map fun (param, i) => param.argument i
  after := s.after

theorem declaration_eq (owner? : Option String) : s.declaration owner? =
    s.result.variableType ++ " " ++ owner?.elim "" (fun owner => owner ++ "::") ++ s.name ++ "( " ++
      ", ".intercalate ((if s.isStatic then [] else ["CLR_RT_HeapBlock* pMngObj"]) ++
        (s.params.map Marshaled.paramType).zipIdx.map (fun (type, i) => type ++ " param" ++ toString i) ++
          ["HRESULT &hr"]) ++ " )" := by
  have hjoin : ∀ {texts : List String}, ", ".intercalate (texts ++ ["HRESULT &hr"]) =
      String.join (texts.map (· ++ ", ")) ++ "HRESULT &hr" := by
    intro texts
    induction texts with
    | nil => simp
    | cons text texts ih =>
      cases texts with
      | nil => simp [String.intercalate_cons_cons]
      | cons text' texts =>
        rw [List.cons_append, List.cons_append, String.intercalate_cons_cons, ← List.cons_append, ih]
        simp only [List.map_cons, String.join_cons, String.append_assoc]
  have hparams : String.join (((s.params.map Marshaled.paramType).zipIdx.map fun (type, i) =>
      type ++ " param" ++ toString i).map (· ++ ", ")) =
      String.join (s.params.zipIdx.map fun (param, i) => param.paramType ++ s!" param{i}, ") := by
    rw [List.zipIdx_map, List.map_map, List.map_map]
    refine congrArg String.join (List.map_congr_left fun (param, i) _ => ?_)
    rw [← String.toList_inj]
    simp [Text.toString_text]
  have hobject : "CLR_RT_HeapBlock* pMngObj, " = "CLR_RT_HeapBlock* pMngObj" ++ ", " ∧
      "HRESULT &hr )" = "HRESULT &hr" ++ " )" := by decide +kernel
  rw [hjoin, List.map_append, String.join_append, hparams, declaration, hobject.1, hobject.2]
  cases s.isStatic <;>
    simp only [Bool.false_eq_true, if_true, if_false, List.map_cons, List.map_nil, String.join_cons, String.join_nil,
      String.append_assoc, String.append_empty, String.empty_append]

theorem reads_front :
    Reads ("    NANOCLR_HEADER(); hr = S_OK;\n    \x7b\n" ++
      (if s.isStatic then "" else
        "        CLR_RT_HeapBlock* pMngObj = Interop_Marshal_RetrieveManagedObject( stack );\n\n" ++
        "        FAULT_ON_NULL(pMngObj);\n\n") ++
      String.join (s.params.zipIdx.map fun (param, i) => param.fetch i (s.firstSlot + i) ++ "\n")) s.before := by
  refine (Reads.append ?_ ?_).append (Reads.join fun (param, i) _ => ?_)
  · exact .lines "    NANOCLR_HEADER(); hr = S_OK;\n    \x7b".toList (by simp) (by simp only [String.reduceToList]; rfl)
  · split
    · exact Reads.empty
    · have hobject :
          Reads "        CLR_RT_HeapBlock* pMngObj = Interop_Marshal_RetrieveManagedObject( stack );\n\n" [.object] :=
        .lines "        CLR_RT_HeapBlock* pMngObj = Interop_Marshal_RetrieveManagedObject( stack );\n".toList
          (by simp) (by simp only [String.reduceToList]; rfl)
      exact hobject.append
        (.lines "        FAULT_ON_NULL(pMngObj);\n".toList (by simp) (by simp only [String.reduceToList]; rfl))
  · have hfetch := (param.reads_fetch i (s.firstSlot + i)).append .blank
    rwa [List.append_nil] at hfetch

theorem reads_back :
    Reads ("\n" ++ "        NANOCLR_CHECK_HRESULT( hr );\n" ++
      (if s.result.isVoid then "" else s!"        SetResult_{s.result.marshalName}( stack, retVal );\n\n") ++
      String.join (s.params.zipIdx.map fun (param, i) => param.store i (s.firstSlot + i)) ++
      "    \x7d\n    NANOCLR_NOCLEANUP();\n") s.after := by
  have hset : s!"        SetResult_{s.result.marshalName}( stack, retVal );\n\n" =
      "        " ++ ("SetResult_" ++ s.result.marshalName) ++ "( stack, retVal );\n" ++ "\n" := by
    rw [← String.toList_inj]
    simp [Text.toString_text]
  rw [hset]
  refine (((Reads.blank.append ?_).append ?_).append ?_).append ?_
  · exact .lines "        NANOCLR_CHECK_HRESULT( hr );".toList (by simp) (by simp only [String.reduceToList]; rfl)
  · split
    · exact Reads.empty
    · refine (Reads.setResult ?_ ?_).append .blank
      · cases s.result <;> decide
      · cases s.result <;> rfl
  · exact Reads.join fun (param, i) _ => param.reads_store i (s.firstSlot + i)
  · exact .lines "    \x7d\n    NANOCLR_NOCLEANUP();".toList (by simp) (by simp only [String.reduceToList]; rfl)

theorem says_reading : s.Says s.reading where
  declaration := s.declaration_eq
  definition := fun owner => by
    simp only [emptyDefinition, reading, s.result.variableType_eq_void_iff]
    rw [← String.toList_inj]
    cases s.result.isVoid <;> simp [Text.toString_text]
  marshaling := by
    have hindent : Text.sentences "        " = [] := by decide
    refine ⟨_, _, s.reads_front.readAll hindent, s.reads_back.readAll Text.sentences_empty, fun owner => ?_⟩
    delta marshalBody
    simp only [call, arguments, reading, s.result.variableType_eq_void_iff, String.append_assoc, String.append_empty]

/-- Slot of a parameter; the object takes slot 0. -/
def slotText (isStatic : Bool) (i : Nat) : String := toString (if isStatic then i else i + 1)

/-- The code around the call fits the declaration of a stub with a number of parameters. -/
structure Reading.LinesUp (r : Reading) (isStatic : Bool) (count : Nat) : Prop where
  types : r.types.length = count
  arguments : r.arguments.length = count
  object : r.before.count .object = if isStatic then 0 else 1
  fetched : r.before.filterMap Instruction.fetched? =
    (List.range count).map fun i => (slotText isStatic i, "param" ++ toString i)
  fetched_after : r.after.filterMap Instruction.fetched? = []
  stored_before : r.before.filterMap Instruction.stored? = []
  reference : ∀ i < count, ∀ type, r.types[i]? = some (type ++ "&") ↔
    .variable (type ++ "*") ("param" ++ toString i) ∈ r.before ∧ .heapBlock ("heapblock" ++ toString i) ∈ r.before ∧
    (∃ function, .fetchReference function ("heapblock" ++ toString i) (slotText isStatic i) ("param" ++ toString i) ∈
      r.before) ∧
    r.arguments[i]? = some ("*param" ++ toString i) ∧
    (r.after.filterMap Instruction.stored?).filter (fun store => store.1 = "heapblock" ++ toString i) =
      [("heapblock" ++ toString i, slotText isStatic i)]
  value : ∀ i < count, ∀ type, r.types[i]? = some type → (∀ inner, type ≠ inner ++ "&") →
    .variable type ("param" ++ toString i) ∈ r.before ∧ .heapBlock ("heapblock" ++ toString i) ∉ r.before ∧
    (∃ function, .fetch function (slotText isStatic i) ("param" ++ toString i) ∈ r.before) ∧
    r.arguments[i]? = some ("param" ++ toString i) ∧
    (r.after.filterMap Instruction.stored?).filter (fun store => store.1 = "heapblock" ++ toString i) = []
  result : r.before.filterMap Instruction.result? = [] ∧
    (r.result = "void" → r.after.filterMap Instruction.result? = []) ∧
    (r.result ≠ "void" → ∃ function, r.after.filterMap Instruction.result? = [function])

theorem paramType_eq_reference {m : Marshaled} {inner : String} :
    m.paramType = inner ++ "&" ↔ ∃ type, m = .byRef type ∧ type.variableType = inner := by
  constructor
  · intro h
    have hlast : m.paramType.toList.getLast? = some '&' := by
      rw [h, String.toList_append]
      simp
    have hother : ∀ type : NativeType, type.variableType.toList.getLast? ≠ some '&' ∧
        ("CLR_RT_TypedArray_" ++ type.marshalName).toList.getLast? ≠ some '&' := by
      intro type
      cases type <;> decide
    rcases m with type | type | type
    · exact absurd hlast (hother type).1
    · exact ⟨type, rfl, (String.append_left_inj "&").1 h⟩
    · exact absurd hlast (hother type).2
  · rintro ⟨type, rfl, rfl⟩
    rfl

theorem flatMap_zipIdx_ite {α β : Type} (g : α → List β) (xs : List α) (k i : Nat) :
    ((xs.zipIdx k).flatMap fun x => if x.2 = k + i then g x.1 else []) = xs[i]?.elim [] g := by
  induction xs generalizing k i with
  | nil => rfl
  | cons x xs ih =>
    rw [List.zipIdx_cons, List.flatMap_cons]
    cases i with
    | zero =>
      have hrest : ((xs.zipIdx (k + 1)).flatMap fun x => if x.2 = k + 0 then g x.1 else []) = [] := by
        rw [List.flatMap_eq_nil_iff]
        rintro ⟨y, j⟩ hmem
        have hle := List.le_snd_of_mem_zipIdx hmem
        exact if_neg (by simp at hle ⊢; omega)
      rw [hrest, List.append_nil]
      exact if_pos rfl
    | succ i =>
      have hk : k + (i + 1) = k + 1 + i := by omega
      rw [hk, ih, if_neg (by simp; omega)]
      rfl

theorem slotText_eq (i : Nat) : toString (s.firstSlot + i) = slotText s.isStatic i := by
  unfold firstSlot slotText
  cases s.isStatic <;> simp [Nat.add_comm]

theorem mem_before_iff {x : Instruction} (hx : x ∉ [.enter, .openBlock, .object, .checkObject]) : x ∈ s.before ↔
    ∃ (i : Nat) (param : Marshaled), s.params[i]? = some param ∧ x ∈ param.fetching i (s.firstSlot + i) := by
  have hframe : x ∉ [Instruction.enter, .openBlock] ++ if s.isStatic then [] else [.object, .checkObject] := by
    cases s.isStatic <;> simp_all
  rw [before, List.mem_append, or_iff_right hframe, List.mem_flatMap]
  constructor
  · rintro ⟨⟨param, i⟩, hmem, hx⟩
    exact ⟨i, param, List.mem_zipIdx_iff_getElem?.1 hmem, hx⟩
  · rintro ⟨i, param, hget, hx⟩
    exact ⟨(param, i), List.mem_zipIdx_iff_getElem?.2 hget, hx⟩

theorem filterMap_before {β : Type} {f : Instruction → Option β}
    (hf : [Instruction.enter, .openBlock, .object, .checkObject].filterMap f = []) :
    s.before.filterMap f = s.params.zipIdx.flatMap fun x => (x.1.fetching x.2 (s.firstSlot + x.2)).filterMap f := by
  rw [before, List.filterMap_append, List.filterMap_append, List.filterMap_flatMap]
  rw [List.filterMap_eq_nil_iff] at hf
  cases s.isStatic <;> simp_all

theorem filterMap_after {β : Type} {f : Instruction → Option β}
    (hf : [Instruction.checkCall, .closeBlock, .leave].filterMap f = []) : s.after.filterMap f =
      (if s.result.isVoid then [] else [Instruction.setResult ("SetResult_" ++ s.result.marshalName)].filterMap f) ++
        s.params.zipIdx.flatMap fun x => (x.1.storing x.2 (s.firstSlot + x.2)).filterMap f := by
  rw [after, List.filterMap_append, List.filterMap_append, List.filterMap_append, List.filterMap_flatMap]
  rw [List.filterMap_eq_nil_iff] at hf
  cases s.result.isVoid <;> simp_all

theorem stored_after (i : Nat) :
    (s.after.filterMap Instruction.stored?).filter (fun store => store.1 = "heapblock" ++ toString i) =
      s.params[i]?.elim [] fun param => (param.storing i (s.firstSlot + i)).filterMap Instruction.stored? := by
  rw [filterMap_after s rfl, ← flatMap_zipIdx_ite _ _ 0, List.filter_append, List.filter_flatMap]
  have hresult : (if s.result.isVoid then [] else
      [Instruction.setResult ("SetResult_" ++ s.result.marshalName)].filterMap Instruction.stored?) = [] := by
    cases s.result.isVoid <;> rfl
  rw [hresult, List.filter_nil, List.nil_append]
  congr 1
  funext x
  obtain ⟨param, j⟩ := x
  rcases param with type | type | type
  · simp [Marshaled.storing]
  · by_cases hj : j = i
    · simp [Marshaled.storing, Instruction.stored?, hj]
    · simp [Marshaled.storing, Instruction.stored?, hj]
  · simp [Marshaled.storing]

theorem variable_mem_before {type : String} {i : Nat} : .variable type ("param" ++ toString i) ∈ s.before ↔
    ∃ param slot, s.params[i]? = some param ∧ .variable type ("param" ++ toString i) ∈ param.fetching i slot := by
  rw [mem_before_iff s (by simp)]
  constructor
  · rintro ⟨j, param, hget, hmem⟩
    obtain rfl : i = j := by
      rcases param with inner | inner | inner <;> simp [Marshaled.fetching] at hmem <;> exact hmem.2
    exact ⟨param, _, hget, hmem⟩
  · rintro ⟨param, slot, hget, hmem⟩
    refine ⟨i, param, hget, ?_⟩
    rcases param with inner | inner | inner <;> simpa [Marshaled.fetching] using hmem

theorem heapBlock_mem_before {i : Nat} :
    .heapBlock ("heapblock" ++ toString i) ∈ s.before ↔ ∃ type, s.params[i]? = some (.byRef type) := by
  rw [mem_before_iff s (by simp)]
  constructor
  · rintro ⟨j, param, hget, hmem⟩
    rcases param with type | type | type
    · simp [Marshaled.fetching] at hmem
    · obtain rfl : i = j := by simpa [Marshaled.fetching] using hmem
      exact ⟨type, hget⟩
    · simp [Marshaled.fetching] at hmem
  · rintro ⟨type, hget⟩
    exact ⟨i, _, hget, by simp [Marshaled.fetching]⟩

theorem getElem?_arguments (i : Nat) :
    s.reading.arguments[i]? = s.params[i]?.map fun param => param.argument i := by
  simp [reading, Function.comp_def]

theorem getElem?_types (i : Nat) : s.reading.types[i]? = s.params[i]?.map Marshaled.paramType := by
  simp [reading]

theorem count_object_before : s.before.count .object = if s.isStatic then 0 else 1 := by
  have hfetching : Instruction.object ∉ s.params.zipIdx.flatMap fun x => x.1.fetching x.2 (s.firstSlot + x.2) := by
    rw [List.mem_flatMap]
    rintro ⟨⟨param, i⟩, -, hmem⟩
    rcases param with type | type | type <;> simp [Marshaled.fetching] at hmem
  rw [before, List.count_append, List.count_eq_zero_of_not_mem hfetching]
  cases s.isStatic <;> rfl

theorem fetched_before : s.before.filterMap Instruction.fetched? =
    (List.range s.params.length).map fun i => (slotText s.isStatic i, "param" ++ toString i) := by
  have hsnd : s.params.zipIdx.map Prod.snd = List.range s.params.length := by
    rw [List.zipIdx_map_snd, List.range_eq_range']
  have hone : ∀ x : Marshaled × Nat, (x.1.fetching x.2 (s.firstSlot + x.2)).filterMap Instruction.fetched? =
      [(slotText s.isStatic x.2, "param" ++ toString x.2)] := by
    rintro ⟨param, i⟩
    rw [← slotText_eq]
    cases param <;> rfl
  rw [filterMap_before s rfl, ← hsnd, List.map_map]
  simp only [hone]
  exact List.map_eq_flatMap.symm

theorem fetched_after : s.after.filterMap Instruction.fetched? = [] := by
  rw [filterMap_after s rfl, List.append_eq_nil_iff, List.flatMap_eq_nil_iff]
  refine ⟨?_, fun ⟨param, i⟩ _ => ?_⟩
  · cases s.result.isVoid <;> rfl
  · cases param <;> rfl

theorem stored_before : s.before.filterMap Instruction.stored? = [] := by
  rw [filterMap_before s rfl, List.flatMap_eq_nil_iff]
  rintro ⟨param, i⟩ -
  cases param <;> rfl

theorem result_before : s.before.filterMap Instruction.result? = [] := by
  rw [filterMap_before s rfl, List.flatMap_eq_nil_iff]
  rintro ⟨param, i⟩ -
  cases param <;> rfl

theorem result_after : s.after.filterMap Instruction.result? =
    if s.result.isVoid then [] else ["SetResult_" ++ s.result.marshalName] := by
  have hstoring : (s.params.zipIdx.flatMap fun x => (x.1.storing x.2 (s.firstSlot + x.2)).filterMap
      Instruction.result?) = [] := by
    rw [List.flatMap_eq_nil_iff]
    rintro ⟨param, i⟩ -
    cases param <;> rfl
  rw [filterMap_after s rfl, hstoring, List.append_nil]
  rfl

/-- A reference has a variable and memory of its own, is passed by its pointer and stored behind the call. -/
theorem reference_iff {i : Nat} {param : Marshaled} (hget : s.params[i]? = some param) (inner : String) :
    param.paramType = inner ++ "&" ↔
      .variable (inner ++ "*") ("param" ++ toString i) ∈ s.before ∧ .heapBlock ("heapblock" ++ toString i) ∈ s.before ∧
      (∃ function, .fetchReference function ("heapblock" ++ toString i) (slotText s.isStatic i)
        ("param" ++ toString i) ∈ s.before) ∧
      param.argument i = "*param" ++ toString i ∧
      (param.storing i (s.firstSlot + i)).filterMap Instruction.stored? =
        [("heapblock" ++ toString i, slotText s.isStatic i)] := by
  rw [paramType_eq_reference]
  constructor
  · rintro ⟨type, rfl, rfl⟩
    refine ⟨(variable_mem_before s).2 ⟨_, 0, hget, by simp [Marshaled.fetching]⟩,
      (heapBlock_mem_before s).2 ⟨type, hget⟩, ⟨"Interop_Marshal_" ++ type.marshalName ++ "_ByRef", ?_⟩, rfl, ?_⟩
    · exact (mem_before_iff s (by simp)).2 ⟨i, _, hget, by simp [Marshaled.fetching, ← slotText_eq]⟩
    · rw [← slotText_eq]
      rfl
  · -- memory of that number is there for a reference only, and its pointer tells the type
    rintro ⟨hvariable, hblock, -⟩
    obtain ⟨type, htype⟩ := (heapBlock_mem_before s).1 hblock
    obtain ⟨param', slot, hparam, hmem⟩ := (variable_mem_before s).1 hvariable
    obtain rfl := Option.some_inj.1 (hparam.symm.trans htype)
    refine ⟨type, Option.some_inj.1 (hget.symm.trans htype), ?_⟩
    have hinner : inner ++ "*" = type.variableType ++ "*" := by simpa [Marshaled.fetching] using hmem
    exact ((String.append_left_inj "*").1 hinner).symm

/-- Any other parameter is a variable of its type, passed as it is, with no memory and nothing stored. -/
theorem value_fits {i : Nat} {param : Marshaled} (hget : s.params[i]? = some param)
    (hvalue : ∀ inner, param ≠ .byRef inner) :
    .variable param.paramType ("param" ++ toString i) ∈ s.before ∧
    .heapBlock ("heapblock" ++ toString i) ∉ s.before ∧
    (∃ function, .fetch function (slotText s.isStatic i) ("param" ++ toString i) ∈ s.before) ∧
    param.argument i = "param" ++ toString i ∧
    (param.storing i (s.firstSlot + i)).filterMap Instruction.stored? = [] := by
  have hblock : .heapBlock ("heapblock" ++ toString i) ∉ s.before := by
    rw [heapBlock_mem_before]
    rintro ⟨inner, hinner⟩
    exact hvalue inner (Option.some_inj.1 (hget.symm.trans hinner))
  rw [variable_mem_before]
  rcases param with inner | inner | inner
  · refine ⟨⟨_, 0, hget, List.mem_cons_self⟩, hblock,
      ⟨"Interop_Marshal_" ++ inner.marshalName, ?_⟩, rfl, rfl⟩
    exact (mem_before_iff s (by simp)).2 ⟨i, _, hget, by simp [Marshaled.fetching, ← slotText_eq]⟩
  · exact absurd rfl (hvalue inner)
  · refine ⟨⟨_, 0, hget, List.mem_cons_self⟩, hblock,
      ⟨"Interop_Marshal_" ++ inner.marshalName ++ "_ARRAY", ?_⟩, rfl, rfl⟩
    exact (mem_before_iff s (by simp)).2 ⟨i, _, hget, by simp [Marshaled.fetching, ← slotText_eq]⟩

theorem lines_up : s.reading.LinesUp s.isStatic s.params.length where
  types := by simp [reading]
  arguments := by simp [reading]
  object := s.count_object_before
  fetched := s.fetched_before
  fetched_after := s.fetched_after
  stored_before := s.stored_before
  reference := by
    intro i hi inner
    have hget : s.params[i]? = some s.params[i] := List.getElem?_eq_getElem hi
    rw [getElem?_types, getElem?_arguments, hget, reading, stored_after, hget, Option.map_some, Option.map_some,
      Option.some_inj, Option.some_inj]
    exact s.reference_iff hget inner
  value := by
    intro i hi type htype hvalue
    have hget : s.params[i]? = some s.params[i] := List.getElem?_eq_getElem hi
    rw [getElem?_types, hget, Option.map_some, Option.some_inj] at htype
    subst htype
    have hplain : ∀ inner, s.params[i] ≠ .byRef inner :=
      fun inner hinner => hvalue _ (paramType_eq_reference.2 ⟨inner, hinner, rfl⟩)
    rw [getElem?_arguments, hget, reading, stored_after, hget, Option.map_some, Option.some_inj]
    exact s.value_fits hget hplain
  result := by
    refine ⟨s.result_before, ?_⟩
    rw [reading, result_after, ne_eq, s.result.variableType_eq_void_iff]
    refine ⟨fun hvoid => if_pos hvoid, fun hvoid => ?_⟩
    rw [if_neg hvoid]
    exact ⟨_, rfl⟩

end Stub

def Text.Within (part whole : String) : Prop := ∃ before after, whole = before ++ part ++ after

namespace Text.Within
variable {part whole : String}

theorem append_left (h : Within part whole) (front : String) : Within part (front ++ whole) := by
  obtain ⟨before, after, rfl⟩ := h
  exact ⟨front ++ before, after, by simp only [String.append_assoc]⟩

theorem append_right (h : Within part whole) (back : String) : Within part (whole ++ back) := by
  obtain ⟨before, after, rfl⟩ := h
  exact ⟨before, after ++ back, by simp only [String.append_assoc]⟩

theorem join {α : Type} {text : α → String} {xs : List α} {x : α} (hx : x ∈ xs) (h : Within part (text x)) :
    Within part (String.join (xs.map text)) := by
  obtain ⟨front, back, rfl⟩ := List.append_of_mem hx
  rw [List.map_append, String.join_append, List.map_cons, String.join_cons]
  exact (h.append_right _).append_left _

theorem nested {body : String → String} (h : ∀ indent, Within part (body indent)) (indent : String)
    (namespaces : List String) : Within part (StubUnit.nested indent namespaces body) := by
  induction namespaces generalizing indent with
  | nil => exact h indent
  | cons name names ih =>
    rw [StubUnit.nested]
    exact ((ih _).append_left _).append_right _

end Text.Within

/-- The files of a unit hold the declaration, the definition and the marshaling code of each of its stubs. -/
theorem StubUnit.files_hold_stub {u : StubUnit} {native : NativeMethod} {s : Stub} (h : (native, s) ∈ u.stubs)
    {fileName : String} {stem : Path} {artifact : Artifact} (hartifact : artifact ∈ u.artifacts fileName stem) :
    (artifact.kind = .marshal → Text.Within (Artifact.methodDefinition fileName u.className native.identifier
      (s.marshalBody u.structName)) artifact.contents) ∧
    (artifact.kind = .stubHeader → Text.Within ("static " ++ s.declaration none ++ ";\n") artifact.contents) ∧
    (artifact.kind = .stubSource → Text.Within (s.emptyDefinition u.structName) artifact.contents) := by
  have hself : ∀ text : String, Text.Within text text := fun text => ⟨"", "", by simp⟩
  simp only [artifacts, List.mem_cons, List.not_mem_nil, or_false] at hartifact
  rcases hartifact with rfl | rfl | rfl
  · refine ⟨fun _ => ?_, by simp, by simp⟩
    exact (Text.Within.join h (hself _)).append_left _
  · refine ⟨by simp, fun _ => ?_, by simp⟩
    refine ((Text.Within.nested (fun outer => ?_) _ _).append_left _).append_right _
    refine ((Text.Within.join h ?_).append_left _).append_right _
    refine ⟨outer ++ "    ", "", ?_⟩
    rw [← String.toList_inj]
    simp [Text.toString_text]
  · refine ⟨by simp, by simp, fun _ => ?_⟩
    exact (Text.Within.join h (hself _)).append_left _

namespace Assembly
variable {a : Assembly} {policy : NamingPolicy}

theorem stub_ok_iff {m : MethodDef} {signature : MethodSignature} {s : Stub} :
    a.stub policy m signature = .ok s ↔ ∃ name result params, a.text m.name = .ok name ∧
      a.marshaled signature.result = .ok result ∧
      List.Forall₂ (fun e param => a.marshaled e = .ok param) signature.params params ∧
      s = ⟨Naming.escape policy name, m.isStatic, result.resultType, params⟩ := by
  unfold Image.stub
  simp only [bind_eq_ok, mapM_eq_ok]
  constructor
  · rintro ⟨name, hname, result, hresult, params, hparams, ⟨⟩⟩
    exact ⟨name, result, params, hname, hresult, hparams, rfl⟩
  · rintro ⟨name, result, params, hname, hresult, hparams, rfl⟩
    exact ⟨name, hname, result, hresult, params, hparams, rfl⟩

/-- The stub of a native method is there if its types can be marshaled. The declaration, the definition and the
marshaling code that the files hold of it name one type of result, and fit each other parameter by parameter. -/
theorem marshaling_fits_stub {plans : List TypePlan} {plan : TypePlan} {m : MethodDef} {native : NativeMethod}
    (hplans : a.plan policy = .ok plans) (hplan : plan ∈ plans) (hnative : (m, native) ∈ plan.natives)
    (hparams : ∀ e ∈ native.signature.params, ∃ param, a.marshaled e = .ok param) :
    ((∃ s, a.stub policy m native.signature = .ok s) ↔ ∃ result, a.marshaled native.signature.result = .ok result) ∧
    ∀ s, a.stub policy m native.signature = .ok s → ∃ r : Stub.Reading,
      s.Says r ∧ s.isStatic = m.isStatic ∧ r.LinesUp m.isStatic native.signature.params.length ∧
      (∃ result, a.marshaled native.signature.result = .ok result ∧ r.result = result.resultType.variableType) ∧
      List.Forall₂ (fun e type => ∃ param, a.marshaled e = .ok param ∧ type = param.paramType)
        native.signature.params r.types ∧
      ∀ u, a.stubUnit policy plan = .ok u → ∀ fileName stem, ∀ artifact ∈ u.artifacts fileName stem,
        (artifact.kind = .marshal → Text.Within (Artifact.methodDefinition fileName u.className native.identifier
          (s.marshalBody u.structName)) artifact.contents) ∧
        (artifact.kind = .stubHeader → Text.Within ("static " ++ s.declaration none ++ ";\n") artifact.contents) ∧
        (artifact.kind = .stubSource → Text.Within (s.emptyDefinition u.structName) artifact.contents) := by
  have hof := Image.nativeOf_of_plan hplans hplan hnative
  refine ⟨⟨?_, ?_⟩, ?_⟩
  · rintro ⟨s, hs⟩
    obtain ⟨name, result, params, -, hresult, -, -⟩ := stub_ok_iff.1 hs
    exact ⟨result, hresult⟩
  · rintro ⟨result, hresult⟩
    obtain ⟨name, hname⟩ := hof.exists_name
    obtain ⟨params, hparams⟩ := exists_of_forall_mapM hparams
    exact ⟨_, stub_ok_iff.2 ⟨name, result, params, hname, hresult, mapM_eq_ok.1 hparams, rfl⟩⟩
  · intro s hs
    have hunit : ∀ u, a.stubUnit policy plan = .ok u → (native, s) ∈ u.stubs := fun u hu => mem_stubs hu hnative hs
    obtain ⟨name, result, params, hname, hresult, hall, rfl⟩ := stub_ok_iff.1 hs
    refine ⟨_, Stub.says_reading _, rfl, ?_, ⟨result, hresult, rfl⟩, ?_, ?_⟩
    · rw [hall.length_eq]
      exact Stub.lines_up _
    · exact List.forall₂_map_right_iff.2 (hall.imp fun e param hparam => ⟨param, hparam, rfl⟩)
    · intro u hu fileName stem artifact hartifact
      exact StubUnit.files_hold_stub (hunit u hu) hartifact

end Assembly

namespace Draft

/-- An instance method with a reference and with a parameter that has no native type. -/
theorem marshaling_fits_stub_dim :
    studio.stub .interop dimmer dimming = .ok dimStub ∧ ∃ r : Stub.Reading, dimStub.Says r ∧ r.LinesUp false 2 ∧
      r.result = "int32_t" ∧ r.types = ["int32_t&", "UNSUPPORTED_TYPE"] ∧
      ∀ artifact ∈ bulbUnit.artifacts "Home" ⟨"Home"⟩, artifact.kind = .marshal →
        Text.Within (Artifact.methodDefinition "Home" bulbUnit.className "Dim___I4__BYREF_I4__ABLampBulb\x601"
          (dimStub.marshalBody bulbUnit.structName)) artifact.contents := by
  have hplan : bulbPlan ∈ studioPlans := by simp [studioPlans]
  have hparams : ∀ e ∈ dimming.params, ∃ param, studio.marshaled e = .ok param := by
    intro e he
    have hcases : e = .byRef (.primitive .i4) ∨ e = .classType ⟨0x04000002⟩ := by simpa [dimming] using he
    rcases hcases with rfl | rfl
    · exact ⟨.byRef .int32, rfl⟩
    · exact ⟨.value .unsupported, rfl⟩
  have hnative : (dimmer, ⟨"Dim___I4__BYREF_I4__ABLampBulb\x601", dimming⟩) ∈ bulbPlan.natives := by
    simp [bulbPlan, TypePlan.natives]
  obtain ⟨-, hstubs⟩ := Assembly.marshaling_fits_stub plan_studio hplan hnative hparams
  have hstub : studio.stub .interop dimmer dimming = .ok dimStub := by decide +kernel
  obtain ⟨r, hsays, -, hfits, ⟨result, hresult, heq⟩, htypes, hfiles⟩ := hstubs dimStub hstub
  refine ⟨hstub, r, hsays, hfits, ?_, ?_, ?_⟩
  · cases hresult
    exact heq
  · rcases r with ⟨_, types, _, _, _⟩
    rcases htypes with _ | ⟨⟨param, hparam, rfl⟩, _ | ⟨⟨param', hparam', rfl⟩, ⟨⟩⟩⟩
    cases hparam
    cases hparam'
    rfl
  · intro artifact hartifact hkind
    exact (hfiles bulbUnit stubUnit_studio.2 "Home" ⟨"Home"⟩ artifact hartifact).1 hkind

end Draft

end CompactAssembly
