import CompactAssembly.Proofs.Natives

/-!
# Marshaling code read back

Marshaling code is read line by line, each line by its words, without looking at how it was written
(`Instruction.readAll`). What fetches a parameter from the stack and what stores it back reads as the instructions
one expects (`Marshaled.reads_fetch`, `Marshaled.reads_store`).
-/

namespace CompactAssembly

namespace Text

/-- Whether a character stands between words of code. -/
def isBetween (c : Char) : Bool := [' ', ',', '(', ')', ';', '[', ']', '\n'].contains c

def words (line : List Char) : List String := ((line.splitOnP isBetween).filter (· ≠ [])).map String.ofList

def sentences (code : String) : List (List String) := ((split '\n' code.toList).map words).filter (· ≠ [])

/-- A text that is one word. -/
structure IsWord (text : String) : Prop where
  ne_empty : text ≠ ""
  letters : ∀ c ∈ text.toList, isBetween c = false

section
variable {c : Char} {word : String}

@[simp] theorem words_nil : words [] = [] := by simp [words]

theorem words_between (cs ds : List Char) (hc : isBetween c = true) : words (cs ++ c :: ds) = words cs ++ words ds := by
  unfold words
  rw [List.splitOnP_append_cons cs ds hc, List.filter_append, List.map_append]

theorem words_cons_between (ds : List Char) (hc : isBetween c = true) : words (c :: ds) = words ds := by
  simpa using words_between [] ds hc

theorem words_word (h : IsWord word) : words word.toList = [word] := by
  rw [words, List.splitOnP_eq_singleton fun c hc => by simp [h.letters c hc]]
  simp [h.ne_empty]

theorem words_word_append (h : IsWord word) (ds : List Char) (hc : isBetween c = true) :
    words (word.toList ++ c :: ds) = word :: words ds := by
  rw [words_between _ _ hc, words_word h]
  rfl

theorem words_intercalate {args : List String} (h : ∀ arg ∈ args, IsWord arg) (ds : List Char) :
    words ((", ".intercalate args).toList ++ ' ' :: ds) = args ++ words ds := by
  induction args with
  | nil => exact words_cons_between ds rfl
  | cons arg args ih =>
    have harg := h arg List.mem_cons_self
    have ih := ih fun arg harg => h arg (List.mem_cons_of_mem _ harg)
    cases args with
    | nil => simpa using words_word_append harg ds rfl
    | cons arg' args =>
      have hcomma : ", ".toList = [',', ' '] := rfl
      simp only [String.intercalate_cons_cons, String.toList_append, List.append_assoc, hcomma, List.cons_append,
        List.nil_append]
      rw [words_word_append harg _ rfl, words_cons_between _ rfl, ih]
      rfl

theorem IsWord.newline_not_mem (h : IsWord word) : '\n' ∉ word.toList :=
  fun hmem => absurd (h.letters '\n' hmem) (by decide)

theorem newline_not_mem_intercalate {args : List String} (h : ∀ arg ∈ args, IsWord arg) :
    '\n' ∉ [',', ' '].intercalate (args.map String.toList) := by
  rw [mem_intercalate_iff (by decide)]
  rintro ⟨_, hmem, hnewline⟩
  obtain ⟨arg, harg, rfl⟩ := List.mem_map.1 hmem
  exact (h arg harg).newline_not_mem hnewline

theorem isWord_iff {text : String} : IsWord text ↔ text ≠ "" ∧ text.toList.all (fun c => !isBetween c) = true := by
  simp only [List.all_eq_true, Bool.not_eq_true']
  exact ⟨fun ⟨hne, hall⟩ => ⟨hne, hall⟩, fun ⟨hne, hall⟩ => ⟨hne, hall⟩⟩

instance (text : String) : Decidable (IsWord text) := decidable_of_iff _ isWord_iff.symm

theorem IsWord.append {front back : String} (hfront : IsWord front) (hback : IsWord back) : IsWord (front ++ back) := by
  refine ⟨by simp [hfront.ne_empty], fun c hc => ?_⟩
  rw [String.toList_append, List.mem_append] at hc
  exact hc.elim (hfront.letters c) (hback.letters c)

theorem isWord_digits (n : Nat) : IsWord (toString n) := by
  have hlist : (toString n).toList = Nat.toDigits 10 n := Nat.toList_repr
  refine ⟨fun hempty => ?_, fun c hc => ?_⟩
  · rw [hempty] at hlist
    exact Nat.toDigits_ne_nil hlist.symm
  · have hdigit := Nat.isDigit_of_mem_toDigits (by decide) (by decide) (hlist ▸ hc)
    rw [Bool.eq_false_iff]
    intro hbetween
    have hcases : c ∈ [' ', ',', '(', ')', ';', '[', ']', '\n'] := List.contains_iff_mem.1 hbetween
    simp only [List.mem_cons, List.not_mem_nil, or_false] at hcases
    rcases hcases with rfl | rfl | rfl | rfl | rfl | rfl | rfl | rfl <;> revert hdigit <;> decide

@[simp] theorem sentences_empty : sentences "" = [] := by simp [sentences, split]

theorem sentences_append {code : String} {letters : List Char} (hcode : code.toList = letters ++ ['\n'])
    (rest : String) :
    sentences (code ++ rest) = ((split '\n' letters).map words).filter (· ≠ []) ++ sentences rest := by
  unfold sentences
  rw [String.toList_append, hcode, List.append_assoc, List.singleton_append, split_append, List.map_append,
    List.filter_append]

end

end Text

/-- What a line of marshaling code does. -/
inductive Instruction where
  /-- `NANOCLR_HEADER` with no error so far. -/
  | enter
  | openBlock
  /-- The object that the method is called on. -/
  | object
  | checkObject
  | variable (type name : String)
  /-- Memory for a reference. -/
  | heapBlock (name : String)
  /-- Reads a slot of the stack into a variable. -/
  | fetch (function slot target : String)
  /-- Reads a slot of the stack into a pointer, with memory behind it. -/
  | fetchReference (function memory slot target : String)
  | checkCall
  | setResult (function : String)
  /-- Writes memory back into a slot of the stack. -/
  | storeReference (memory slot : String)
  | closeBlock
  | leave
  deriving DecidableEq, Repr

namespace Instruction

def readCheck? : List String → Option Instruction
  | ["hr"] => some .checkCall
  | [function, "stack", first, second] =>
    if function = "Interop_Marshal_StoreRef" then some (.storeReference first second)
    else some (.fetch function first second)
  | [function, "stack", memory, slot, target] => some (.fetchReference function memory slot target)
  | _ => none

/-- The instruction of a line with given words, if there is one. -/
def read? : List String → Option Instruction
  | "NANOCLR_CHECK_HRESULT" :: call => readCheck? call
  | [word] =>
    if word = "\x7b" then some .openBlock else if word = "\x7d" then some .closeBlock
    else if word = "NANOCLR_NOCLEANUP" then some .leave else none
  | [type, name] => if type = "FAULT_ON_NULL" then some .checkObject else some (.variable type name)
  | [first, second, third] =>
    if first = "const" then some (.variable ("const " ++ second) third)
    else if third = "CLR_RT_HEAP_BLOCK_SIZE" then some (.heapBlock second)
    else if [second, third] = ["stack", "retVal"] then some (.setResult first) else none
  | ["NANOCLR_HEADER", "hr", "=", "S_OK"] => some .enter
  | ["CLR_RT_HeapBlock*", "pMngObj", "=", "Interop_Marshal_RetrieveManagedObject", "stack"] => some .object
  | _ => none

/-- The instructions of code of which every line can be read. -/
def readAll (code : String) : Option (List Instruction) := (Text.sentences code).mapM read?

/-- The slot that is fetched and the variable it goes to. -/
def fetched? : Instruction → Option (String × String)
  | fetch _ slot target | fetchReference _ _ slot target => some (slot, target)
  | _ => none

/-- The memory that is written back and the slot it goes to. -/
def stored? : Instruction → Option (String × String)
  | storeReference memory slot => some (memory, slot)
  | _ => none

def result? : Instruction → Option String
  | setResult function => some function
  | _ => none

end Instruction

/-- Code that reads as instructions, whatever follows it. -/
def Reads (code : String) (instructions : List Instruction) : Prop :=
  ∃ lines, (∀ rest, Text.sentences (code ++ rest) = lines ++ Text.sentences rest) ∧
    lines.mapM Instruction.read? = some instructions

namespace Reads
variable {code code' : String} {instructions instructions' : List Instruction} {i : Instruction}

theorem empty : Reads "" [] := ⟨[], fun rest => by simp, rfl⟩

theorem append (h : Reads code instructions) (h' : Reads code' instructions') :
    Reads (code ++ code') (instructions ++ instructions') := by
  obtain ⟨lines, hlines, hread⟩ := h
  obtain ⟨lines', hlines', hread'⟩ := h'
  refine ⟨lines ++ lines', fun rest => ?_, ?_⟩
  · rw [String.append_assoc, hlines, hlines', List.append_assoc]
  · rw [List.mapM_append, hread, hread']
    rfl

theorem lines (letters : List Char) (hcode : code.toList = letters ++ ['\n'])
    (hread : (((Text.split '\n' letters).map Text.words).filter (· ≠ [])).mapM Instruction.read? = some instructions) :
    Reads code instructions := ⟨_, Text.sentences_append hcode, hread⟩

theorem blank : Reads "\n" [] := lines [] rfl rfl

theorem line (letters : List Char) (hcode : code.toList = letters ++ ['\n']) (hline : '\n' ∉ letters)
    {ws : List String} (hwords : Text.words letters = ws) (hread : Instruction.read? ws = some i) : Reads code [i] := by
  have hsome : ws ≠ [] := by
    rintro rfl
    cases hread
  refine lines letters hcode ?_
  simp [Text.split_of_not_mem hline, hwords, hsome, hread]

theorem join {α : Type} {xs : List α} {text : α → String} {reading : α → List Instruction}
    (h : ∀ x ∈ xs, Reads (text x) (reading x)) : Reads (String.join (xs.map text)) (xs.flatMap reading) := by
  induction xs with
  | nil => exact empty
  | cons x xs ih =>
    rw [List.map_cons, String.join_cons, List.flatMap_cons]
    exact (h x List.mem_cons_self).append (ih fun x hx => h x (List.mem_cons_of_mem _ hx))

theorem readAll (h : Reads code instructions) {rest : String} (hrest : Text.sentences rest = []) :
    Instruction.readAll (code ++ rest) = some instructions := by
  obtain ⟨lines, hlines, hread⟩ := h
  rw [Instruction.readAll, hlines, hrest, List.append_nil, hread]

section
variable {function name type : String} {args : List String}

theorem check (hfunction : Text.IsWord function) (hargs : ∀ arg ∈ args, Text.IsWord arg)
    (hread : Instruction.readCheck? (function :: args) = some i) :
    Reads ("        NANOCLR_CHECK_HRESULT( " ++ function ++ "( " ++ ", ".intercalate args ++ " ) );\n") [i] := by
  have hcheck : Instruction.read? ("NANOCLR_CHECK_HRESULT" :: function :: args) = some i := by
    simpa [Instruction.read?] using hread
  refine line ("        NANOCLR_CHECK_HRESULT(".toList ++ ' ' :: (function.toList ++ '(' :: ' ' ::
    ((", ".intercalate args).toList ++ ' ' :: ") );".toList))) (by simp) ?_ ?_ hcheck
  · simp [hfunction.newline_not_mem, Text.newline_not_mem_intercalate hargs]
  · rw [Text.words_between _ _ rfl, Text.words_word_append hfunction _ rfl, Text.words_cons_between _ rfl,
      Text.words_intercalate hargs, show Text.words ") );".toList = [] from rfl, List.append_nil]
    rfl

theorem declared (hname : Text.IsWord name) (htype : '\n' ∉ type.toList)
    (hread : Instruction.read? (Text.words type.toList ++ [name]) = some i) :
    Reads ("        " ++ type ++ " " ++ name ++ ";\n") [i] := by
  refine line ("       ".toList ++ ' ' :: (type.toList ++ ' ' :: (name.toList ++ ';' :: []))) (by simp) ?_ ?_ hread
  · simp [htype, hname.newline_not_mem]
  · rw [Text.words_between _ _ rfl, Text.words_between _ _ rfl, Text.words_word_append hname _ rfl]
    rfl

theorem heapBlock (hname : Text.IsWord name) :
    Reads ("        uint8_t " ++ name ++ "[CLR_RT_HEAP_BLOCK_SIZE];\n") [.heapBlock name] := by
  have hread : Instruction.read? ["uint8_t", name, "CLR_RT_HEAP_BLOCK_SIZE"] = some (.heapBlock name) := by
    simp [Instruction.read?]
  refine line ("        uint8_t".toList ++ ' ' :: (name.toList ++ '[' :: "CLR_RT_HEAP_BLOCK_SIZE];".toList))
    (by simp) ?_ ?_ hread
  · simp [hname.newline_not_mem]
  · rw [Text.words_between _ _ rfl, Text.words_word_append hname _ rfl]
    rfl

theorem setResult (hfunction : Text.IsWord function)
    (hread : Instruction.read? [function, "stack", "retVal"] = some i) :
    Reads ("        " ++ function ++ "( stack, retVal );\n") [i] := by
  refine line ("       ".toList ++ ' ' :: (function.toList ++ '(' :: " stack, retVal );".toList)) (by simp) ?_ ?_ hread
  · simp [hfunction.newline_not_mem]
  · rw [Text.words_between _ _ rfl, Text.words_word_append hfunction _ rfl]
    rfl

end

end Reads

namespace Marshaled

def fetching (m : Marshaled) (i slot : Nat) : List Instruction :=
  match m with
  | value type => [.variable type.variableType ("param" ++ toString i),
      .fetch ("Interop_Marshal_" ++ type.marshalName) (toString slot) ("param" ++ toString i)]
  | byRef type => [.variable (type.variableType ++ "*") ("param" ++ toString i), .heapBlock ("heapblock" ++ toString i),
      .fetchReference ("Interop_Marshal_" ++ type.marshalName ++ "_ByRef") ("heapblock" ++ toString i) (toString slot)
        ("param" ++ toString i)]
  | array type => [.variable ("CLR_RT_TypedArray_" ++ type.marshalName) ("param" ++ toString i),
      .fetch ("Interop_Marshal_" ++ type.marshalName ++ "_ARRAY") (toString slot) ("param" ++ toString i)]

def storing (m : Marshaled) (i slot : Nat) : List Instruction :=
  match m with
  | byRef _ => [.storeReference ("heapblock" ++ toString i) (toString slot)]
  | value _ | array _ => []

theorem isWord_param (i : Nat) : Text.IsWord ("param" ++ toString i) :=
  .append (by decide) (Text.isWord_digits i)

theorem isWord_heapBlock (i : Nat) : Text.IsWord ("heapblock" ++ toString i) :=
  .append (by decide) (Text.isWord_digits i)

theorem isWord_marshal (type : NativeType) : Text.IsWord ("Interop_Marshal_" ++ type.marshalName) := by
  cases type <;> decide

theorem fetch_eq (m : Marshaled) (i slot : Nat) : m.fetch i slot =
    match m with
    | value type => "        " ++ type.variableType ++ " " ++ ("param" ++ toString i) ++ ";\n" ++
        ("        NANOCLR_CHECK_HRESULT( " ++ ("Interop_Marshal_" ++ type.marshalName) ++ "( " ++
          ", ".intercalate ["stack", toString slot, "param" ++ toString i] ++ " ) );\n")
    | byRef type => "        " ++ (type.variableType ++ "*") ++ " " ++ ("param" ++ toString i) ++ ";\n" ++
        ("        uint8_t " ++ ("heapblock" ++ toString i) ++ "[CLR_RT_HEAP_BLOCK_SIZE];\n") ++
        ("        NANOCLR_CHECK_HRESULT( " ++ ("Interop_Marshal_" ++ type.marshalName ++ "_ByRef") ++ "( " ++
          ", ".intercalate ["stack", "heapblock" ++ toString i, toString slot, "param" ++ toString i] ++ " ) );\n")
    | array type =>
        "        " ++ ("CLR_RT_TypedArray_" ++ type.marshalName) ++ " " ++ ("param" ++ toString i) ++ ";\n" ++
        ("        NANOCLR_CHECK_HRESULT( " ++ ("Interop_Marshal_" ++ type.marshalName ++ "_ARRAY") ++ "( " ++
          ", ".intercalate ["stack", toString slot, "param" ++ toString i] ++ " ) );\n") := by
  rw [← String.toList_inj]
  delta fetch
  cases m <;> simp [Text.toString_text]

theorem store_eq (m : Marshaled) (i slot : Nat) : m.store i slot =
    match m with
    | byRef _ => "        NANOCLR_CHECK_HRESULT( " ++ "Interop_Marshal_StoreRef" ++ "( " ++
        ", ".intercalate ["stack", "heapblock" ++ toString i, toString slot] ++ " ) );\n"
    | value _ | array _ => "" := by
  rw [← String.toList_inj]
  delta store
  cases m <;> simp [Text.toString_text]

theorem reads_fetch (m : Marshaled) (i slot : Nat) : Reads (m.fetch i slot) (m.fetching i slot) := by
  have hparam := isWord_param i
  have hheap := isWord_heapBlock i
  have hslot := Text.isWord_digits slot
  have hstack : Text.IsWord "stack" := by decide
  have hargs : ∀ arg ∈ ["stack", toString slot, "param" ++ toString i], Text.IsWord arg := by
    simp only [List.forall_mem_cons, hstack, hslot, hparam, true_and]
    exact nofun
  rw [fetch_eq]
  rcases m with type | type | type
  · refine (Reads.declared hparam ?_ ?_).append (Reads.check (isWord_marshal type) hargs ?_)
    · cases type <;> decide
    · cases type <;> rfl
    · cases type <;> rfl
  · have hargs' := List.forall_mem_cons.2 ⟨hstack, List.forall_mem_cons.2 ⟨hheap, (List.forall_mem_cons.1 hargs).2⟩⟩
    refine ((Reads.declared hparam ?_ ?_).append (Reads.heapBlock hheap)).append
      (Reads.check ((isWord_marshal type).append (by decide)) hargs' rfl)
    · cases type <;> decide
    · cases type <;> rfl
  · refine (Reads.declared hparam ?_ ?_).append (Reads.check ((isWord_marshal type).append (by decide)) hargs ?_)
    · cases type <;> decide
    · cases type <;> rfl
    · cases type <;> rfl

theorem reads_store (m : Marshaled) (i slot : Nat) : Reads (m.store i slot) (m.storing i slot) := by
  rw [store_eq]
  rcases m with type | type | type
  · exact Reads.empty
  · refine Reads.check (by decide) ?_ rfl
    have hstack : Text.IsWord "stack" := by decide
    simp only [List.forall_mem_cons, hstack, isWord_heapBlock i, Text.isWord_digits slot, true_and]
    exact nofun
  · exact Reads.empty

end Marshaled

end CompactAssembly
