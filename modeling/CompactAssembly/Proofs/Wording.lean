import CompactAssembly.Artifact.Skeleton

/-!
# The wording of the generated files

What the files say of fields and native methods, written out word for word: the struct of a class in a header, the
lookup table, the definition of a native method. The generator puts the same texts together from parts that it shares
between files (`HeaderBlock.text_eq`, `LookupTable.text_eq`, `Artifact.methodDefinition_eq`).
-/

namespace CompactAssembly

namespace Wording

/-- The line of a constant. Angle brackets in a name show that a compiler made it up: the name goes into a comment. -/
def constant (mark name : String) (value : Nat) : String :=
  if '<' ∈ name.toList ∨ '>' ∈ name.toList then
    "    // Something wrong with this field. Possibly its backing field is missing (mandatory for nanoFramework).\n" ++
    "    // " ++ name ++ "\n" ++
    "    static const int " ++ mark ++ "**THIS_FIELD_IS_NOT_CORRECT_CHECK_MANAGED_CODE** = " ++ toString value ++ ";\n"
  else "    static const int " ++ mark ++ name ++ " = " ++ toString value ++ ";\n"

def constants (mark : String) (fields : List (String × Nat)) : String :=
  if fields = [] then "" else String.join (fields.map fun (name, value) => constant mark name value) ++ "\n"

/-- The struct of a class: its static fields, its instance fields and its native methods. -/
def block (fileName className : String) (statics instances : List (String × Nat)) (identifiers : List String) :
    String :=
  if statics = [] ∧ instances = [] ∧ identifiers = [] then ""
  else "struct Library_" ++ fileName ++ "_" ++ className ++ "\n\x7b\n" ++
    constants "FIELD_STATIC__" statics ++ constants "FIELD__" instances ++
    String.join (identifiers.map fun identifier => "    NANOCLR_NATIVE_DECLARE(" ++ identifier ++ ");\n") ++
    "\n    //--//\n\n\x7d;\n\n"

def slot (fileName : String) : Option Handler → String
  | some handler =>
    "    Library_" ++ fileName ++ "_" ++ handler.className ++ "::" ++ handler.identifier ++ ",\n"
  | none => "    NULL,\n"

def lookup (banner includeFile assemblyId assemblyName : String) (checksum : UInt32) (version : Version)
    (lines : String) : String :=
  banner ++ "#include \"" ++ includeFile ++ "\"\n\n\n" ++
  "static const CLR_RT_MethodHandler method_lookup[] =\n" ++
  "\x7b\n" ++ lines ++ "\x7d;\n" ++
  "\n" ++
  "const CLR_RT_NativeAssemblyData g_CLR_AssemblyNative_" ++ assemblyId ++ " =\n" ++
  "\x7b\n" ++
  "    \"" ++ assemblyName ++ "\", \n" ++
  "    0x" ++ Text.hexUpper 8 checksum.toNat ++ ",\n" ++
  "    method_lookup,\n" ++
  "    ////////////////////////////////////////////////////////////////////////////////////\n" ++
  "    // check if the version bellow matches the one in AssemblyNativeVersion attribute //\n" ++
  "    ////////////////////////////////////////////////////////////////////////////////////\n" ++
  "    \x7b " ++ toString version.major.toNat ++ ", " ++ toString version.minor.toNat ++ ", " ++
    toString version.build.toNat ++ ", " ++ toString version.revision.toNat ++ " \x7d\n" ++
  "\x7d;\n"

/-- The body of a native method that is still to be written. -/
def notImplemented : String :=
  "    NANOCLR_HEADER();\n" ++
  "\n" ++
  "    NANOCLR_SET_AND_LEAVE(stack.NotImplementedStub());\n" ++
  "\n" ++
  "    NANOCLR_NOCLEANUP();\n"

def definition (fileName className identifier body : String) : String :=
  "\nHRESULT Library_" ++ fileName ++ "_" ++ className ++ "::" ++ identifier ++
    "( CLR_RT_StackFrame& stack )\n\x7b\n" ++ body ++ "\x7d\n"

theorem constants_eq_empty_iff {mark : String} {fields : List (String × Nat)} :
    constants mark fields = "" ↔ fields = [] := by
  unfold constants
  split
  · next h => exact iff_of_true rfl h
  · next h =>
    refine iff_of_false (fun hempty => ?_) h
    exact absurd (String.append_eq_empty_iff.1 hempty).2 (by decide)

end Wording

theorem Naming.isReserved_iff {name : String} :
    Naming.isReserved name = true ↔ '<' ∈ name.toList ∨ '>' ∈ name.toList := by
  simp only [Naming.isReserved, List.any_eq_true, Bool.or_eq_true, beq_iff_eq, exists_or, and_or_left, exists_eq_right]

/-- The name of its field as the image writes it, and its value. -/
def FieldConstant.written (c : FieldConstant) : String × Nat := (c.field.written, c.value)

namespace HeaderBlock

theorem constantText_eq (mark : String) (c : FieldConstant) :
    constantText mark c = Wording.constant mark c.field.written c.value := by
  unfold constantText FieldLabel.comment FieldLabel.label Wording.constant
  simp only [← Naming.isReserved_iff]
  by_cases h : Naming.isReserved c.field.written = true
  · simp only [h, ↓reduceIte, Naming.reservedComment, Naming.invalidField, Text.toString_text, String.append_assoc]
    rfl
  · simp only [h, Text.toString_text, String.append_assoc]
    rfl

theorem constantsText_eq (mark : String) (cs : List FieldConstant) :
    constantsText mark cs = Wording.constants mark (cs.map FieldConstant.written) := by
  cases cs with
  | nil => rfl
  | cons c cs =>
    have hne : (c :: cs).map FieldConstant.written ≠ [] := List.cons_ne_nil _ _
    unfold constantsText Wording.constants
    rw [funext (constantText_eq mark), if_neg hne, List.map_map]
    rfl

theorem text_eq (b : HeaderBlock) (fileName : String) :
    b.text fileName = Wording.block fileName b.className (b.statics.map FieldConstant.written)
      (b.instances.map FieldConstant.written) b.natives := by
  have hbody : b.body.isEmpty = true ↔ b.statics.map FieldConstant.written = [] ∧
      b.instances.map FieldConstant.written = [] ∧ b.natives = [] := by
    rw [String.isEmpty_iff, body, String.append_eq_empty_iff, String.append_eq_empty_iff, constantsText_eq,
      constantsText_eq, Wording.constants_eq_empty_iff, Wording.constants_eq_empty_iff, and_assoc]
    refine and_congr_right fun _ => and_congr_right fun _ => ?_
    cases b.natives with
    | nil => exact iff_of_true rfl rfl
    | cons identifier identifiers =>
      refine iff_of_false (fun h => ?_) nofun
      rw [List.map_cons, String.join_cons, String.append_eq_empty_iff, String.append_eq_empty_iff] at h
      exact absurd h.1.2 (by decide)
  unfold text Wording.block
  by_cases hempty : b.body.isEmpty = true
  · rw [if_pos hempty, if_pos (hbody.1 hempty)]
  · rw [if_neg hempty, if_neg (mt hbody.2 hempty)]
    have hname : "struct Library_" = "struct " ++ "Library_" := rfl
    simp only [body, constantsText_eq, Artifact.libraryClass, Text.toString_text, hname, String.append_assoc]

end HeaderBlock

theorem LookupTable.slotText_eq (fileName : String) (handler : Option Handler) :
    slotText fileName handler = Wording.slot fileName handler := by
  cases handler with
  | none => rfl
  | some handler =>
    have hname : "    Library_" = "    " ++ "Library_" := rfl
    simp only [slotText, Wording.slot, Artifact.libraryClass, Text.toString_text, hname, String.append_assoc]

theorem LookupTable.text_eq (t : LookupTable) :
    t.text = Wording.lookup t.banner t.includeFile t.assemblyId t.assemblyName t.checksum t.version
      (String.join (t.slots.map (Wording.slot t.fileName))) := by
  rw [← funext (slotText_eq t.fileName)]
  unfold text Wording.lookup
  simp only [Text.toString_text, String.append_assoc]

theorem Artifact.methodDefinition_eq (fileName className identifier body : String) :
    methodDefinition fileName className identifier body = Wording.definition fileName className identifier body := by
  have hname : "\nHRESULT Library_" = "\nHRESULT " ++ "Library_" := rfl
  unfold methodDefinition libraryClass Wording.definition
  simp only [Text.toString_text, hname, String.append_assoc]

end CompactAssembly
