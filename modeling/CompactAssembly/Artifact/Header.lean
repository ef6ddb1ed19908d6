import CompactAssembly.Artifact.Basic
import CompactAssembly.Binding.Options
import CompactAssembly.Binding.Plan
import CompactAssembly.Image.Assembly

/-!
# The struct header

One block per eligible type: constants for its static fields, constants for its instance fields, and
declarations of its native methods. Static fields are numbered through all types; an instance field has
its storage offset.
-/

namespace CompactAssembly

/-- The name of a field as the image writes it. -/
structure FieldLabel where
  written : String
  deriving DecidableEq, Repr

namespace FieldLabel

def label (f : FieldLabel) : String :=
  if Naming.isReserved f.written then Naming.invalidField else f.written

def comment (f : FieldLabel) (indent : String) : String :=
  if Naming.isReserved f.written then Naming.reservedComment indent f.written else ""

end FieldLabel

/-- A field with the number that stands for it. -/
structure FieldConstant where
  field : FieldLabel
  value : Nat
  deriving DecidableEq, Repr

/-- What the header says about one type. -/
structure HeaderBlock where
  className : String
  statics : List FieldConstant
  instances : List FieldConstant
  natives : List String
  deriving DecidableEq, Repr

namespace HeaderBlock

def constantText (mark : String) (c : FieldConstant) : String :=
  c.field.comment "    " ++ s!"    static const int {mark}{c.field.label} = {c.value};\n"

/-- Constants for fields; an empty line closes them if there are any. -/
def constantsText (mark : String) : List FieldConstant → String
  | [] => ""
  | cs => String.join (cs.map (constantText mark)) ++ "\n"

def body (b : HeaderBlock) : String :=
  constantsText "FIELD_STATIC__" b.statics ++ constantsText "FIELD__" b.instances ++
    String.join (b.natives.map fun identifier => s!"    NANOCLR_NATIVE_DECLARE({identifier});\n")

def text (b : HeaderBlock) (fileName : String) : String :=
  if b.body.isEmpty then ""
  else "struct " ++ Artifact.libraryClass fileName b.className ++ "\n\x7b\n" ++ b.body ++
    "\n    //--//\n\n\x7d;\n\n"

end HeaderBlock

namespace Assembly

def fieldLabel (a : Assembly) (field : Nat) : Except Fault FieldLabel := do
  let f ← a.get FieldDef field
  return ⟨← a.text f.name⟩

def staticConstant (a : Assembly) (field number : Nat) : Except Fault FieldConstant := do
  return ⟨← a.fieldLabel field, number⟩

def instanceConstant (a : Assembly) (field : Nat) : Except Fault FieldConstant := do
  let label ← a.fieldLabel field
  match a.fieldOffset? field with
  | some offset => return ⟨label, offset.toNat⟩
  | none => throw (.noFieldOffset field)

/-- The block of a type whose static fields are numbered from `staticBase` on. -/
def headerBlock (a : Assembly) (plan : TypePlan) (staticBase : Nat) : Except Fault HeaderBlock := do
  let statics ← plan.record.staticFields.toList.zipIdx.mapM fun (field, position) =>
    a.staticConstant field (staticBase + position)
  let instances ← plan.record.instanceFields.toList.mapM a.instanceConstant
  return {
    className := plan.className, statics, instances
    natives := plan.natives.map fun (_, native) => native.identifier }

end Assembly

def Text.holds (needle : List Char) : List Char → Bool
  | [] => needle.isEmpty
  | c :: cs => needle.isPrefixOf (c :: cs) || holds needle cs

namespace TypePlan

/-- A type that a compiler made up for its own data; headers leave it out. -/
def isPrivateDetail (plan : TypePlan) : Bool :=
  Text.holds "<PrivateImplementationDetails>".toList plan.className.toList

end TypePlan

/-- Blocks of types whose static fields are numbered from `staticBase` on. A type that has no block
still uses up numbers, a private detail does not. -/
def Assembly.headerBlocks (a : Assembly) (staticBase : Nat) :
    List TypePlan → Except Fault (List HeaderBlock)
  | [] => .ok []
  | plan :: plans =>
    if plan.isPrivateDetail then a.headerBlocks staticBase plans
    else if plan.eligible then do
      let block ← a.headerBlock plan staticBase
      let blocks ← a.headerBlocks (staticBase + plan.record.staticFieldCount.toNat) plans
      return block :: blocks
    else a.headerBlocks (staticBase + plan.record.staticFieldCount.toNat) plans

def Assembly.headerText (a : Assembly) (mode : GenerationMode) (fileName guard assemblyId : String)
    (plans : List TypePlan) : Except Fault String := do
  let blocks ← a.headerBlocks 0 plans
  let opening := match mode with
    | .interop =>
      Artifact.keepOutBanner ++ Artifact.openGuard guard ++
        "#include <nanoCLR_Interop.h>\n#include <nanoCLR_Runtime.h>\n"
    | .coreLibrary => Artifact.copyFirstBanner ++ Artifact.openGuard guard
  return opening ++ String.join (blocks.map fun block => block.text fileName) ++
    s!"\n\nextern const CLR_RT_NativeAssemblyData g_CLR_AssemblyNative_{assemblyId};\n\n" ++
    Artifact.closeGuard guard

end CompactAssembly
