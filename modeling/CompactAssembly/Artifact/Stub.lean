import CompactAssembly.Artifact.Header
import CompactAssembly.Binding.NativeType

/-!
# Stubs

A native method of a library is bound through a stub: a function of plain native types, to be written by
hand. The marshaling code fetches the arguments from the stack, calls the stub, and stores the result
and the references. The stub header declares the stubs and gives access to the fields of the object.
-/

namespace CompactAssembly

/-- The function that stands behind a native method. -/
structure Stub where
  name : String
  isStatic : Bool
  result : NativeType
  params : List Marshaled
  deriving DecidableEq, Repr

namespace Stub

/-- Slot of the first parameter; the object takes slot 0. -/
def firstSlot (s : Stub) : Nat := if s.isStatic then 0 else 1

def declaration (s : Stub) (owner? : Option String) : String :=
  s.result.variableType ++ " " ++
  owner?.elim "" (fun owner => owner ++ "::") ++ s.name ++ "( " ++
  (if s.isStatic then "" else "CLR_RT_HeapBlock* pMngObj, ") ++
  String.join (s.params.zipIdx.map fun (param, i) => param.paramType ++ s!" param{i}, ") ++
  "HRESULT &hr )"

def arguments (s : Stub) : List String :=
  (if s.isStatic then [] else ["pMngObj"]) ++
    s.params.zipIdx.map (fun (param, i) => param.argument i) ++ ["hr"]

def call (s : Stub) (owner : String) : String :=
  (if s.result.isVoid then "" else s.result.variableType ++ " retVal = ") ++
    owner ++ "::" ++ s.name ++ "( " ++ ", ".intercalate s.arguments ++ " );"

def marshalBody (s : Stub) (owner : String) : String :=
  "    NANOCLR_HEADER(); hr = S_OK;\n    \x7b\n" ++
  (if s.isStatic then "" else
    "        CLR_RT_HeapBlock* pMngObj = Interop_Marshal_RetrieveManagedObject( stack );\n\n" ++
    "        FAULT_ON_NULL(pMngObj);\n\n") ++
  String.join (s.params.zipIdx.map fun (param, i) => param.fetch i (s.firstSlot + i) ++ "\n") ++
  "        " ++ s.call owner ++ "\n" ++
  "        NANOCLR_CHECK_HRESULT( hr );\n" ++
  (if s.result.isVoid then "" else
    s!"        SetResult_{s.result.marshalName}( stack, retVal );\n\n") ++
  String.join (s.params.zipIdx.map fun (param, i) => param.store i (s.firstSlot + i)) ++
  "    \x7d\n    NANOCLR_NOCLEANUP();\n"

def emptyDefinition (s : Stub) (owner : String) : String :=
  s.declaration (some owner) ++
  if s.result.isVoid then "\n\x7b\n\x7d\n\n"
  else s!"\n\x7b\n    {s.result.variableType} retVal = 0; \n    return retVal;\n\x7d\n\n"

end Stub

structure FieldAccessor where
  field : FieldLabel
  type : NativeType
  deriving DecidableEq, Repr

def FieldAccessor.text (f : FieldAccessor) (indent library : String) : String :=
  f.field.comment indent ++
  s!"{indent}static {f.type.variableType}& Get_{f.field.label}( CLR_RT_HeapBlock* pMngObj )    " ++
  s!"\x7b return Interop_Marshal_GetField_{f.type.marshalName}( pMngObj, " ++
  s!"{library}::FIELD__{f.field.label} ); \x7d\n\n"

/-- Everything the stub files of one type are made of. -/
structure StubUnit where
  className : String
  namespaces : List String
  structName : String
  accessors : List FieldAccessor
  stubs : List (NativeMethod × Stub)
  deriving DecidableEq, Repr

namespace Image

def stub (image : Image) (policy : NamingPolicy) (m : MethodDef) (signature : MethodSignature) :
    Except Fault Stub := do
  let name ← image.text m.name
  let result ← image.marshaled signature.result
  let params ← signature.params.mapM image.marshaled
  return {
    name := Naming.escape policy name, isStatic := m.isStatic, result := result.resultType, params }

/-- Namespaces and name of the struct that holds the stubs of a type: the parts of its name between
dots, empty ones left out. -/
def stubScope (image : Image) (index : Nat) : Except Fault (List String × String) := do
  let name ← image.typeName index
  let parts := ((Text.split '.' name.toList).filter (· ≠ [])).map String.ofList
  return (parts.dropLast, parts.getLast?.getD "")

end Image

namespace Assembly

def fieldAccessor (a : Assembly) (field : Nat) : Except Fault FieldAccessor := do
  let f ← a.get FieldDef field
  let type ← a.readSignature SignatureReader.field f.sig
  let marshaled ← a.marshaled type
  let label ← a.fieldLabel field
  return ⟨label, marshaled.resultType⟩

def stubUnit (a : Assembly) (policy : NamingPolicy) (plan : TypePlan) : Except Fault StubUnit := do
  let (namespaces, structName) ← a.stubScope plan.index
  let stubs ← plan.natives.mapM fun (m, native) => do
    return (native, ← a.stub policy m native.signature)
  let accessors ← plan.record.instanceFields.toList.mapM a.fieldAccessor
  return { className := plan.className, namespaces, structName, accessors, stubs }

end Assembly

namespace StubUnit

def includes (u : StubUnit) (fileName : String) : String :=
  s!"#include \"{fileName}.h\"\n#include \"{fileName}_{u.className}.h\"\n\n"

def usingNamespace (u : StubUnit) : String :=
  if u.namespaces.isEmpty then ""
  else "using namespace " ++ "::".intercalate u.namespaces ++ ";\n\n"

/-- Wraps lines into namespaces, four columns deeper for each. -/
def nested (indent : String) (namespaces : List String) (body : String → String) : String :=
  match namespaces with
  | [] => body indent
  | name :: names =>
    s!"{indent}namespace {name}\n{indent}\x7b\n" ++ nested (indent ++ "    ") names body ++
      s!"{indent}\x7d\n"

def structText (u : StubUnit) (library outer : String) : String :=
  let indent := outer ++ "    "
  s!"{outer}struct {u.structName}\n{outer}\x7b\n" ++
  s!"{indent}// Helper Functions to access fields of managed object\n" ++
  String.join (u.accessors.map fun accessor => accessor.text indent library) ++
  s!"{indent}// Declaration of stubs. " ++
    "These functions are implemented by Interop code developers\n" ++
  String.join (u.stubs.map fun (_, stub) => s!"{indent}static " ++ stub.declaration none ++ ";\n") ++
  s!"{outer}\x7d;\n"

def marshalText (u : StubUnit) (fileName : String) : String :=
  Artifact.keepOutBanner ++ u.includes fileName ++ u.usingNamespace ++
  String.join (u.stubs.map fun (native, stub) =>
    Artifact.methodDefinition fileName u.className native.identifier (stub.marshalBody u.structName))

def headerText (u : StubUnit) (fileName guard : String) : String :=
  Artifact.copyFirstBanner ++ Artifact.openGuard guard ++
  nested "" u.namespaces (u.structText (Artifact.libraryClass fileName u.className)) ++
  Artifact.closeGuard guard

def sourceText (u : StubUnit) (fileName : String) : String :=
  Artifact.copyFirstBanner ++ u.includes fileName ++ u.usingNamespace ++
  String.join (u.stubs.map fun (_, stub) => stub.emptyDefinition u.structName)

def artifacts (u : StubUnit) (fileName : String) (stem : Path) : List Artifact :=
  let headerPath := stem.extended s!"_{u.className}.h"
  [⟨.marshal, stem.extended s!"_{u.className}_mshl.cpp", u.marshalText fileName⟩,
    ⟨.stubHeader, headerPath, u.headerText fileName (Naming.headerGuard headerPath)⟩,
    ⟨.stubSource, stem.extended s!"_{u.className}.cpp", u.sourceText fileName⟩]

end StubUnit

/-- The file of a type in a part of the runtime: its native methods, not implemented. -/
def TypePlan.libraryArtifact (plan : TypePlan) (fileName project : String) (stem : Path) : Artifact where
  kind := .librarySource
  path := stem.extended s!"_{plan.className}.cpp"
  contents :=
    let header := String.ofList (project.toList.map Char.toLower)
    Artifact.copyFirstBanner ++ s!"\n#include \"{header}.h\"\n\n" ++
    String.join (plan.natives.map fun (_, native) =>
      Artifact.methodDefinition fileName plan.className native.identifier
        ("    NANOCLR_HEADER();\n" ++
        "\n" ++
        "    NANOCLR_SET_AND_LEAVE(stack.NotImplementedStub());\n" ++
        "\n" ++
        "    NANOCLR_NOCLEANUP();\n"))

end CompactAssembly
