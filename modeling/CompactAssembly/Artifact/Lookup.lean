import CompactAssembly.Artifact.Basic
import CompactAssembly.Binding.Plan
import CompactAssembly.Image.Version
import CompactAssembly.Text.Basic

/-!
# The lookup table

A line for each method of the assembly in order, the handler of a native one or nothing, and a record
that names the assembly with checksum and version.
-/

namespace CompactAssembly

structure LookupTable where
  banner : String
  includeFile : String
  fileName : String
  assemblyId : String
  assemblyName : String
  checksum : UInt32
  version : Version
  slots : List (Option Handler)
  deriving DecidableEq, Repr

namespace LookupTable

def slotText (fileName : String) : Option Handler → String
  | some handler =>
    "    " ++ Artifact.libraryClass fileName handler.className ++ s!"::{handler.identifier},\n"
  | none => "    NULL,\n"

def text (t : LookupTable) : String :=
  t.banner ++
  s!"#include \"{t.includeFile}\"\n\n\n" ++
  "static const CLR_RT_MethodHandler method_lookup[] =\n" ++
  "\x7b\n" ++
  String.join (t.slots.map (slotText t.fileName)) ++
  "\x7d;\n" ++
  "\n" ++
  s!"const CLR_RT_NativeAssemblyData g_CLR_AssemblyNative_{t.assemblyId} =\n" ++
  "\x7b\n" ++
  s!"    \"{t.assemblyName}\", \n" ++
  "    0x" ++ Text.hexUpper 8 t.checksum.toNat ++ ",\n" ++
  "    method_lookup,\n" ++
  "    ////////////////////////////////////////////////////////////////////////////////////\n" ++
  "    // check if the version bellow matches the one in AssemblyNativeVersion attribute //\n" ++
  "    ////////////////////////////////////////////////////////////////////////////////////\n" ++
  s!"    \x7b {t.version.major.toNat}, {t.version.minor.toNat}, {t.version.build.toNat}, " ++
    s!"{t.version.revision.toNat} \x7d\n" ++
  "\x7d;\n"

end LookupTable

end CompactAssembly
