import CompactAssembly.Fault
import CompactAssembly.Naming.Identifier

/-!
# Options of the generator

The output path gives the directory and the name that all files start with.
-/

namespace CompactAssembly

inductive GenerationMode where
  /-- A library that is added to the runtime. -/
  | interop
  /-- A part of the runtime itself. -/
  | coreLibrary
  deriving DecidableEq, Repr

structure GeneratorOptions where
  path : Path
  projectName? : Option String
  mode : GenerationMode
  policy? : Option NamingPolicy
  deriving DecidableEq, Repr

namespace GeneratorOptions

/-- The given policy, or the one that goes with the mode. -/
def policy (options : GeneratorOptions) : NamingPolicy :=
  options.policy?.getD <| match options.mode with
    | .interop => .interop
    | .coreLibrary => .plain

def fileName (options : GeneratorOptions) : Except Fault String :=
  let name := Naming.fixIdentifier (options.path.fileName?.getD "")
  if name.isEmpty then .error (.noFileName options.path.text) else .ok name

def stem (options : GeneratorOptions) : Except Fault Path := do
  return options.path.sibling (← options.fileName)

def project (options : GeneratorOptions) : Except Fault String :=
  match options.projectName? with
  | some name => .ok (Naming.fixIdentifier name)
  | none => options.fileName

end GeneratorOptions

end CompactAssembly
