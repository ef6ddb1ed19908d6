import CompactAssembly.Signature.Element

/-!
# Signatures

A signature starts with a byte whose low four bits say what is described: a method, a field or the local
variables of a body. The specification of a type has no such byte and is the element itself.
-/

namespace CompactAssembly

structure MethodSignature where
  /-- Called on an object, which is passed first. -/
  hasThis : Bool
  result : Element
  params : List Element
  deriving DecidableEq, Repr

inductive Signature where
  | method (signature : MethodSignature)
  | field (type : Element)
  | localVariables
  /-- Any other kind, with its first byte. -/
  | other (convention : UInt8)
  deriving DecidableEq, Repr

namespace Convention

def kindMask : UInt8 := 0x0F

def method : UInt8 := 0x00

def field : UInt8 := 0x06

def localVariables : UInt8 := 0x07

def hasThis : UInt8 := 0x20

def kind (byte : UInt8) : UInt8 := byte &&& kindMask

end Convention

namespace Signature

/-- Parameters in order: each after a blank, all but the last before a comma, the last before a
blank. -/
def paramsText : List Element → String
  | [] => ""
  | [last] => " " ++ last.text ++ " "
  | param :: rest => " " ++ param.text ++ "," ++ paramsText rest

/-- Readable form; only methods and fields have one. -/
def text : Signature → String
  | method signature =>
    "METHOD " ++ signature.result.text ++ "(" ++ paramsText signature.params ++ ")"
  | field type => "FIELD " ++ type.text
  | localVariables => ""
  | other _ => ""

end Signature

end CompactAssembly
