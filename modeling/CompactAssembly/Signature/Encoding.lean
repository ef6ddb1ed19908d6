import CompactAssembly.Signature.Basic
import CompactAssembly.Bytes.Compressed

/-!
# Stored form of signatures

An element is stored as the opcodes of its layers from outside in, then the compressed token of the
innermost one if it has a token. Only a token without a compressed form stops the encoding; the opcodes
have been written by then.
-/

namespace CompactAssembly

namespace Element

def opcodes : Element → List UInt8
  | byRef inner => DataType.byRef.code :: inner.opcodes
  | szArray inner => DataType.szArray.code :: inner.opcodes
  | e => [e.opcode]

def payload : Element → Except Fault (List UInt8)
  | byRef inner | szArray inner => inner.payload
  | valueType token | classType token => token.compressed
  | primitive _ | unknown _ => .ok []

def encode (e : Element) : Except Fault (List UInt8) :=
  e.payload.map (e.opcodes ++ ·)

/-- The bytes that reach a buffer, and the fault that kept the rest away. -/
def emit (e : Element) : List UInt8 × Option Fault :=
  match e.payload with
  | .ok bytes => (e.opcodes ++ bytes, none)
  | .error fault => (e.opcodes, some fault)

end Element

def encodeElements : List Element → Except Fault (List UInt8)
  | [] => .ok []
  | e :: es => do
    let first ← e.encode
    let rest ← encodeElements es
    return first ++ rest

/-- The stored form of a method signature: first byte, number of parameters, result, parameters. -/
def MethodSignature.encode (signature : MethodSignature) : Except Fault (List UInt8) :=
  if signature.params.length < 256 then do
    let elements ← encodeElements (signature.result :: signature.params)
    let convention :=
      if signature.hasThis then Convention.method ||| Convention.hasThis else Convention.method
    return convention :: UInt8.ofNat signature.params.length :: elements
  else .error .outOfBounds

def encodeField (type : Element) : Except Fault (List UInt8) := do
  return Convention.field :: (← type.encode)

end CompactAssembly
