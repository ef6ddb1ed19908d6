import CompactAssembly.Token

/-!
# Elements

An element is the type of a field, a parameter or a result: a primitive, a token of a class or value
type, or one of these below any number of wrappers (`byRef`, `szArray`). A byte that is no type code
stands for an element of its own.
-/

namespace CompactAssembly

inductive Primitive where
  | void
  | boolean
  | i1
  | u1
  | char
  | i2
  | u2
  | i4
  | u4
  | r4
  | i8
  | u8
  | r8
  | string
  | object
  deriving DecidableEq, Repr

namespace Primitive

def code : Primitive → UInt8
  | void => 0
  | boolean => 1
  | i1 => 2
  | u1 => 3
  | char => 4
  | i2 => 5
  | u2 => 6
  | i4 => 7
  | u4 => 8
  | r4 => 9
  | i8 => 10
  | u8 => 11
  | r8 => 12
  | string => 15
  | object => 16

def tag : Primitive → String
  | void => "VOID"
  | boolean => "BOOLEAN"
  | i1 => "I1"
  | u1 => "U1"
  | char => "CHAR"
  | i2 => "I2"
  | u2 => "U2"
  | i4 => "I4"
  | u4 => "U4"
  | r4 => "R4"
  | i8 => "I8"
  | u8 => "U8"
  | r8 => "R8"
  | string => "STRING"
  | object => "OBJECT"

def all : List Primitive :=
  [void, boolean, i1, u1, char, i2, u2, i4, u4, r4, i8, u8, r8, string, object]

theorem mem_all (p : Primitive) : p ∈ all := by
  cases p <;> simp [all]

end Primitive

inductive DataType where
  | primitive (p : Primitive)
  | classType
  | valueType
  | szArray
  | byRef
  deriving DecidableEq, Repr

namespace DataType

def code : DataType → UInt8
  | primitive p => p.code
  | classType => 17
  | valueType => 18
  | szArray => 19
  | byRef => 20

def tag : DataType → String
  | primitive p => p.tag
  | classType => "CLASS"
  | valueType => "VALUETYPE"
  | szArray => "SZARRAY"
  | byRef => "BYREF"

def all : List DataType :=
  Primitive.all.map primitive ++ [classType, valueType, szArray, byRef]

def ofCode? (code : UInt8) : Option DataType :=
  match code with
  | 0 => some (primitive .void)
  | 1 => some (primitive .boolean)
  | 2 => some (primitive .i1)
  | 3 => some (primitive .u1)
  | 4 => some (primitive .char)
  | 5 => some (primitive .i2)
  | 6 => some (primitive .u2)
  | 7 => some (primitive .i4)
  | 8 => some (primitive .u4)
  | 9 => some (primitive .r4)
  | 10 => some (primitive .i8)
  | 11 => some (primitive .u8)
  | 12 => some (primitive .r8)
  | 15 => some (primitive .string)
  | 16 => some (primitive .object)
  | 17 => some classType
  | 18 => some valueType
  | 19 => some szArray
  | 20 => some byRef
  | _ => none

theorem ofCode?_code (t : DataType) : ofCode? t.code = some t := by
  rcases t with p | _ | _ | _ | _ <;> first | rfl | (cases p <;> rfl)

end DataType

inductive Element where
  | primitive (p : Primitive)
  | byRef (inner : Element)
  | szArray (inner : Element)
  | valueType (token : Token)
  | classType (token : Token)
  | unknown (code : UInt8)
  deriving DecidableEq, Repr

namespace Element

def dataType? : Element → Option DataType
  | primitive p => some (.primitive p)
  | byRef _ => some .byRef
  | szArray _ => some .szArray
  | valueType _ => some .valueType
  | classType _ => some .classType
  | unknown _ => none

def opcode : Element → UInt8
  | primitive p => p.code
  | byRef _ => DataType.byRef.code
  | szArray _ => DataType.szArray.code
  | valueType _ => DataType.valueType.code
  | classType _ => DataType.classType.code
  | unknown code => code

def isVoid : Element → Bool
  | primitive .void => true
  | _ => false

/-- Number of wrappers around the innermost element. -/
def wrappers : Element → Nat
  | byRef inner | szArray inner => inner.wrappers + 1
  | _ => 0

def innermost : Element → Element
  | byRef inner | szArray inner => inner.innermost
  | e => e

/-- Readable form: the tags from outside in, a token in brackets. -/
def text : Element → String
  | primitive p => p.tag
  | byRef inner => DataType.byRef.tag ++ " " ++ inner.text
  | szArray inner => DataType.szArray.tag ++ " " ++ inner.text
  | valueType token => DataType.valueType.tag ++ " [" ++ token.hex ++ "]"
  | classType token => DataType.classType.tag ++ " [" ++ token.hex ++ "]"
  | unknown code => "[UNKNOWN: " ++ Text.hex 8 code.toNat ++ "]"

end Element

end CompactAssembly
