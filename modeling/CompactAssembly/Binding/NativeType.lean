import CompactAssembly.Image.Basic

/-!
# Native types

How elements appear in native code: the type of a variable, the name that marshaling functions carry,
and the code that fetches an argument from a stack slot and stores it back.
-/

namespace CompactAssembly

inductive NativeType where
  | void
  | bool
  | char
  | int8
  | uint8
  | int16
  | uint16
  | int32
  | uint32
  | int64
  | uint64
  | float
  | double
  | string
  | unsupported
  deriving DecidableEq, Repr

namespace NativeType

def ofPrimitive : Primitive → NativeType
  | .void => void
  | .boolean => bool
  | .char => char
  | .i1 => int8
  | .u1 => uint8
  | .i2 => int16
  | .u2 => uint16
  | .i4 => int32
  | .u4 => uint32
  | .i8 => int64
  | .u8 => uint64
  | .r4 => float
  | .r8 => double
  | .string => string
  | .object => unsupported

/-- Only primitives have a native type. -/
def ofDataType : DataType → NativeType
  | .primitive p => ofPrimitive p
  | .classType | .valueType | .szArray | .byRef => unsupported

def variableType : NativeType → String
  | void => "void"
  | bool => "bool"
  | char => "char"
  | int8 => "int8_t"
  | uint8 => "uint8_t"
  | int16 => "int16_t"
  | uint16 => "uint16_t"
  | int32 => "int32_t"
  | uint32 => "uint32_t"
  | int64 => "int64_t"
  | uint64 => "uint64_t"
  | float => "float"
  | double => "double"
  | string => "const char*"
  | unsupported => "UNSUPPORTED_TYPE"

def marshalName : NativeType → String
  | void => "void"
  | bool => "bool"
  | char => "CHAR"
  | int8 => "INT8"
  | uint8 => "UINT8"
  | int16 => "INT16"
  | uint16 => "UINT16"
  | int32 => "INT32"
  | uint32 => "UINT32"
  | int64 => "INT64"
  | uint64 => "UINT64"
  | float => "float"
  | double => "double"
  | string => "LPCSTR"
  | unsupported => "UNSUPPORTED_TYPE"

def caseName : NativeType → String
  | void => "Void"
  | bool => "Bool"
  | char => "Char"
  | int8 => "Int8"
  | uint8 => "UInt8"
  | int16 => "Int16"
  | uint16 => "UInt16"
  | int32 => "Int32"
  | uint32 => "UInt32"
  | int64 => "Int64"
  | uint64 => "UInt64"
  | float => "Float"
  | double => "Double"
  | string => "String"
  | unsupported => "Unsupported"

def isVoid (t : NativeType) : Bool := t == void

end NativeType

inductive Marshaled where
  | value (type : NativeType)
  | byRef (type : NativeType)
  | array (type : NativeType)
  deriving DecidableEq, Repr

namespace Image

/-- Native type of an element that is not looked into. A value type of this assembly counts as the
data type its definition states. -/
def scalarType (image : Image) : Element → Except Fault NativeType
  | .valueType token =>
    if token.table? = some .typeDef then do
      let t ← image.get TypeDef token.index
      return (DataType.ofCode? t.dataType).elim .unsupported NativeType.ofDataType
    else .ok .unsupported
  | .primitive p => .ok (.ofPrimitive p)
  | .byRef _ | .szArray _ | .classType _ | .unknown _ => .ok .unsupported

/-- How an element is passed. A wrapper around something unsupported is unsupported itself. -/
def marshaled (image : Image) : Element → Except Fault Marshaled
  | .byRef inner => do
    match ← image.scalarType inner with
    | .unsupported => return .value .unsupported
    | type => return .byRef type
  | .szArray inner => do
    match ← image.scalarType inner with
    | .unsupported => return .value .unsupported
    | type => return .array type
  | e => do return .value (← image.scalarType e)

end Image

namespace Marshaled

def describe : Marshaled → String
  | value type => s!"Value({type.caseName})"
  | byRef type => s!"ByRef({type.caseName})"
  | array type => s!"Array({type.caseName})"

/-- Only plain values are returned. -/
def resultType : Marshaled → NativeType
  | value type => type
  | byRef _ | array _ => .unsupported

def paramType : Marshaled → String
  | value type => type.variableType
  | byRef type => type.variableType ++ "&"
  | array type => "CLR_RT_TypedArray_" ++ type.marshalName

def argument : Marshaled → Nat → String
  | byRef _, param => s!"*param{param}"
  | value _, param | array _, param => s!"param{param}"

def fetch : Marshaled → (param slot : Nat) → String
  | value type, param, slot =>
    s!"        {type.variableType} param{param};\n" ++
    s!"        NANOCLR_CHECK_HRESULT( Interop_Marshal_{type.marshalName}( stack, {slot}, " ++
      s!"param{param} ) );\n"
  | byRef type, param, slot =>
    s!"        {type.variableType}* param{param};\n" ++
    s!"        uint8_t heapblock{param}[CLR_RT_HEAP_BLOCK_SIZE];\n" ++
    s!"        NANOCLR_CHECK_HRESULT( Interop_Marshal_{type.marshalName}_ByRef( stack, " ++
      s!"heapblock{param}, {slot}, param{param} ) );\n"
  | array type, param, slot =>
    s!"        CLR_RT_TypedArray_{type.marshalName} param{param};\n" ++
    s!"        NANOCLR_CHECK_HRESULT( Interop_Marshal_{type.marshalName}_ARRAY( stack, {slot}, " ++
      s!"param{param} ) );\n"

def store : Marshaled → (param slot : Nat) → String
  | byRef _, param, slot =>
    s!"        NANOCLR_CHECK_HRESULT( Interop_Marshal_StoreRef( stack, heapblock{param}, {slot} ) );\n"
  | value _, _, _ => ""
  | array _, _, _ => ""

end Marshaled

end CompactAssembly
