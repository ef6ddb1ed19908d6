/-!
# Flag words

The flag words of type, field and method definitions. Bits without a name are kept.
-/

namespace CompactAssembly

/-- The named flags of a word, in order of declaration. -/
abbrev FlagNames := List (String × Nat)

namespace FlagNames

def mask (flags : FlagNames) : Nat := flags.foldl (fun bits flag => bits ||| flag.2) 0

def truncate (flags : FlagNames) (bits : Nat) : Nat := bits &&& flags.mask

/-- Names of the flags that a word holds in full, walked in order; a flag all of whose bits an earlier
listed one covers is left out. `rest` holds the bits not yet covered. -/
def present (flags : FlagNames) (bits rest : Nat) : List String :=
  match flags with
  | [] => []
  | (name, mask) :: flags =>
    if bits &&& mask = mask ∧ rest &&& mask ≠ 0 then
      name :: present flags bits (rest ^^^ (rest &&& mask))
    else present flags bits rest

end FlagNames

inductive TypeSemantics where
  | classType
  | valueType
  | interface
  | enumeration
  deriving DecidableEq, Repr

structure TypeFlags where
  bits : UInt16
  deriving DecidableEq, Repr

namespace TypeFlags

def named : FlagNames :=
  [("SCOPE_MASK", 0x0007), ("SERIALIZABLE", 0x0008), ("SEMANTICS_MASK", 0x0030),
    ("ABSTRACT", 0x0040), ("SEALED", 0x0080), ("SPECIAL_NAME", 0x0100), ("DELEGATE", 0x0200),
    ("MULTICAST_DELEGATE", 0x0400), ("PATCHED", 0x0800), ("BEFORE_FIELD_INIT", 0x1000),
    ("HAS_SECURITY", 0x2000), ("HAS_FINALIZER", 0x4000), ("HAS_ATTRIBUTES", 0x8000)]

def semanticsMask : UInt16 := 0x0030

def delegate : UInt16 := 0x0200

def multicastDelegate : UInt16 := 0x0400

def union (a b : TypeFlags) : TypeFlags := ⟨a.bits ||| b.bits⟩

def semantics (flags : TypeFlags) : TypeSemantics :=
  match flags.bits &&& semanticsMask with
  | 0x00 => .classType
  | 0x10 => .valueType
  | 0x20 => .interface
  | _ => .enumeration

/-- Marked as a delegate of either kind. -/
def isDelegate (flags : TypeFlags) : Bool := flags.bits &&& (delegate ||| multicastDelegate) != 0

end TypeFlags

structure FieldFlags where
  bits : UInt16
  deriving DecidableEq, Repr

namespace FieldFlags

def named : FlagNames :=
  [("SCOPE_MASK", 0x0007), ("NOT_SERIALIZED", 0x0008), ("STATIC", 0x0010), ("INIT_ONLY", 0x0020),
    ("LITERAL", 0x0040), ("SPECIAL_NAME", 0x0100), ("HAS_DEFAULT", 0x0200),
    ("HAS_FIELD_RVA", 0x0400), ("NO_REFLECTION", 0x0800), ("HAS_ATTRIBUTES", 0x8000)]

def static : UInt16 := 0x0010

def union (a b : FieldFlags) : FieldFlags := ⟨a.bits ||| b.bits⟩

def isStatic (flags : FieldFlags) : Bool := flags.bits &&& static != 0

end FieldFlags

structure MethodFlags where
  bits : UInt32
  deriving DecidableEq, Repr

namespace MethodFlags

def named : FlagNames :=
  [("SCOPE_MASK", 0x00000007), ("STATIC", 0x00000010), ("FINAL", 0x00000020),
    ("VIRTUAL", 0x00000040), ("HIDE_BY_SIG", 0x00000080), ("NEW_SLOT", 0x00000100),
    ("ABSTRACT", 0x00000200), ("SPECIAL_NAME", 0x00000400), ("NATIVE_PROFILED", 0x00000800),
    ("CONSTRUCTOR", 0x00001000), ("STATIC_CONSTRUCTOR", 0x00002000), ("FINALIZER", 0x00004000),
    ("DELEGATE_CONSTRUCTOR", 0x00010000), ("DELEGATE_INVOKE", 0x00020000),
    ("DELEGATE_BEGIN_INVOKE", 0x00040000), ("DELEGATE_END_INVOKE", 0x00080000),
    ("SYNCHRONIZED", 0x01000000), ("GLOBALLY_SYNCHRONIZED", 0x02000000), ("PATCHED", 0x04000000),
    ("ENTRY_POINT", 0x08000000), ("REQUIRE_SEC_OBJECT", 0x10000000), ("HAS_SECURITY", 0x20000000),
    ("HAS_EXCEPTION_HANDLERS", 0x40000000), ("HAS_ATTRIBUTES", 0x80000000)]

def static : UInt32 := 0x00000010

def overridable : UInt32 := 0x00000040

def abstract : UInt32 := 0x00000200

def union (a b : MethodFlags) : MethodFlags := ⟨a.bits ||| b.bits⟩

def isStatic (flags : MethodFlags) : Bool := flags.bits &&& static != 0

def isVirtual (flags : MethodFlags) : Bool := flags.bits &&& overridable != 0

def isAbstract (flags : MethodFlags) : Bool := flags.bits &&& abstract != 0

end MethodFlags

end CompactAssembly
