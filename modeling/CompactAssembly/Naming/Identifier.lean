import CompactAssembly.Text.Path
import CompactAssembly.Text.Uppercase

/-!
# Identifiers

How names of an assembly become identifiers, and what is said of names that cannot.
-/

namespace CompactAssembly

inductive NamingPolicy where
  /-- Every character but ASCII letters, digits and underscores becomes an underscore. -/
  | interop
  /-- Dots become underscores. -/
  | plain
  deriving DecidableEq, Repr

namespace Naming

def isIdentifierChar (c : Char) : Bool := Text.isAsciiAlphanumeric c || c == '_'

def escape : NamingPolicy → String → String
  | .interop, name =>
    String.ofList (name.toList.map fun c => if isIdentifierChar c then c else '_')
  | .plain, name => Text.replaceChar '.' '_' name

def fixChar (c : Char) : Char := if Text.isAsciiAlphanumeric c then c else '_'

/-- A name as an identifier: only ASCII letters and digits stay, and no digit comes first. -/
def fixIdentifier (name : String) : String :=
  match name.toList with
  | [] => ""
  | c :: cs => String.ofList ((if Text.isAsciiDigit c then '_' else fixChar c) :: cs.map fixChar)

/-- Names that a compiler made up hold angle brackets. -/
def isReserved (name : String) : Bool := name.toList.any fun c => c == '<' || c == '>'

def invalidField : String := "**THIS_FIELD_IS_NOT_CORRECT_CHECK_MANAGED_CODE**"

def unlistedField : String :=
  ">>>>>>>>>>>>>>>>>>>>>>>>>>>>SOMETHING_WRONG_WITH_THIS_FIELD_POSSIBLY_MISSING_BACKING_FIELD"

/-- The comment before a field with a reserved name. -/
def reservedComment (indent name : String) : String :=
  indent ++ "// Something wrong with this field. Possibly its backing field is missing " ++
    "(mandatory for nanoFramework).\n" ++ indent ++ "// " ++ name ++ "\n"

/-- The name of the include guard of a header. -/
def headerGuard (path : Path) : String := Text.upper ("_" ++ path.fileStem?.getD "" ++ "_H_")

end Naming

end CompactAssembly
