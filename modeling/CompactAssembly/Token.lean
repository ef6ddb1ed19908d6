import CompactAssembly.Table.Kind
import CompactAssembly.Text.Basic

/-!
# Tokens

A token names a record: its top byte is the number of a table, its low three bytes an index into it.
-/

namespace CompactAssembly

structure Token where
  value : UInt32
  deriving DecidableEq, Repr, Hashable

namespace Token

/-- Token of record `index` of a table; the index keeps its low 24 bits. -/
def encode (kind : TableKind) (index : UInt32) : Token :=
  ⟨(UInt32.ofNat kind.id <<< 24) ||| (index &&& 0x00FFFFFF)⟩

def tableId (token : Token) : Nat := (token.value >>> 24).toNat

def table? (token : Token) : Option TableKind := TableKind.ofId? token.tableId

def index (token : Token) : Nat := (token.value &&& 0x00FFFFFF).toNat

def decode? (token : Token) : Option (TableKind × Nat) :=
  token.table?.map fun kind => (kind, token.index)

def isTable (token : Token) (kind : TableKind) : Bool := token.tableId == kind.id

def hex (token : Token) : String := Text.hex 8 token.value.toNat

def text (token : Token) : String := "0x" ++ token.hex

/-- The value beside the parts it is made of. -/
def describe (token : Token) : String :=
  s!"Token(0x{token.hex}, table: 0x{Text.hex 2 token.tableId}, index: {token.index})"

end Token

end CompactAssembly
