import CompactAssembly.Token

/-!
# Faults

What can go wrong with an image, a signature, a file or a run of the generator. A fault is a cause with
the values that identify it; `Fault.message` words it, without the place where it was noticed.
-/

namespace CompactAssembly

inductive Fault where
  /-- A read, an index or a count leaves its bounds. -/
  | outOfBounds
  /-- The bytes do not start like an image. -/
  | notSupported
  /-- There are no bytes at all. -/
  | empty
  /-- The file system refused, in its own words. -/
  | fileAccess (words : String)
  /-- A token of a table that does not belong here. -/
  | unexpectedToken (token : Token)
  /-- A chain or nest is deeper than `limit`. -/
  | nestingLimit (limit : Nat)
  /-- An output file of no bytes. -/
  | emptyOutput
  /-- A write that ends behind the end of the output file. -/
  | writePastEnd (offset length size : Nat)
  /-- The output path ends in no file name. -/
  | noFileName (path : String)
  /-- The receiver of a listing takes no more text. -/
  | listingRejected
  /-- First byte of a compressed integer with all three top bits set. -/
  | compressedLead (byte : UInt8)
  | methodConvention (byte : UInt8)
  | fieldConvention (byte : UInt8)
  | unterminatedString (index : Nat)
  | invalidString (index : Nat)
  /-- A position that does not fit 32 bits. -/
  | wideOffset
  /-- A position that no 16-bit reference can name. -/
  | wideReference
  /-- A region that ends before its start and padding. -/
  | regionExtent (kind : TableKind) (start stop padding : Nat)
  | notRecordTable (kind : TableKind)
  /-- The storage offset of a field of this type does not fit 16 bits. -/
  | fieldOffsetOverflow (typeIndex : Nat)
  | noFieldOffset (field : Nat)
  /-- The name of the assembly does not resolve. -/
  | unnamedAssembly
  deriving DecidableEq, Repr

def Fault.message : Fault → String
  | .outOfBounds => "Out of Bound read would have occurred!"
  | .notSupported => "This file type is not supported"
  | .empty => "Provided input was empty"
  | .fileAccess words => words
  | .unexpectedToken token => "Unexpected token in this context - " ++ token.text
  | .nestingLimit limit => s!"Reach the maximum recursion level allowed - {limit}"
  | .emptyOutput => "Memory mapped output failed - Cannot map an empty output file"
  | .writePastEnd offset length size =>
    "Memory mapped output failed - Write would exceed file size: " ++
      s!"offset={offset}, len={length}, file_size={size}"
  | .noFileName path => "output path '" ++ path ++ "' has no file name"
  | .listingRejected => "dump output rejected a write"
  | .compressedLead byte => s!"Invalid compressed uint - {byte.toNat}"
  | .methodConvention byte => s!"MethodSignature - invalid calling convention - {byte.toNat}"
  | .fieldConvention byte => s!"FieldSignature - invalid start - {byte.toNat}"
  | .unterminatedString index => s!"Unterminated string at index - {index}"
  | .invalidString index => s!"Invalid string at index - {index}"
  | .wideOffset => "Image serialization value \x7bvalue\x7d exceeds u32::MAX"
  | .wideReference => "Index \x7bvalue\x7d does not fit a 16-bit table reference"
  | .regionExtent kind start stop padding =>
    s!"Region {kind.name} has an invalid extent - start {start}, end {stop}, padding {padding}"
  | .notRecordTable kind => s!"{kind.name} is not a record table"
  | .fieldOffsetOverflow typeIndex => s!"Field offset overflow in type {typeIndex}"
  | .noFieldOffset field => s!"field {field} has no storage offset"
  | .unnamedAssembly => "assembly name does not resolve"

end CompactAssembly
