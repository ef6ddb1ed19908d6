/-!
# Bytes and words

`Bytes` is the one view of binary data. A word is an integer of fixed width that is stored least
significant byte first; `Word` gives its unsigned reading, and `unsigned_littleEndian` says that the
stored bytes read back.
-/

namespace CompactAssembly

abbrev Bytes := Array UInt8

/-- The `width` low bytes of a number, least significant first. -/
def littleEndian : (width n : Nat) → List UInt8
  | 0, _ => []
  | width + 1, n => UInt8.ofNat n :: littleEndian width (n / 256)

def unsigned : List UInt8 → Nat
  | [] => 0
  | b :: bs => b.toNat + 256 * unsigned bs

@[simp] theorem length_littleEndian (width n : Nat) : (littleEndian width n).length = width := by
  induction width generalizing n with
  | zero => rfl
  | succ width ih => simp [littleEndian, ih]

/-- How many numbers `width` bytes can stand for. -/
def capacity : (width : Nat) → Nat
  | 0 => 1
  | width + 1 => 256 * capacity width

theorem unsigned_littleEndian {width n : Nat} (h : n < capacity width) :
    unsigned (littleEndian width n) = n := by
  induction width generalizing n with
  | zero =>
    rw [capacity] at h
    simp only [littleEndian, unsigned]
    omega
  | succ width ih =>
    have hdiv : n / 256 < capacity width := Nat.div_lt_of_lt_mul h
    simp only [littleEndian, unsigned, ih hdiv, UInt8.toNat_ofNat']
    omega

theorem unsigned_lt (bytes : List UInt8) : unsigned bytes < capacity bytes.length := by
  induction bytes with
  | nil => exact Nat.zero_lt_one
  | cons b bs ih =>
    have := b.toNat_lt
    simp only [unsigned, List.length_cons, capacity]
    omega

theorem littleEndian_unsigned (bytes : List UInt8) :
    littleEndian bytes.length (unsigned bytes) = bytes := by
  induction bytes with
  | nil => rfl
  | cons b bs ih =>
    have hb := b.toNat_lt
    have hdiv : (b.toNat + 256 * unsigned bs) / 256 = unsigned bs := by omega
    simp only [List.length_cons, unsigned, littleEndian, hdiv, ih, List.cons.injEq, and_true]
    apply UInt8.toNat_inj.1
    rw [UInt8.toNat_ofNat']
    omega

namespace Bytes

/-- The number that `width` bytes from `pos` on stand for; bytes behind the end count as zero. -/
def unsignedAt (data : Bytes) : (width pos : Nat) → Nat
  | 0, _ => 0
  | width + 1, pos => (data[pos]?.getD 0).toNat + 256 * unsignedAt data width (pos + 1)

/-- Replaces the bytes from `pos` on; what would fall behind the end is dropped. -/
def overwrite (data : Bytes) (pos : Nat) : List UInt8 → Bytes
  | [] => data
  | b :: bs => overwrite (data.setIfInBounds pos b) (pos + 1) bs

@[simp] theorem size_overwrite (data : Bytes) (pos : Nat) (bytes : List UInt8) :
    (data.overwrite pos bytes).size = data.size := by
  induction bytes generalizing data pos with
  | nil => rfl
  | cons b bs ih => simp [overwrite, ih]

end Bytes

/-- A fixed-width integer with its unsigned reading. -/
class Word (α : Type) where
  width : Nat
  ofNat : Nat → α
  toNat : α → Nat
  toNat_lt : ∀ x, toNat x < capacity width
  ofNat_toNat : ∀ x, ofNat (toNat x) = x
  toNat_ofNat : ∀ n, n < capacity width → toNat (ofNat n) = n

instance : Word UInt8 where
  width := 1
  ofNat := UInt8.ofNat
  toNat := UInt8.toNat
  toNat_lt x := x.toNat_lt
  ofNat_toNat _ := UInt8.ofNat_toNat
  toNat_ofNat _ h := UInt8.toNat_ofNat_of_lt' h

instance : Word UInt16 where
  width := 2
  ofNat := UInt16.ofNat
  toNat := UInt16.toNat
  toNat_lt x := x.toNat_lt
  ofNat_toNat _ := UInt16.ofNat_toNat
  toNat_ofNat _ h := UInt16.toNat_ofNat_of_lt' h

instance : Word UInt32 where
  width := 4
  ofNat := UInt32.ofNat
  toNat := UInt32.toNat
  toNat_lt x := x.toNat_lt
  ofNat_toNat _ := UInt32.ofNat_toNat
  toNat_ofNat _ h := UInt32.toNat_ofNat_of_lt' h

instance : Word UInt64 where
  width := 8
  ofNat := UInt64.ofNat
  toNat := UInt64.toNat
  toNat_lt x := x.toNat_lt
  ofNat_toNat _ := UInt64.ofNat_toNat
  toNat_ofNat _ h := UInt64.toNat_ofNat_of_lt' h

instance : Word Int8 where
  width := 1
  ofNat n := (UInt8.ofNat n).toInt8
  toNat x := x.toUInt8.toNat
  toNat_lt x := x.toUInt8.toNat_lt
  ofNat_toNat x := by simp
  toNat_ofNat _ h := UInt8.toNat_ofNat_of_lt' h

instance : Word Int16 where
  width := 2
  ofNat n := (UInt16.ofNat n).toInt16
  toNat x := x.toUInt16.toNat
  toNat_lt x := x.toUInt16.toNat_lt
  ofNat_toNat x := by simp
  toNat_ofNat _ h := UInt16.toNat_ofNat_of_lt' h

instance : Word Int32 where
  width := 4
  ofNat n := (UInt32.ofNat n).toInt32
  toNat x := x.toUInt32.toNat
  toNat_lt x := x.toUInt32.toNat_lt
  ofNat_toNat x := by simp
  toNat_ofNat _ h := UInt32.toNat_ofNat_of_lt' h

instance : Word Int64 where
  width := 8
  ofNat n := (UInt64.ofNat n).toInt64
  toNat x := x.toUInt64.toNat
  toNat_lt x := x.toUInt64.toNat_lt
  ofNat_toNat x := by simp
  toNat_ofNat _ h := UInt64.toNat_ofNat_of_lt' h

namespace Word

variable {α : Type} [Word α]

def bytes (x : α) : List UInt8 := littleEndian (width α) (toNat x)

@[simp] theorem length_bytes (x : α) : (bytes x).length = width α := length_littleEndian _ _

theorem unsigned_bytes (x : α) : unsigned (bytes x) = toNat x :=
  unsigned_littleEndian (toNat_lt x)

theorem bytes_ofNat_unsigned {xs : List UInt8} (h : xs.length = width α) :
    bytes (ofNat (unsigned xs) : α) = xs := by
  have hlt := unsigned_lt xs
  rw [h] at hlt
  rw [bytes, toNat_ofNat _ hlt, ← h, littleEndian_unsigned]

end Word

/-! ## Checksums

A cyclic redundancy check of 32 bits: most significant bit first, no reflection, no final mask, and the register to
start from given by the caller, so that checks of consecutive pieces chain. -/

namespace Checksum

/-- The divisor, without its top term. -/
def polynomial : UInt32 := 0x04C11DB7

/-- Shifts one zero bit into the register. -/
def shift (register : UInt32) : UInt32 :=
  if register &&& 0x80000000 = 0 then register <<< 1 else (register <<< 1) ^^^ polynomial

def step (register : UInt32) (byte : UInt8) : UInt32 :=
  Nat.repeat shift 8 (register ^^^ (byte.toUInt32 <<< 24))

def update (register : UInt32) (bytes : List UInt8) : UInt32 := bytes.foldl step register

def ofBytes (data : Bytes) (seed : UInt32) : UInt32 := data.foldl step seed

def updateText (register : UInt32) (text : String) : UInt32 :=
  ofBytes text.toUTF8.data register

theorem ofBytes_eq_update (data : Bytes) (seed : UInt32) :
    ofBytes data seed = update seed data.toList := by
  simp [ofBytes, update]

theorem update_append (register : UInt32) (xs ys : List UInt8) :
    update register (xs ++ ys) = update (update register xs) ys := by
  simp [update]

end Checksum

end CompactAssembly
