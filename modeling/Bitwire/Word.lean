import Bitwire.ByteOrder

/-!
# Fixed-width integers

A word is a bit pattern of 8, 16, 32 or 64 bits together with the reading of it as an unsigned or a
two's-complement number. Sums and differences of words wrap around; words are ordered by the numbers
they are read as.
-/

namespace Bitwire

/-- The widths and readings of integers on the wire (`WireInt`). -/
inductive IntType
  | u8
  | u16
  | u32
  | u64
  | i8
  | i16
  | i32
  | i64
deriving DecidableEq, Repr

namespace IntType

/-- Width in bytes. -/
def bytes : IntType → Nat
  | u8 | i8 => 1
  | u16 | i16 => 2
  | u32 | i32 => 4
  | u64 | i64 => 8

/-- Width in bits. -/
def bits (t : IntType) : Nat := 8 * t.bytes

/-- Whether patterns are read as two's-complement numbers. -/
def signed : IntType → Bool
  | u8 | u16 | u32 | u64 => false
  | i8 | i16 | i32 | i64 => true

theorem bits_le (t : IntType) : t.bits ≤ 64 := by cases t <;> decide

end IntType

/-- An integer of the given type, as its bit pattern. -/
abbrev Word (t : IntType) := BitVec t.bits

namespace Word

variable {t : IntType}

/-- The number that the pattern is read as. -/
def value (w : Word t) : Int := if t.signed then w.toInt else w.toNat

/-- The pattern of a number, of which only the low bits count. -/
def ofValue (t : IntType) (n : Int) : Word t := BitVec.ofInt t.bits n

/-- The pattern, zero-extended to 64 bits (`to_raw`). -/
def raw (w : Word t) : UInt64 := UInt64.ofNat w.toNat

/-- The word whose pattern is the low bits of `r` (`from_raw`). -/
def ofRaw (t : IntType) (r : UInt64) : Word t := BitVec.ofNat t.bits r.toNat

/-- The memory image of a word (`image`). -/
def image (o : ByteOrder) (w : Word t) : List UInt8 := o.bytes t.bytes w.toNat

/-- The word with the given memory image (`from_image`). -/
def ofImage (t : IntType) (o : ByteOrder) (image : List UInt8) : Word t :=
  BitVec.ofNat t.bits (o.number image)

end Word

end Bitwire
