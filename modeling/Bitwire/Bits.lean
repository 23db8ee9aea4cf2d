/-!
# Bits of bytes

The bits of a byte are listed from its most significant one down, and the bits of a byte string are
those of its bytes, one after the other. All lengths and positions in a stream count along this
list.

* `getElem?_bitsOf`: where a bit of a byte string is found.
* `testBit_byteOfBits`, `byteOfBits_byteBits`: packing bits into a byte and unpacking them.
-/

namespace Bitwire

/-- The bits of a byte, most significant first. -/
def byteBits (b : UInt8) : List Bool :=
  (List.range 8).map fun j => b &&& (0x80 >>> UInt8.ofNat j) ≠ 0

/-- The bits of a byte string. -/
def bitsOf (bytes : List UInt8) : List Bool := bytes.flatMap byteBits

/-- The byte whose bits, from the most significant one down, begin with the given ones, at most
eight; the others are zero. -/
def byteOfBits : List Bool → UInt8
  | [] => 0
  | b :: bs => (if b then (0x80 : UInt8) else 0) ||| byteOfBits bs >>> 1

/-- The byte whose `len` high bits, `len ≤ 8`, are set. -/
def highMask (len : Nat) : UInt8 := if len = 0 then 0 else 0xFF <<< UInt8.ofNat (8 - len)

/-- The number of bytes that hold `bits` bits. -/
def bytesFor (bits : Nat) : Nat := (bits + 7) / 8

/-- The number of bits from a position to the next byte boundary. -/
def padding (position : Nat) : Nat := (8 - position % 8) % 8

@[simp] theorem length_byteBits (b : UInt8) : (byteBits b).length = 8 := by simp [byteBits]

@[simp] theorem length_bitsOf (bytes : List UInt8) : (bitsOf bytes).length = 8 * bytes.length := by
  induction bytes with
  | nil => rfl
  | cons b bs ih => simp only [bitsOf, List.flatMap_cons, List.length_append, length_byteBits,
      List.length_cons] at ih ⊢; omega

/-! ## Bits and bytes -/

/-- A single-bit mask tests the bit it selects. -/
theorem and_bitMask_ne_zero (b : UInt8) (j : Fin 8) :
    decide (b &&& (0x80 >>> UInt8.ofNat j.val) ≠ 0) = b.toNat.testBit (7 - j.val) := by
  cases b with
  | ofBitVec v =>
    cases v with
    | ofFin n =>
      revert n j
      decide +kernel

theorem getElem?_byteBits (b : UInt8) {j : Nat} (h : j < 8) :
    (byteBits b)[j]? = some (b.toNat.testBit (7 - j)) := by
  simp only [byteBits, List.getElem?_map, List.getElem?_range h, Option.map_some]
  exact congrArg some (and_bitMask_ne_zero b ⟨j, h⟩)

/-- Bit `i` of a byte string is bit `i % 8`, from the top, of its byte `i / 8`. -/
theorem getElem?_bitsOf (bytes : List UInt8) (i : Nat) :
    (bitsOf bytes)[i]? = bytes[i / 8]?.map fun b => b.toNat.testBit (7 - i % 8) := by
  induction bytes generalizing i with
  | nil => simp [bitsOf]
  | cons b bs ih =>
    rw [bitsOf, List.flatMap_cons, List.getElem?_append, length_byteBits]
    split
    · rename_i h
      rw [getElem?_byteBits b h]
      simp [Nat.div_eq_of_lt h, Nat.mod_eq_of_lt h]
    · rename_i h
      have h1 : i / 8 = (i - 8) / 8 + 1 := by omega
      have h2 : (i - 8) % 8 = i % 8 := by omega
      rw [← bitsOf, ih, h1, h2, List.getElem?_cons_succ]

theorem testBit_leadingBit (b : Bool) (i : Nat) :
    (if b then (0x80 : UInt8) else 0).toNat.testBit i = (b && i == 7) := by
  cases b with
  | false => simp
  | true => rw [if_pos rfl, show (0x80 : UInt8).toNat = 2 ^ 7 from rfl, Nat.testBit_two_pow]; grind

/-- Missing bits of a packed byte are zero. -/
theorem testBit_byteOfBits (bits : List Bool) {j : Nat} (h : j < 8) :
    (byteOfBits bits).toNat.testBit (7 - j) = bits[j]?.getD false := by
  induction bits generalizing j with
  | nil => simp [byteOfBits]
  | cons b bs ih =>
    rw [byteOfBits, UInt8.toNat_or, UInt8.toNat_shiftRight, Nat.testBit_or, testBit_leadingBit]
    simp only [UInt8.reduceToNat, Nat.reduceMod, Nat.testBit_shiftRight]
    cases j with
    | zero =>
      rw [Nat.testBit_lt_two_pow (Nat.lt_of_lt_of_le (byteOfBits bs).toNat_lt (by decide))]
      simp
    | succ j =>
      rw [show 1 + (7 - (j + 1)) = 7 - j by omega, ih (by omega), List.getElem?_cons_succ]
      simp [show 6 - j ≠ 7 by omega]

theorem byteOfBits_byteBits (b : UInt8) : byteOfBits (byteBits b) = b := by
  apply UInt8.toNat_inj.1
  apply Nat.eq_of_testBit_eq
  intro i
  by_cases h : i < 8
  · have := testBit_byteOfBits (byteBits b) (j := 7 - i) (by omega)
    rw [show 7 - (7 - i) = i by omega, getElem?_byteBits b (by omega)] at this
    rw [this, show 7 - (7 - i) = i by omega]; rfl
  · have h8 : 2 ^ 8 ≤ 2 ^ i := Nat.pow_le_pow_right (by decide) (by omega)
    rw [Nat.testBit_lt_two_pow (Nat.lt_of_lt_of_le (UInt8.toNat_lt _) h8),
      Nat.testBit_lt_two_pow (Nat.lt_of_lt_of_le (UInt8.toNat_lt _) h8)]

end Bitwire
