import Mathlib.Data.List.GetD
import Bitwire.Proofs.Image
import Bitwire.Proofs.Run
import Bitwire.Proofs.Wire.Format

/-!
# Memory images on the wire

An image in network order has the bits of the pattern from the most significant one down, and a
little-endian image has its bytes from the least significant one up. The incomplete byte at the end of
a right-aligned run gives the bits at the head of the pattern that no whole byte holds.

* `byteBits_eq_pattern`, `bitsOf_eq_bytes`: bytes and byte strings.
* `bitsOf_networkBytes`, `toBitVec_littleBytes`: images of patterns.
* `takenBits_littleBytes`: the first bits of a little-endian image.
-/

namespace Bitwire

open Wire

/-! ## Patterns -/

namespace Wire

@[simp] theorem length_pattern {n : Nat} (w : BitVec n) : (pattern w).length = n := by
  simp [pattern]

theorem getElem?_pattern {n i : Nat} (w : BitVec n) (h : i < n) :
    (pattern w)[i]? = some (w.toNat.testBit (n - 1 - i)) := by
  rw [pattern, List.getElem?_map, List.getElem?_range h, Option.map_some, BitVec.getMsbD_eq_getLsbD]
  simp [h, BitVec.getLsbD]

@[simp] theorem bytes_nil : bytes [] = [] := rfl

@[simp] theorem bytes_cons (b : BitVec 8) (bs : List (BitVec 8)) :
    bytes (b :: bs) = pattern b ++ bytes bs := rfl

@[simp] theorem length_lowBytes {n : Nat} (k : Nat) (w : BitVec n) : (lowBytes k w).length = k := by
  simp [lowBytes]

end Wire

/-! ## Bytes -/

theorem byteBits_eq_pattern (b : UInt8) : byteBits b = pattern b.toBitVec := by
  apply List.ext_getElem?
  intro j
  by_cases hj : j < 8
  · rw [getElem?_byteBits b hj, getElem?_pattern b.toBitVec hj, UInt8.toNat_toBitVec]
  · rw [List.getElem?_eq_none (by simp; omega), List.getElem?_eq_none (by simp; omega)]

theorem bitsOf_eq_bytes (src : List UInt8) : bitsOf src = bytes (src.map (·.toBitVec)) := by
  induction src with
  | nil => rfl
  | cons b bs ih => rw [bitsOf_cons, List.map_cons, bytes_cons, byteBits_eq_pattern, ih]

/-- The low bits of a byte, most significant first. -/
theorem partBits_true_eq_pattern {k : Nat} (h : k ≤ 8) (b : UInt8) :
    partBits true k b = pattern (b.toBitVec.extractLsb' 0 k) := by
  apply List.ext_getElem?
  intro j
  by_cases hj : j < k
  · rw [getElem?_partBits true h b hj, getElem?_pattern _ hj, if_pos rfl,
      byteBit_eq_testBit b (by omega), BitVec.extractLsb'_toNat, Nat.shiftRight_zero,
      Nat.testBit_mod_two_pow, UInt8.toNat_toBitVec, show 7 - (8 - k + j) = k - 1 - j by omega]
    simp [show k - 1 - j < k by omega]
  · rw [List.getElem?_eq_none (by rw [length_partBits true h]; omega),
      List.getElem?_eq_none (by simp; omega)]

/-! ## Images -/

theorem testBit_littleByte (n i : Nat) {j : Nat} (h : j < 8) :
    (UInt8.ofNat (n / 256 ^ i)).toNat.testBit j = n.testBit (8 * i + j) := by
  rw [UInt8.toNat_ofNat', Nat.testBit_mod_two_pow, show (256 : Nat) = 2 ^ 8 from rfl, ← Nat.pow_mul,
    Nat.testBit_div_two_pow]
  simp [h, Nat.add_comm]

/-- An image in network order has the bits of the pattern, most significant first. -/
theorem bitsOf_networkBytes {k : Nat} (w : BitVec (8 * k)) :
    bitsOf (ByteOrder.network.bytes k w.toNat) = pattern w := by
  apply List.ext_getElem?
  intro i
  by_cases hi : i < 8 * k
  · have hbyte : (ByteOrder.network.bytes k w.toNat)[i / 8]? =
        some (UInt8.ofNat (w.toNat / 256 ^ (k - 1 - i / 8))) := by
      change (littleBytes k w.toNat).reverse[i / 8]? = _
      rw [List.getElem?_reverse (by rw [length_littleBytes]; omega), length_littleBytes,
        getElem?_littleBytes _ (by omega)]
    rw [getElem?_bitsOf, hbyte, Option.map_some, getElem?_pattern w hi,
      testBit_littleByte _ _ (by omega),
      show 8 * (k - 1 - i / 8) + (7 - i % 8) = 8 * k - 1 - i by omega]
  · rw [List.getElem?_eq_none (by simp; omega), List.getElem?_eq_none (by simp; omega)]

/-- A little-endian image has the low bytes of the pattern. -/
theorem toBitVec_littleBytes {n : Nat} (k : Nat) (w : BitVec n) :
    (littleBytes k w.toNat).map (·.toBitVec) = lowBytes k w := by
  apply List.ext_getElem?
  intro i
  by_cases hi : i < k
  · rw [List.getElem?_map, getElem?_littleBytes _ hi, lowBytes, List.getElem?_map,
      List.getElem?_range hi, Option.map_some, Option.map_some]
    congr 1
    apply BitVec.eq_of_toNat_eq
    rw [UInt8.toNat_toBitVec, UInt8.toNat_ofNat', BitVec.extractLsb'_toNat,
      Nat.shiftRight_eq_div_pow, Nat.pow_mul]
  · rw [List.getElem?_eq_none (by simp; omega), List.getElem?_eq_none (by simp; omega)]

/-- The first `n` bits of a little-endian image: its whole bytes, and the low bits of the next one. -/
theorem takenBits_littleBytes {k n : Nat} (h : n ≤ 8 * k) (w : BitVec n) :
    takenBits true n (littleBytes k w.toNat) =
      bytes (lowBytes (n / 8) w) ++ pattern (w.extractLsb' (8 * (n / 8)) (n % 8)) := by
  have hwhole : (littleBytes k w.toNat).take (n / 8) = littleBytes (n / 8) w.toNat := by
    apply List.ext_getElem?
    intro i
    rw [List.getElem?_take]
    by_cases hi : i < n / 8
    · rw [if_pos hi, getElem?_littleBytes _ (by omega), getElem?_littleBytes _ hi]
    · rw [if_neg hi, List.getElem?_eq_none (by simp; omega)]
  rw [takenBits, hwhole, bitsOf_eq_bytes, toBitVec_littleBytes]
  congr 1
  by_cases hpart : n % 8 = 0
  · rw [hpart]
    cases (littleBytes k w.toNat)[n / 8]? <;> simp [partBits, pattern]
  · rw [getElem?_littleBytes _ (by omega), Option.map_some, Option.getD_some,
      partBits_true_eq_pattern (by omega)]
    congr 1
    apply BitVec.eq_of_toNat_eq
    rw [BitVec.extractLsb'_toNat, BitVec.extractLsb'_toNat, UInt8.toNat_toBitVec,
      UInt8.toNat_ofNat', Nat.shiftRight_zero, Nat.shiftRight_eq_div_pow, Nat.pow_mul,
      Nat.mod_mod_of_dvd _ (Nat.pow_dvd_pow 2 (by omega))]

end Bitwire
