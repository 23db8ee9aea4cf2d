import Mathlib.Algebra.Group.Int.Defs
import Bitwire.Proofs.Decode.Kind

/-!
# Words in memory

A word is its pattern, which a register keeps zero-extended and memory as an image in the order of the
host. The sign of the type plays no part in either: a negative number has the pattern of its remainder
modulo the power of two, with zeros above it, and its image lists the digits of that pattern.

* `Word.toNat_raw`, `Word.natCast_toNat`: the pattern as a number.
* `toNat_littleBytes`: an image digit by digit.
* `Word.image_exact`: words and their images for all types and orders.
-/

namespace Bitwire

/-! ## Images -/

/-- A run that is brought into another order and back is unchanged, also where it is no image. -/
theorem ByteOrder.reorder_reorder (a b : ByteOrder) (run : List UInt8) :
    b.reorder a (a.reorder b run) = run := by
  cases a <;> cases b <;> simp [reorder]

theorem toNat_littleBytes (k n : Nat) :
    (littleBytes k n).map UInt8.toNat = (List.range k).map fun i => n / 256 ^ i % 256 := by
  apply List.ext_getElem?
  intro i
  rw [List.getElem?_map, List.getElem?_map]
  by_cases hi : i < k
  · rw [getElem?_littleBytes n hi, List.getElem?_range hi, Option.map_some, Option.map_some,
      UInt8.toNat_ofNat']
  · rw [List.getElem?_eq_none (by simpa using hi), List.getElem?_eq_none (by simpa using hi)]
    rfl

/-! ## Patterns -/

namespace Word

variable {t : IntType}

/-- Zeros above a pattern do not count. -/
theorem toNat_raw (w : Word t) : w.raw.toNat = w.toNat := by
  have hlt : w.toNat < 2 ^ 64 :=
    Nat.lt_of_lt_of_le w.isLt (Nat.pow_le_pow_right (by decide) t.bits_le)
  rw [raw, UInt64.toNat_ofNat', Nat.mod_eq_of_lt hlt]

/-- The pattern of a number is its remainder modulo the power of two. -/
theorem natCast_toNat (w : Word t) : (w.toNat : Int) = w.value % 2 ^ t.bits := by
  have hpow : ((2 ^ t.bits : Nat) : Int) = 2 ^ t.bits := Int.natCast_pow 2 t.bits
  have hself : (w.toNat : Int) % (2 ^ t.bits : Nat) = w.toNat :=
    Int.emod_eq_of_lt (Int.natCast_nonneg _) (Int.ofNat_lt.2 w.isLt)
  unfold value
  rw [← hpow]
  split
  · rw [BitVec.toInt_eq_toNat_bmod, Int.bmod_emod, hself]
  · exact hself.symm

theorem ofRaw_raw (w : Word t) : ofRaw t w.raw = w := by
  rw [ofRaw, toNat_raw, ofNat_toNat_self]

theorem toNat_raw_ofRaw (t : IntType) (r : UInt64) : (ofRaw t r).raw.toNat = r.toNat % 2 ^ t.bits := by
  rw [toNat_raw, ofRaw, BitVec.toNat_ofNat]

/-- For every type, value and pair of orders: the image in one order, brought into the other, is the
image in that order, and the word comes back from it. A word comes back from its zero-extended pattern;
of any 64-bit pattern the low bits are kept. This pattern is the number modulo the power of two, and its
digits to the base 256, least significant first, are the little-endian image. Byte strings of any length
that are brought into another order and back are unchanged. -/
theorem image_exact (w : Word t) (a b : ByteOrder) (r : UInt64) (run : List UInt8) :
    a.reorder b (w.image a) = w.image b ∧
      ofImage t b (a.reorder b (w.image a)) = w ∧
      ofRaw t w.raw = w ∧
      (ofRaw t r).raw.toNat = r.toNat % 2 ^ t.bits ∧
      (w.raw.toNat : Int) = w.value % 2 ^ t.bits ∧
      (w.image .little).map UInt8.toNat =
        (List.range t.bytes).map (fun i => w.raw.toNat / 256 ^ i % 256) ∧
      b.reorder a (a.reorder b run) = run := by
  have himage : a.reorder b (w.image a) = w.image b := ByteOrder.reorder_bytes a b t.bytes w.toNat
  refine ⟨himage, ?_, ofRaw_raw w, toNat_raw_ofRaw t r, ?_, ?_, ByteOrder.reorder_reorder a b run⟩
  · rw [himage]
    exact ofNat_number_bytes b w
  · rw [toNat_raw, natCast_toNat]
  · rw [toNat_raw]
    exact toNat_littleBytes t.bytes w.toNat

/-- A negative number of 16 bits: its sign is not in the pattern of 64 bits. -/
example : raw (t := .i16) 0xFFFE#16 = 0xFFFE ∧ value (t := .i16) 0xFFFE#16 = -2 ∧
    image (t := .i16) .little 0xFFFE#16 = [0xFE, 0xFF] := by decide

end Word

end Bitwire
