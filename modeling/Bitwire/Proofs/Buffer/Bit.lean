import Bitwire.Stream.Write

/-!
# Single bits of bytes and buffers

Every access to a buffer is described bit by bit: `byteBit b j` is bit `j` of a byte, counted from
the most significant one, and `Buffer.bit` the bit of a buffer at a position. Behind the end of
either, bits count as zero.

* `byteBit_or` … `byteBit_highMask`: shifts and masks move and select bits.
* `setByte_eq`, `changeByte_eq`: stores within a buffer.
* `bit_setIfInBounds`, `bit_modify`, `bit_resize`: what changing bytes does to the bits.
* `Buffer.ext_bit`: a buffer is determined by its size and its bits.
-/

namespace Bitwire

/-! ## Bytes -/

/-- Bit `j` of a byte, counted from the most significant one. -/
def byteBit (b : UInt8) (j : Nat) : Bool := (byteBits b)[j]?.getD false

theorem byteBit_eq_testBit (b : UInt8) {j : Nat} (h : j < 8) :
    byteBit b j = b.toNat.testBit (7 - j) := by
  rw [byteBit, getElem?_byteBits b h, Option.getD_some]

theorem byteBit_of_le (b : UInt8) {j : Nat} (h : 8 ≤ j) : byteBit b j = false := by
  rw [byteBit, List.getElem?_eq_none (by simpa using h), Option.getD_none]

@[simp] theorem byteBit_zero (j : Nat) : byteBit 0 j = false := by
  by_cases h : j < 8
  · rw [byteBit_eq_testBit 0 h]; simp
  · exact byteBit_of_le 0 (by omega)

theorem byteBit_or (a b : UInt8) (j : Nat) : byteBit (a ||| b) j = (byteBit a j || byteBit b j) := by
  by_cases h : j < 8
  · simp only [byteBit_eq_testBit _ h, UInt8.toNat_or, Nat.testBit_or]
  · simp only [byteBit_of_le _ (show 8 ≤ j by omega), Bool.or_self]

theorem byteBit_and (a b : UInt8) (j : Nat) : byteBit (a &&& b) j = (byteBit a j && byteBit b j) := by
  by_cases h : j < 8
  · simp only [byteBit_eq_testBit _ h, UInt8.toNat_and, Nat.testBit_and]
  · simp only [byteBit_of_le _ (show 8 ≤ j by omega), Bool.and_self]

theorem toNat_ofNat_mod_eight {k : Nat} (h : k < 8) : (UInt8.ofNat k).toNat % 8 = k := by
  rw [UInt8.toNat_ofNat']
  omega

theorem byteBit_shiftRight (b : UInt8) {k : Nat} (hk : k < 8) (j : Nat) :
    byteBit (b >>> UInt8.ofNat k) j = (decide (k ≤ j ∧ j < 8) && byteBit b (j - k)) := by
  by_cases h : j < 8
  · rw [byteBit_eq_testBit _ h, byteBit_eq_testBit _ (by omega : j - k < 8), UInt8.toNat_shiftRight,
      toNat_ofNat_mod_eight hk, Nat.testBit_shiftRight]
    by_cases hkj : k ≤ j
    · simp [hkj, h, show k + (7 - j) = 7 - (j - k) by omega]
    · have : 2 ^ 8 ≤ 2 ^ (k + (7 - j)) := Nat.pow_le_pow_right (by decide) (by omega)
      rw [Nat.testBit_lt_two_pow (Nat.lt_of_lt_of_le b.toNat_lt this)]
      simp [hkj]
  · simp [byteBit_of_le _ (show 8 ≤ j by omega), h]

theorem byteBit_shiftLeft (b : UInt8) {k : Nat} (hk : k < 8) (j : Nat) :
    byteBit (b <<< UInt8.ofNat k) j = byteBit b (j + k) := by
  by_cases h : j < 8
  · rw [byteBit_eq_testBit _ h, UInt8.toNat_shiftLeft, toNat_ofNat_mod_eight hk,
      Nat.testBit_mod_two_pow, Nat.testBit_shiftLeft]
    by_cases hjk : j + k < 8
    · rw [byteBit_eq_testBit _ hjk, show 7 - j - k = 7 - (j + k) by omega]
      simp [show k ≤ 7 - j by omega, show 7 - j < 8 by omega]
    · rw [byteBit_of_le _ (by omega)]
      simp [show ¬ k ≤ 7 - j by omega]
  · rw [byteBit_of_le _ (by omega), byteBit_of_le _ (by omega)]

theorem byteBit_leadingBit (b : Bool) (j : Nat) :
    byteBit (if b then 0x80 else 0) j = (b && decide (j = 0)) := by
  by_cases h : j < 8
  · rw [byteBit_eq_testBit _ h, testBit_leadingBit]
    by_cases hj : j = 0 <;> simp [hj]
    omega
  · simp [byteBit_of_le _ (show 8 ≤ j by omega), show j ≠ 0 by omega]

theorem byteBit_highMask {len : Nat} (hl : len ≤ 8) (j : Nat) :
    byteBit (highMask len) j = decide (j < len) := by
  unfold highMask
  split
  · rename_i h
    simp [h]
  · rename_i h
    have ones (i : Nat) : byteBit 0xFF i = decide (i < 8) := by
      by_cases hi : i < 8
      · rw [byteBit_eq_testBit _ hi, show (0xFF : UInt8).toNat = 2 ^ 8 - 1 from rfl,
          Nat.testBit_two_pow_sub_one]
        simp [hi, show 7 - i < 8 by omega]
      · simp [byteBit_of_le _ (show 8 ≤ i by omega), hi]
    rw [byteBit_shiftLeft _ (by omega), ones]
    simp only [decide_eq_decide]
    omega

theorem byteBit_byteOfBits {bits : List Bool} (hl : bits.length ≤ 8) (j : Nat) :
    byteBit (byteOfBits bits) j = bits[j]?.getD false := by
  by_cases h : j < 8
  · rw [byteBit_eq_testBit _ h, testBit_byteOfBits bits h]
  · rw [byteBit_of_le _ (by omega), List.getElem?_eq_none (by omega), Option.getD_none]

/-- A byte is determined by its bits. -/
theorem ext_byteBit {a b : UInt8} (h : ∀ j < 8, byteBit a j = byteBit b j) : a = b := by
  rw [← byteOfBits_byteBits a, ← byteOfBits_byteBits b]
  congr 1
  apply List.ext_getElem?
  intro j
  by_cases hj : j < 8
  · have := h j hj
    rw [byteBit_eq_testBit _ hj, byteBit_eq_testBit _ hj] at this
    rw [getElem?_byteBits a hj, getElem?_byteBits b hj, this]
  · rw [List.getElem?_eq_none (by simp; omega), List.getElem?_eq_none (by simp; omega)]

/-! ## Buffers -/

namespace Buffer

/-- The bit of a buffer at a position. -/
def bit (buffer : Buffer) (i : Nat) : Bool := (bitsOf buffer.toList)[i]?.getD false

theorem bit_eq_byteBit (buffer : Buffer) (i : Nat) :
    buffer.bit i = byteBit (buffer[i / 8]?.getD 0) (i % 8) := by
  rw [bit, getElem?_bitsOf, Array.getElem?_toList]
  cases buffer[i / 8]? with
  | none => simp
  | some b => rw [Option.getD_some, byteBit_eq_testBit b (by omega)]; rfl

theorem bit_of_le {buffer : Buffer} {i : Nat} (h : 8 * buffer.size ≤ i) : buffer.bit i = false := by
  rw [bit, List.getElem?_eq_none (by simpa using h), Option.getD_none]

theorem getElem?_bitsOf_toList {buffer : Buffer} {i : Nat} (h : i < 8 * buffer.size) :
    (bitsOf buffer.toList)[i]? = some (buffer.bit i) := by
  rw [bit, List.getElem?_eq_getElem (by simpa using h), Option.getD_some]

theorem ext_bit {a b : Buffer} (hs : a.size = b.size) (h : ∀ i, a.bit i = b.bit i) : a = b := by
  apply Array.ext hs
  intro k ha hb
  apply ext_byteBit
  intro j hj
  have := h (8 * k + j)
  rwa [bit_eq_byteBit, bit_eq_byteBit, show (8 * k + j) / 8 = k by omega,
    show (8 * k + j) % 8 = j by omega, Array.getElem?_eq_getElem ha, Array.getElem?_eq_getElem hb,
    Option.getD_some, Option.getD_some] at this

theorem bit_setIfInBounds (buffer : Buffer) {k : Nat} (hk : k < buffer.size) (b : UInt8) (i : Nat) :
    Buffer.bit (buffer.setIfInBounds k b) i =
      if i / 8 = k then byteBit b (i % 8) else buffer.bit i := by
  rw [bit_eq_byteBit, bit_eq_byteBit, Array.getElem?_setIfInBounds]
  by_cases h : i / 8 = k
  · simp [h, hk]
  · simp [h, Ne.symm h]

theorem bit_modify (buffer : Buffer) {k : Nat} (hk : k < buffer.size) (f : UInt8 → UInt8) (i : Nat) :
    Buffer.bit (buffer.modify k f) i =
      if i / 8 = k then byteBit (f buffer[k]) (i % 8) else buffer.bit i := by
  rw [bit_eq_byteBit, bit_eq_byteBit, Array.getElem?_modify]
  by_cases h : i / 8 = k
  · simp [h, hk]
  · simp [h, Ne.symm h]

theorem setByte_eq {buffer : Buffer} {k : Nat} (hk : k < buffer.size) (b : UInt8) :
    buffer.setByte k b = .ok (buffer.setIfInBounds k b) := by
  rw [setByte, dif_pos hk, Array.setIfInBounds, dif_pos hk]
  rfl

theorem changeByte_eq {buffer : Buffer} {k : Nat} (hk : k < buffer.size) (f : UInt8 → UInt8) :
    buffer.changeByte k f = .ok (buffer.modify k f) := by
  have hbyte : buffer.byteAt k = .ok buffer[k] := dif_pos hk
  have hmodify : buffer.modify k f = buffer.setIfInBounds k (f buffer[k]) := by
    apply Array.ext_getElem?
    intro i
    rw [Array.getElem?_modify, Array.getElem?_setIfInBounds]
    by_cases h : k = i
    · subst h
      simp [hk]
    · simp [h]
  rw [changeByte, hbyte, hmodify]
  exact setByte_eq hk _

@[simp] theorem size_zeros (bytes : Nat) : (zeros bytes).size = bytes := by simp [zeros]

theorem bit_zeros (bytes i : Nat) : (zeros bytes).bit i = false := by
  rw [bit_eq_byteBit, zeros, Array.getElem?_replicate]
  split <;> simp

@[simp] theorem size_resize {buffer : Buffer} {bytes : Nat} (h : buffer.size ≤ bytes) :
    (buffer.resize bytes).size = bytes := by
  simp [resize]
  omega

/-- Growing a buffer keeps its bits; the new ones are zero. -/
theorem bit_resize {buffer : Buffer} {bytes : Nat} (h : buffer.size ≤ bytes) (i : Nat) :
    (buffer.resize bytes).bit i = buffer.bit i := by
  by_cases hi : i < 8 * buffer.size
  · rw [bit_eq_byteBit, bit_eq_byteBit, resize, Array.getElem?_append_left (by simp; omega)]
    simp [show i / 8 < buffer.size by omega, show i / 8 < min bytes buffer.size by omega]
  · have hnone : buffer.bit i = false := bit_of_le (by omega)
    rw [hnone, bit_eq_byteBit, resize, Array.getElem?_append_right (by simp; omega), zeros,
      Array.getElem?_replicate]
    split <;> simp

end Buffer

end Bitwire
