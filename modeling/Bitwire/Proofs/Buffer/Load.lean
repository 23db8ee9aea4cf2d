import Bitwire.Proofs.Run
import Bitwire.Stream.Read

/-!
# Loading bits from a buffer

A run that lies within a buffer is loaded as the bytes that hold its bits. Nothing outside of the
buffer is looked at, although the slow path looks one byte ahead wherever a byte of the run lies
across two buffer bytes.

* `Buffer.bitsFrom`: so many bits of a buffer from a position on.
* `bitsAt_eq`, `loadRun_eq`: single bytes and runs are packed bits of the buffer.
-/

namespace Bitwire.Buffer

/-- The `n` bits from a position on. -/
def bitsFrom (buffer : Buffer) (position n : Nat) : List Bool :=
  (List.range' position n).map buffer.bit

variable (buffer : Buffer) (right : Bool)

@[simp] theorem length_bitsFrom (position n : Nat) : (buffer.bitsFrom position n).length = n := by
  simp [bitsFrom]

theorem getElem?_bitsFrom (position : Nat) {n k : Nat} (h : k < n) :
    (buffer.bitsFrom position n)[k]? = some (buffer.bit (position + k)) := by
  rw [bitsFrom, List.getElem?_map, List.getElem?_range' h, Nat.one_mul]
  rfl

theorem bitsFrom_add (position m n : Nat) :
    buffer.bitsFrom position (m + n) =
      buffer.bitsFrom position m ++ buffer.bitsFrom (position + m) n := by
  rw [bitsFrom, bitsFrom, bitsFrom, ← List.map_append, List.range'_append_1]

theorem bitsFrom_succ (position n : Nat) :
    buffer.bitsFrom position (n + 1) = buffer.bit position :: buffer.bitsFrom (position + 1) n := by
  rw [Nat.add_comm, bitsFrom_add]
  rfl

theorem drop_bitsFrom (position n k : Nat) :
    (buffer.bitsFrom position n).drop k = buffer.bitsFrom (position + k) (n - k) := by
  rw [bitsFrom, bitsFrom, ← List.map_drop, List.drop_range', Nat.mul_one]

theorem take_bitsFrom (position n k : Nat) :
    (buffer.bitsFrom position n).take k = buffer.bitsFrom position (min k n) := by
  rw [bitsFrom, bitsFrom, ← List.map_take]
  by_cases h : n ≤ k
  · rw [List.take_range'_of_length_le h, Nat.min_eq_right h]
  · rw [List.take_range'_of_length_ge (by omega), Nat.min_eq_left (by omega)]

/-- All bits of a buffer. -/
theorem bitsOf_toList_eq_bitsFrom : bitsOf buffer.toList = buffer.bitsFrom 0 (8 * buffer.size) := by
  apply List.ext_getElem?
  intro i
  by_cases h : i < 8 * buffer.size
  · rw [getElem?_bitsOf_toList h, getElem?_bitsFrom buffer 0 h, Nat.zero_add]
  · rw [List.getElem?_eq_none (by simp; omega), List.getElem?_eq_none (by simp; omega)]

/-! ## Bytes of a run -/

theorem byteAt_eq {k : Nat} (h : k < buffer.size) : buffer.byteAt k = .ok buffer[k] := by
  rw [byteAt, dif_pos h]
  rfl

/-- A single bit is tested in its byte. -/
theorem and_bitMask_eq_bit {position : Nat} (h : position / 8 < buffer.size) :
    decide (buffer[position / 8] &&& (0x80 >>> UInt8.ofNat (position % 8)) ≠ 0) =
      buffer.bit position := by
  rw [and_bitMask_ne_zero _ ⟨position % 8, by omega⟩, bit_eq_byteBit,
    Array.getElem?_eq_getElem h, byteBit_eq_testBit _ (by omega)]
  rfl

/-- The bits of a byte of the buffer, moved to the left. -/
theorem byteBit_shiftLeft_getElem {position : Nat} (h : position / 8 < buffer.size) (j : Nat) :
    byteBit (buffer[position / 8] <<< UInt8.ofNat (position % 8)) j =
      (decide (position % 8 + j < 8) && buffer.bit (position + j)) := by
  rw [byteBit_shiftLeft _ (by omega), bit_eq_byteBit]
  by_cases hj : position % 8 + j < 8
  · rw [show (position + j) / 8 = position / 8 by omega, Array.getElem?_eq_getElem h,
      show (position + j) % 8 = j + position % 8 by omega]
    simp [hj]
  · rw [byteBit_of_le _ (by omega)]
    simp [hj]

/-- The byte behind it fills up what is missing. -/
theorem byteBit_shiftRight_getElem {position : Nat} (hoff : position % 8 ≠ 0)
    (h : position / 8 + 1 < buffer.size) {j : Nat} (hj : j < 8) :
    byteBit (buffer[position / 8 + 1] >>> UInt8.ofNat (8 - position % 8)) j =
      (decide (8 ≤ position % 8 + j) && buffer.bit (position + j)) := by
  rw [byteBit_shiftRight _ (by omega), bit_eq_byteBit]
  by_cases hle : 8 ≤ position % 8 + j
  · rw [show (position + j) / 8 = position / 8 + 1 by omega, Array.getElem?_eq_getElem h,
      show (position + j) % 8 = j - (8 - position % 8) by omega]
    simp [hle, hj, show 8 - position % 8 ≤ j by omega]
  · simp [hle, show ¬ 8 - position % 8 ≤ j by omega]

/-- A byte with the bits of the run at its high end is cut to them and moved to the low end if asked
for. -/
theorem cut_eq {position len : Nat} (h0 : 0 < len) (h8 : len ≤ 8) {b : UInt8}
    (hb : ∀ j < len, byteBit b j = buffer.bit (position + j)) :
    (if len < 8 then
      if right then (b &&& highMask len) >>> UInt8.ofNat (8 - len) else b &&& highMask len
    else b) = packByte right (buffer.bitsFrom position len) := by
  by_cases hlen : len < 8
  · have hmask : b &&& highMask len = byteOfBits (buffer.bitsFrom position len) := by
      apply ext_byteBit
      intro j _
      rw [byteBit_and, byteBit_highMask h8, byteBit_byteOfBits (by simpa using h8)]
      by_cases hj : j < len
      · rw [getElem?_bitsFrom buffer position hj, hb j hj]
        simp [hj]
      · rw [List.getElem?_eq_none (by simp; omega)]
        simp [hj]
    rw [if_pos hlen, hmask, packByte, length_bitsFrom]
  · obtain rfl : len = 8 := by omega
    have hall : byteBits b = buffer.bitsFrom position 8 := by
      apply List.ext_getElem?
      intro j
      by_cases hj : j < 8
      · rw [getElem?_byteBits b hj, ← byteBit_eq_testBit b hj, hb j hj,
          getElem?_bitsFrom buffer position hj]
      · rw [List.getElem?_eq_none (by simp; omega), List.getElem?_eq_none (by simp; omega)]
    rw [if_neg hlen, ← hall, packByte_byteBits]

theorem bitsAt_eq {position len : Nat} (h0 : 0 < len) (h8 : len ≤ 8)
    (hroom : position + len ≤ 8 * buffer.size) :
    buffer.bitsAt right position len = .ok (packByte right (buffer.bitsFrom position len)) := by
  have hk : position / 8 < buffer.size := by omega
  unfold bitsAt
  simp only [byteAt_eq buffer hk, bind, Except.bind]
  by_cases hoff : position % 8 ≠ 0 ∧ 8 - position % 8 < len
  · have hk' : position / 8 + 1 < buffer.size := by omega
    have hb (j : Nat) (hj : j < len) :
        byteBit (buffer[position / 8] <<< UInt8.ofNat (position % 8) |||
          buffer[position / 8 + 1] >>> UInt8.ofNat (8 - position % 8)) j =
            buffer.bit (position + j) := by
      rw [byteBit_or, byteBit_shiftLeft_getElem buffer hk,
        byteBit_shiftRight_getElem buffer hoff.1 hk' (by omega)]
      by_cases hle : 8 ≤ position % 8 + j
      · simp [hle, show ¬ position % 8 + j < 8 by omega]
      · simp [hle, show position % 8 + j < 8 by omega]
    rw [if_pos hoff, byteAt_eq buffer hk', ← cut_eq buffer right h0 h8 hb]
    by_cases hlen : len < 8 <;> simp [hlen, pure, Except.pure]
  · have hb (j : Nat) (hj : j < len) :
        byteBit (buffer[position / 8] <<< UInt8.ofNat (position % 8)) j =
          buffer.bit (position + j) := by
      rw [byteBit_shiftLeft_getElem buffer hk]
      simp [show position % 8 + j < 8 by omega]
    rw [if_neg hoff, ← cut_eq buffer right h0 h8 hb]
    by_cases hlen : len < 8 <;> simp [hlen, pure, Except.pure]

/-! ## Runs -/

/-- A traversal in which every step succeeds. -/
theorem mapM_eq_ok {α β ε : Type} {l : List α} {f : α → Except ε β} {g : α → β}
    (h : ∀ x ∈ l, f x = .ok (g x)) : l.mapM f = .ok (l.map g) := by
  induction l with
  | nil => rfl
  | cons x xs ih =>
    rw [List.mapM_cons, h x (by simp), ih fun y hy => h y (by simp [hy])]
    rfl

theorem gatherRun_eq {position n : Nat} (hroom : position + n ≤ 8 * buffer.size) :
    buffer.gatherRun right position n = .ok (packRun right (buffer.bitsFrom position n)) := by
  rw [gatherRun, packRun, length_bitsFrom]
  apply mapM_eq_ok
  intro i hi
  have hi : 8 * i < n := by
    have := List.mem_range.1 hi
    unfold bytesFor at this
    omega
  rw [bitsAt_eq buffer right (by omega) (by omega) (by omega), drop_bitsFrom, take_bitsFrom]

/-- The bits of a slice of a buffer. -/
theorem bitsOf_extract {k m : Nat} (h : k + m ≤ buffer.size) :
    bitsOf (buffer.extract k (k + m)).toList = buffer.bitsFrom (8 * k) (8 * m) := by
  rw [bitsOf_toList_eq_bitsFrom]
  apply List.ext_getElem?
  intro i
  by_cases hi : i < 8 * m
  · rw [getElem?_bitsFrom buffer _ hi, getElem?_bitsFrom _ _ (by simp; omega), bit_eq_byteBit,
      bit_eq_byteBit, Array.getElem?_extract, if_pos (by omega),
      show (8 * k + i) / 8 = k + (0 + i) / 8 by omega,
      show (8 * k + i) % 8 = (0 + i) % 8 by omega]
  · rw [List.getElem?_eq_none (by simp; omega), List.getElem?_eq_none (by simp; omega)]

theorem bytesAt_eq {k m : Nat} (h : k + m ≤ buffer.size) :
    buffer.bytesAt k m = .ok (packRun right (buffer.bitsFrom (8 * k) (8 * m))) := by
  rw [bytesAt, if_pos h, ← bitsOf_extract buffer h, packRun_bitsOf]
  rfl

theorem bytesAt_eq_ok {k m : Nat} {src : List UInt8} (h : buffer.bytesAt k m = .ok src) :
    src.length = m ∧ bitsOf src = buffer.bitsFrom (8 * k) (8 * m) := by
  unfold bytesAt at h
  split at h
  · rename_i hle
    cases h
    exact ⟨by simp; omega, bitsOf_extract buffer hle⟩
  · contradiction

/-- A run within the buffer is loaded, whether its bytes are copied or gathered. -/
theorem loadRun_eq {position n : Nat} (hroom : position + n ≤ 8 * buffer.size) :
    buffer.loadRun right position n = .ok (packRun right (buffer.bitsFrom position n)) := by
  unfold loadRun
  split
  · rename_i h
    rw [bytesAt_eq buffer right (by omega), show 8 * (position / 8) = position by omega,
      show 8 * (n / 8) = n by omega]
  · exact gatherRun_eq buffer right hroom

end Bitwire.Buffer
