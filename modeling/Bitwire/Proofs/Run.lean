import Bitwire.Proofs.Buffer.Bit

/-!
# Runs of bits

A run of `n` bits takes its bits from whole bytes and, where it ends within a byte, from the low or
the high end of the last one. Taking a run and packing it are inverse to each other up to the bits of
the last byte that belong to no run.

* `takenBits`, `packRun`: the bits that a run takes from its source, and the bytes that hold a run.
* `CleanRun`: the bits of the last source byte that a run does not take are zero.
* `packRun_takenBits`: taking a clean run and packing it gives its bytes back.
* `bitsOf_packRun_false`: a left-aligned run is its bits and zeros up to the next byte boundary.
* `byteBits_getElem?_packRun`, `takenBits_packRun`: the bits of a packed run.
* `packRun_append_bytes`: a run that begins with whole bytes, packed in two parts.
-/

namespace Bitwire

/-- The `k` bits of a run in its incomplete last byte: the low ones if `right`, and else the high
ones. -/
def partBits (right : Bool) (k : Nat) (b : UInt8) : List Bool :=
  if right then (byteBits b).drop (8 - k) else (byteBits b).take k

/-- The `n` bits that a run takes from its source. -/
def takenBits (right : Bool) (n : Nat) (src : List UInt8) : List Bool :=
  bitsOf (src.take (n / 8)) ++ (src[n / 8]?.map (partBits right (n % 8))).getD []

/-- The byte that holds at most eight bits, at its low end if `right`, and else at its high end. -/
def packByte (right : Bool) (chunk : List Bool) : UInt8 :=
  if right then byteOfBits chunk >>> UInt8.ofNat (8 - chunk.length) else byteOfBits chunk

/-- The bytes that hold a run of bits. -/
def packRun (right : Bool) (bits : List Bool) : List UInt8 :=
  (List.range (bytesFor bits.length)).map fun i => packByte right ((bits.drop (8 * i)).take 8)

/-- The bits of the last source byte that a run does not take are zero. -/
def CleanRun (right : Bool) (n : Nat) (src : List UInt8) : Prop :=
  n % 8 ≠ 0 → ∀ b ∈ src[n / 8]?,
    (if right then b >>> UInt8.ofNat (n % 8) else b <<< UInt8.ofNat (n % 8)) = 0

/-! ## Taking a run -/

@[simp] theorem bitsOf_nil : bitsOf [] = [] := rfl

theorem bitsOf_cons (b : UInt8) (bs : List UInt8) : bitsOf (b :: bs) = byteBits b ++ bitsOf bs := rfl

@[simp] theorem takenBits_zero (right : Bool) (src : List UInt8) : takenBits right 0 src = [] := by
  cases right <;> cases src <;> simp [takenBits, partBits]

theorem takenBits_of_lt (right : Bool) {n : Nat} (h : n < 8) (b : UInt8) (bs : List UInt8) :
    takenBits right n (b :: bs) = partBits right n b := by
  simp [takenBits, Nat.div_eq_of_lt h, Nat.mod_eq_of_lt h]

theorem takenBits_of_le (right : Bool) {n : Nat} (h : 8 ≤ n) (b : UInt8) (bs : List UInt8) :
    takenBits right n (b :: bs) = byteBits b ++ takenBits right (n - 8) bs := by
  have h1 : n / 8 = (n - 8) / 8 + 1 := by omega
  have h2 : n % 8 = (n - 8) % 8 := by omega
  rw [takenBits, takenBits, h1, h2, List.take_succ_cons, bitsOf_cons, List.getElem?_cons_succ,
    List.append_assoc]

theorem length_partBits (right : Bool) {k : Nat} (h : k ≤ 8) (b : UInt8) :
    (partBits right k b).length = k := by
  unfold partBits
  split <;> simp <;> omega

theorem length_takenBits (right : Bool) {n : Nat} {src : List UInt8} (h : n ≤ 8 * src.length) :
    (takenBits right n src).length = n := by
  induction src generalizing n with
  | nil => simp [show n = 0 by simpa using h]
  | cons b bs ih =>
    rw [List.length_cons] at h
    by_cases h8 : n < 8
    · rw [takenBits_of_lt right h8, length_partBits right (by omega)]
    · rw [takenBits_of_le right (by omega), List.length_append, length_byteBits, ih (by omega)]
      omega

/-- A run of whole bytes takes all their bits, on either alignment. -/
theorem takenBits_bytes (right : Bool) (src : List UInt8) (k : Nat) :
    takenBits right (8 * k) src = bitsOf (src.take k) := by
  rw [takenBits, show 8 * k / 8 = k by omega, show 8 * k % 8 = 0 by omega]
  cases src[k]? <;> cases right <;> simp [partBits]

/-- A left-aligned run takes the first bits of its source. -/
theorem takenBits_false {n : Nat} {src : List UInt8} (h : n ≤ 8 * src.length) :
    takenBits false n src = (bitsOf src).take n := by
  induction src generalizing n with
  | nil => simp [show n = 0 by simpa using h]
  | cons b bs ih =>
    rw [List.length_cons] at h
    by_cases h8 : n < 8
    · rw [takenBits_of_lt false h8, bitsOf_cons, List.take_append_of_le_length (by simp; omega)]
      rfl
    · have hall : (byteBits b).take n = byteBits b := List.take_of_length_le (by simp; omega)
      rw [takenBits_of_le false (by omega), ih (by omega), bitsOf_cons, List.take_append, hall,
        length_byteBits]

theorem getElem?_partBits (right : Bool) {k : Nat} (hk : k ≤ 8) (b : UInt8) {j : Nat} (hj : j < k) :
    (partBits right k b)[j]? = some (byteBit b (if right then 8 - k + j else j)) := by
  have bit (i : Nat) (h : i < 8) : (byteBits b)[i]? = some (byteBit b i) := by
    rw [getElem?_byteBits b h, byteBit_eq_testBit b h]
  unfold partBits
  split
  · rw [List.getElem?_drop, bit _ (by omega)]
  · rw [List.getElem?_take_of_lt hj, bit _ (by omega)]

/-! ## Packing a run -/

theorem bytesFor_mul (k : Nat) : bytesFor (8 * k) = k := by unfold bytesFor; omega

@[simp] theorem length_packRun (right : Bool) (bits : List Bool) :
    (packRun right bits).length = bytesFor bits.length := by
  simp [packRun]

@[simp] theorem packRun_nil (right : Bool) : packRun right [] = [] := rfl

theorem packRun_of_le (right : Bool) {bits : List Bool} (h0 : bits ≠ []) (h : bits.length ≤ 8) :
    packRun right bits = [packByte right bits] := by
  have hpos : 0 < bits.length := List.length_pos_iff.2 h0
  rw [packRun, show bytesFor bits.length = 1 by unfold bytesFor; omega]
  simp [List.take_of_length_le h]

theorem packRun_append (right : Bool) {xs : List Bool} (h : xs.length = 8) (ys : List Bool) :
    packRun right (xs ++ ys) = packByte right xs :: packRun right ys := by
  have hn : bytesFor (xs ++ ys).length = bytesFor ys.length + 1 := by
    rw [List.length_append, h]
    unfold bytesFor
    omega
  rw [packRun, hn, List.range_succ_eq_map, List.map_cons, List.map_map, packRun]
  congr 1
  · rw [Nat.mul_zero, List.drop_zero, List.take_left' h]
  · apply List.map_congr_left
    intro i _
    rw [Function.comp_apply, show 8 * i.succ = xs.length + 8 * i by omega, List.drop_length_add_append]

theorem packRun_of_ge (right : Bool) {bits : List Bool} (h : 8 ≤ bits.length) :
    packRun right bits = packByte right (bits.take 8) :: packRun right (bits.drop 8) := by
  have hl : (bits.take 8).length = 8 := by
    rw [List.length_take]
    omega
  rw [← packRun_append right hl, List.take_append_drop]

theorem packByte_byteBits (right : Bool) (b : UInt8) : packByte right (byteBits b) = b := by
  cases right <;> simp [packByte, byteOfBits_byteBits]

theorem byteBit_packByte_true {chunk : List Bool} (h0 : chunk ≠ []) (h : chunk.length ≤ 8) (j : Nat) :
    byteBit (packByte true chunk) j =
      (decide (8 - chunk.length ≤ j ∧ j < 8) && chunk[j - (8 - chunk.length)]?.getD false) := by
  have hpos : 0 < chunk.length := List.length_pos_iff.2 h0
  rw [packByte, if_pos rfl, byteBit_shiftRight _ (by omega), byteBit_byteOfBits h]

theorem packRun_bitsOf (right : Bool) (src : List UInt8) : packRun right (bitsOf src) = src := by
  induction src with
  | nil => rfl
  | cons b bs ih => rw [bitsOf_cons, packRun_append right (length_byteBits b), ih, packByte_byteBits]

/-- An incomplete byte is determined by the bits that it gives to a run if its others are zero. -/
theorem packByte_partBits (right : Bool) {k : Nat} (h0 : 0 < k) (h : k < 8) {b : UInt8}
    (hb : (if right then b >>> UInt8.ofNat k else b <<< UInt8.ofNat k) = 0) :
    packByte right (partBits right k b) = b := by
  have hl : (partBits right k b).length = k := length_partBits right (by omega) b
  have hne : partBits right k b ≠ [] := by
    rw [← List.length_pos_iff]
    omega
  apply ext_byteBit
  intro j hj
  cases right with
  | true =>
    rw [if_pos rfl] at hb
    rw [byteBit_packByte_true hne (by omega), hl]
    by_cases hkj : 8 - k ≤ j
    · rw [getElem?_partBits true (by omega) b (by omega), Option.getD_some, if_pos rfl,
        show 8 - k + (j - (8 - k)) = j by omega]
      simp [hkj, hj]
    · have := byteBit_shiftRight b h (j + k)
      rw [hb, byteBit_zero, show j + k - k = j by omega] at this
      simp [hkj, show k ≤ j + k ∧ j + k < 8 by omega] at this ⊢
      exact this
  | false =>
    rw [if_neg (by simp)] at hb
    rw [packByte, if_neg (by simp), byteBit_byteOfBits (by omega)]
    by_cases hkj : j < k
    · rw [getElem?_partBits false (by omega) b hkj]
      rfl
    · have := byteBit_shiftLeft b h (j - k)
      rw [hb, byteBit_zero, show j - k + k = j by omega] at this
      rw [List.getElem?_eq_none (by omega), ← this]
      rfl

/-- Taking a clean run and packing it gives its bytes back. -/
theorem packRun_takenBits {right : Bool} {n : Nat} {src : List UInt8} (h : n ≤ 8 * src.length)
    (hc : CleanRun right n src) : packRun right (takenBits right n src) = src.take (bytesFor n) := by
  induction src generalizing n with
  | nil => simp [show n = 0 by simpa using h]
  | cons b bs ih =>
    rw [List.length_cons] at h
    by_cases h8 : n < 8
    · by_cases h0 : n = 0
      · simp [h0, bytesFor]
      · have hb := hc (by omega) b (by simp [Nat.div_eq_of_lt h8])
        rw [Nat.mod_eq_of_lt h8] at hb
        have hl := length_partBits right (show n ≤ 8 by omega) b
        have hne : partBits right n b ≠ [] := by
          rw [← List.length_pos_iff]
          omega
        rw [takenBits_of_lt right h8, packRun_of_le right hne (by omega),
          packByte_partBits right (by omega) h8 hb, show bytesFor n = 1 by unfold bytesFor; omega]
        rfl
    · have hc' : CleanRun right (n - 8) bs := by
        intro hn b' hb'
        have := hc (by omega) b' (by rwa [show n / 8 = (n - 8) / 8 + 1 by omega,
          List.getElem?_cons_succ])
        rwa [show n % 8 = (n - 8) % 8 by omega] at this
      rw [takenBits_of_le right (by omega), packRun_append right (length_byteBits b),
        packByte_byteBits, ih (by omega) hc',
        show bytesFor n = bytesFor (n - 8) + 1 by unfold bytesFor; omega, List.take_succ_cons]

theorem cleanRun_bytes (right : Bool) (k : Nat) (src : List UInt8) : CleanRun right (8 * k) src :=
  fun h => absurd (Nat.mul_mod_right 8 k) h

/-- The bits of a packed byte: those packed and zeros behind them. -/
theorem byteBits_byteOfBits {chunk : List Bool} (h : chunk.length ≤ 8) :
    byteBits (byteOfBits chunk) = chunk ++ List.replicate (8 - chunk.length) false := by
  apply List.ext_getElem?
  intro j
  by_cases hj : j < 8
  · rw [getElem?_byteBits _ hj, testBit_byteOfBits chunk hj, List.getElem?_append]
    by_cases hc : j < chunk.length
    · simp [hc]
    · simp [hc, show j - chunk.length < 8 - chunk.length by omega]
  · rw [List.getElem?_eq_none (by simp; omega), List.getElem?_eq_none (by simp; omega)]

/-- A left-aligned run is its bits and zeros up to the next byte boundary. -/
theorem bitsOf_packRun_false (bits : List Bool) :
    bitsOf (packRun false bits) = bits ++ List.replicate (padding bits.length) false := by
  induction h : bits.length using Nat.strongRecOn generalizing bits with
  | ind n ih =>
    by_cases h8 : n ≤ 8
    · by_cases h0 : bits = []
      · subst h0
        simp only [List.length_nil] at h
        simp [← h, padding]
      · have hpos : 0 < bits.length := List.length_pos_iff.2 h0
        rw [packRun_of_le false h0 (by omega), bitsOf_cons, bitsOf_nil, List.append_nil, packByte,
          if_neg (by simp), byteBits_byteOfBits (by omega), h,
          show padding n = 8 - n by unfold padding; omega]
    · have hl : (bits.take 8).length = 8 := by simp; omega
      rw [← List.take_append_drop 8 bits, packRun_append false hl, bitsOf_cons, packByte,
        if_neg (by simp), byteBits_byteOfBits (by omega), hl,
        ih (n - 8) (by omega) (bits.drop 8) (by simp [h]),
        show padding n = padding (n - 8) by unfold padding; omega, Nat.sub_self, List.replicate_zero,
        List.append_nil, ← List.append_assoc]

/-! ## The bits of a packed run -/

/-- The bits of a byte that holds at most eight bits, at its low end if `right`, and else at its high
end. -/
def paddedBits (right : Bool) (chunk : List Bool) : List Bool :=
  if right then List.replicate (8 - chunk.length) false ++ chunk
  else chunk ++ List.replicate (8 - chunk.length) false

theorem byteBits_packByte (right : Bool) {chunk : List Bool} (h0 : chunk ≠ [])
    (h : chunk.length ≤ 8) : byteBits (packByte right chunk) = paddedBits right chunk := by
  cases right with
  | false => exact byteBits_byteOfBits h
  | true =>
    apply List.ext_getElem?
    intro j
    rw [paddedBits, if_pos rfl]
    by_cases hj : j < 8
    · rw [getElem?_byteBits _ hj, ← byteBit_eq_testBit _ hj, byteBit_packByte_true h0 h,
        List.getElem?_append, List.length_replicate, List.getElem?_replicate]
      by_cases hpad : j < 8 - chunk.length
      · simp [hpad, show ¬ 8 - chunk.length ≤ j by omega]
      · have hin : j - (8 - chunk.length) < chunk.length := by omega
        simp [hpad, hj, hin, show 8 - chunk.length ≤ j by omega]
    · rw [List.getElem?_eq_none (by simp; omega), List.getElem?_eq_none (by simp; omega)]

theorem getElem?_packRun (right : Bool) (bits : List Bool) {i : Nat} (h : 8 * i < bits.length) :
    (packRun right bits)[i]? = some (packByte right ((bits.drop (8 * i)).take 8)) := by
  have hi : i < bytesFor bits.length := by
    unfold bytesFor
    omega
  rw [packRun, List.getElem?_map, List.getElem?_range hi]
  rfl

/-- The bits of a byte of a packed run. -/
theorem byteBits_getElem?_packRun (right : Bool) (bits : List Bool) {i : Nat}
    (h : 8 * i < bits.length) :
    (packRun right bits)[i]?.map byteBits =
      some (paddedBits right ((bits.drop (8 * i)).take 8)) := by
  have hlen : ((bits.drop (8 * i)).take 8).length = min 8 (bits.length - 8 * i) := by simp
  have hne : (bits.drop (8 * i)).take 8 ≠ [] := by
    rw [← List.length_pos_iff, hlen]
    omega
  rw [getElem?_packRun right bits h, Option.map_some, byteBits_packByte right hne (by omega)]

/-- Taking a run from bytes that begin with a packed one. -/
theorem takenBits_packRun (right : Bool) (bits : List Bool) (rest : List UInt8) :
    takenBits right bits.length (packRun right bits ++ rest) = bits := by
  induction h : bits.length using Nat.strongRecOn generalizing bits with
  | ind n ih =>
    by_cases h8 : n < 8
    · by_cases h0 : bits = []
      · subst h0
        rw [← h]
        exact takenBits_zero _ _
      · rw [packRun_of_le right h0 (by omega), List.singleton_append, takenBits_of_lt right h8,
          partBits, byteBits_packByte right h0 (by omega), paddedBits, ← h]
        cases right with
        | true => exact List.drop_left' (by simp)
        | false => exact List.take_left' rfl
    · have hl : (bits.take 8).length = 8 := by
        rw [List.length_take]
        omega
      have hne : bits.take 8 ≠ [] := by
        rw [← List.length_pos_iff]
        omega
      have hbyte : byteBits (packByte right (bits.take 8)) = bits.take 8 := by
        rw [byteBits_packByte right hne (by omega), paddedBits, hl]
        cases right <;> simp
      have htail := ih (n - 8) (by omega) (bits.drop 8) (by rw [List.length_drop]; omega)
      rw [packRun_of_ge right (by omega), List.cons_append, takenBits_of_le right (by omega), hbyte, htail,
        List.take_append_drop]

/-- Whole bytes are packed as these bytes, on either alignment. -/
theorem bitsOf_packRun (right : Bool) {k : Nat} {bits : List Bool} (h : bits.length = 8 * k) :
    bitsOf (packRun right bits) = bits := by
  have htaken := takenBits_packRun right bits []
  have hlen : (packRun right bits).length = k := by
    rw [length_packRun, h, bytesFor_mul]
  rw [h, List.append_nil, takenBits_bytes, List.take_of_length_le (by omega)] at htaken
  exact htaken

/-- A run that begins with whole bytes is packed in two parts. For the first of them it does not
matter at which end of a byte bits would be left over. -/
theorem packRun_append_bytes (right right' : Bool) {k : Nat} {xs : List Bool}
    (h : xs.length = 8 * k) (ys : List Bool) :
    packRun right (xs ++ ys) = packRun right' xs ++ packRun right ys := by
  induction k generalizing xs with
  | zero =>
    rw [List.length_eq_zero_iff.1 h]
    rfl
  | succ k ih =>
    have hl : (xs.take 8).length = 8 := by
      rw [List.length_take]
      omega
    have hbyte : packByte right (xs.take 8) = packByte right' (xs.take 8) := by
      cases right <;> cases right' <;> simp [packByte, hl]
    have hpack := packRun_of_ge right' (show 8 ≤ xs.length by omega)
    have hdrop : (xs.drop 8).length = 8 * k := by
      rw [List.length_drop]
      omega
    have htail := ih hdrop
    have hall : xs ++ ys = xs.take 8 ++ (xs.drop 8 ++ ys) := by
      rw [← List.append_assoc, List.take_append_drop]
    rw [hall, packRun_append right hl, htail, hpack, hbyte, List.cons_append]

end Bitwire
