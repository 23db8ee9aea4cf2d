import Bitwire.Proofs.Run

/-!
# Storing bits in a buffer

A store at a bit position puts its bits there and clears the rest of the byte in which they end; all
other bits stay. This determines the buffer, however the bits get there: whole bytes at once, merged
byte after byte, or one by one.

* `Buffer.Clean`: the bits behind a position in its byte are zero. Merging relies on it.
* `Buffer.Stored`: the effect of a store; `Stored.append`: two stores in a row are one.
* `Buffer.Stores`: a store that succeeds, with this effect.
* `stores_storeBit`, `stores_storeRun`: single bits and runs are stored where there is room for them.
-/

namespace Bitwire.Buffer

/-- The bits from a position to the next byte boundary are zero. -/
def Clean (buffer : Buffer) (position : Nat) : Prop :=
  ∀ i, position ≤ i → i < 8 * bytesFor position → buffer.bit i = false

/-- `after` is `before` with `bits` at a position and zeros behind them up to a byte boundary. -/
structure Stored (before : Buffer) (position : Nat) (bits : List Bool) (after : Buffer) : Prop where
  size_eq : after.size = before.size
  bit_eq : ∀ i, after.bit i =
    if position ≤ i ∧ i < 8 * bytesFor (position + bits.length) then bits[i - position]?.getD false
    else before.bit i

/-- The store succeeds, and puts `bits` at a position if the bits behind it in its byte are zero. -/
def Stores (before : Buffer) (position : Nat) (bits : List Bool) (x : Except Fault Buffer) : Prop :=
  ∃ after, x = .ok after ∧ after.size = before.size ∧
    (before.Clean position → before.Stored position bits after)

/-! ## Byte boundaries -/

theorem le_bytesFor (n : Nat) : n ≤ 8 * bytesFor n := by unfold bytesFor; omega

theorem bytesFor_le {n k : Nat} (h : n ≤ 8 * k) : bytesFor n ≤ k := by unfold bytesFor; omega

theorem bytesFor_mono {m n : Nat} (h : m ≤ n) : bytesFor m ≤ bytesFor n := by
  unfold bytesFor
  omega

theorem clean_mul (buffer : Buffer) (k : Nat) : buffer.Clean (8 * k) := by
  intro i h1 h2
  rw [bytesFor_mul] at h2
  omega

/-! ## Stores in general -/

namespace Stored

variable {a b c : Buffer} {position : Nat} {xs ys : List Bool}

theorem nil (h : a.Clean position) : Stored a position [] a := by
  refine ⟨rfl, fun i => ?_⟩
  split
  · rename_i hi
    rw [h i hi.1 hi.2, List.getElem?_nil, Option.getD_none]
  · rfl

theorem append (hx : Stored a position xs b) (hy : Stored b (position + xs.length) ys c) :
    Stored a position (xs ++ ys) c := by
  refine ⟨hy.size_eq.trans hx.size_eq, fun i => ?_⟩
  have hx' := le_bytesFor (position + xs.length)
  have hxy : bytesFor (position + xs.length) ≤ bytesFor (position + xs.length + ys.length) :=
    bytesFor_mono (by omega)
  rw [hy.bit_eq, hx.bit_eq, List.length_append, ← Nat.add_assoc]
  by_cases h1 : i < position
  · rw [if_neg (by omega), if_neg (by omega), if_neg (by omega)]
  · by_cases h2 : i < position + xs.length
    · rw [if_neg (by omega), if_pos (by omega), if_pos (by omega),
        List.getElem?_append_left (by omega)]
    · by_cases h3 : i < 8 * bytesFor (position + xs.length + ys.length)
      · rw [if_pos (by omega), if_pos (by omega), List.getElem?_append_right (by omega),
          Nat.sub_sub]
      · rw [if_neg (by omega), if_neg (by omega), if_neg (by omega)]

/-- What is stored behind the bits that are there leaves them as they are. -/
theorem bit_of_lt (h : Stored a position xs b) {i : Nat} (hi : i < position) :
    b.bit i = a.bit i := by
  rw [h.bit_eq, if_neg (by omega)]

theorem bit_add (h : Stored a position xs b) {k : Nat} (hk : k < xs.length) :
    b.bit (position + k) = xs[k] := by
  have := le_bytesFor (position + xs.length)
  rw [h.bit_eq, if_pos (by omega), Nat.add_sub_cancel_left, List.getElem?_eq_getElem hk,
    Option.getD_some]

theorem clean (h : Stored a position xs b) : b.Clean (position + xs.length) := by
  intro i h1 h2
  rw [h.bit_eq, if_pos ⟨by omega, h2⟩, List.getElem?_eq_none (by omega), Option.getD_none]

end Stored

namespace Stores

variable {a : Buffer} {position : Nat} {xs ys : List Bool} {x : Except Fault Buffer}

theorem pure (a : Buffer) (position : Nat) :
    Stores a position [] (Pure.pure a : Except Fault Buffer) :=
  ⟨a, rfl, rfl, .nil⟩

theorem of_stored {b : Buffer} (hx : x = .ok b) (h : a.Stored position xs b) : Stores a position xs x :=
  ⟨b, hx, h.size_eq, fun _ => h⟩

/-- Two stores in a row. -/
theorem bind {f : Buffer → Except Fault Buffer} (hx : Stores a position xs x)
    (hf : ∀ b, b.size = a.size → Stores b (position + xs.length) ys (f b)) :
    Stores a position (xs ++ ys) (x >>= f) := by
  obtain ⟨b, rfl, hb, hfirst⟩ := hx
  obtain ⟨c, hc, hsize, hsecond⟩ := hf b hb
  refine ⟨c, hc, hsize.trans hb, fun hclean => ?_⟩
  exact (hfirst hclean).append (hsecond (hfirst hclean).clean)

end Stores

/-! ## Whole bytes -/

/-- A byte at a byte boundary takes the place of the one that is there. -/
theorem stored_setIfInBounds (chunk : List Bool) {buffer : Buffer} {position : Nat}
    (h0 : position % 8 = 0) (hpos : 0 < chunk.length) (h8 : chunk.length ≤ 8)
    (hk : position / 8 < buffer.size) {b : UInt8} (hb : ∀ j, byteBit b j = chunk[j]?.getD false) :
    Stored buffer position chunk (buffer.setIfInBounds (position / 8) b) := by
  have hend : bytesFor (position + chunk.length) = (position + chunk.length + 7) / 8 := rfl
  refine ⟨Array.size_setIfInBounds, fun i => ?_⟩
  rw [bit_setIfInBounds buffer hk]
  by_cases hi : i / 8 = position / 8
  · rw [if_pos hi, if_pos (by omega), hb, show i - position = i % 8 by omega]
  · rw [if_neg hi, if_neg (by omega)]

theorem stores_overwrite (buffer : Buffer) {k : Nat} (src : List UInt8)
    (h : k + src.length ≤ buffer.size) :
    Stores buffer (8 * k) (bitsOf src) (buffer.overwrite k src) := by
  induction src generalizing buffer k with
  | nil => exact .pure buffer (8 * k)
  | cons b bs ih =>
    rw [List.length_cons] at h
    have hk : k < buffer.size := by omega
    have hone : 8 * k / 8 = k := by omega
    have hstored := stored_setIfInBounds (byteBits b) (Nat.mul_mod_right 8 k) (by simp) (by simp)
      (by rwa [hone]) fun _ => rfl
    rw [hone] at hstored
    refine (Stores.of_stored (setByte_eq hk b) hstored).bind fun after hafter => ?_
    rw [length_byteBits, ← Nat.mul_succ]
    exact ih after (by rw [hafter]; omega)

/-- Copying bytes to the front of a fresh buffer fills them up with zeros. -/
theorem overwrite_zeros {bytes : Nat} {src : List UInt8} (h : src.length ≤ bytes) :
    (zeros bytes).overwrite 0 src = .ok (resize src.toArray bytes) := by
  obtain ⟨after, hafter, -, hstored⟩ := stores_overwrite (zeros bytes) (k := 0) src (by simpa using h)
  have hstored := hstored (clean_mul _ 0)
  have hsize : after.size = (resize src.toArray bytes).size := by
    rw [hstored.size_eq, size_zeros, size_resize (by simpa using h)]
  rw [hafter, ext_bit hsize fun i => ?_]
  rw [hstored.bit_eq, bit_resize (by simpa using h), bit_zeros, length_bitsOf, bit]
  simp only [Nat.mul_zero, Nat.zero_le, true_and, Nat.zero_add, Nat.sub_zero, bytesFor_mul]
  split
  · rfl
  · rw [List.getElem?_eq_none (by rw [length_bitsOf]; omega), Option.getD_none]

/-- Nothing has to be filled up. -/
theorem resize_self (buffer : Buffer) : buffer.resize buffer.size = buffer := by
  simp [resize, zeros]

/-! ## Merging -/

/-- The byte that already holds written bits: `b` begins behind them. -/
theorem byteBit_or_shiftRight {chunk : List Bool} {buffer : Buffer} {position : Nat} {b : UInt8}
    (hclean : buffer.Clean position) (hoff : position % 8 ≠ 0) (hk : position / 8 < buffer.size)
    (hb : ∀ j, byteBit b j = chunk[j]?.getD false) {i : Nat} (hi : i / 8 = position / 8) :
    byteBit (buffer[position / 8] ||| b >>> UInt8.ofNat (position % 8)) (i % 8) =
      if position ≤ i then chunk[i - position]?.getD false else buffer.bit i := by
  rw [byteBit_or, byteBit_shiftRight b (by omega)]
  have hbit : byteBit buffer[position / 8] (i % 8) = buffer.bit i := by
    rw [bit_eq_byteBit, hi, Array.getElem?_eq_getElem hk, Option.getD_some]
  by_cases hp : position ≤ i
  · have hz : buffer.bit i = false := hclean i hp (by unfold bytesFor; omega)
    rw [hbit, hz, if_pos hp, hb, show i % 8 - position % 8 = i - position by omega]
    simp [show position % 8 ≤ i % 8 by omega, show i % 8 < 8 by omega]
  · rw [hbit, if_neg hp]
    simp [show ¬ position % 8 ≤ i % 8 by omega]

/-- A byte whose bits are `chunk` and then zeros is merged as `chunk`. -/
theorem stores_mergeByte (chunk : List Bool) {buffer : Buffer} {position : Nat} {b : UInt8}
    (h0 : 0 < chunk.length) (h8 : chunk.length ≤ 8)
    (hroom : position + chunk.length ≤ 8 * buffer.size)
    (hb : ∀ j, byteBit b j = chunk[j]?.getD false) :
    Stores buffer position chunk (buffer.mergeByte position chunk.length b) := by
  have hk : position / 8 < buffer.size := by omega
  have hend : bytesFor (position + chunk.length) = (position + chunk.length + 7) / 8 := rfl
  unfold mergeByte
  dsimp only
  by_cases hoff : position % 8 = 0
  · rw [if_pos hoff]
    exact .of_stored (setByte_eq hk b) (stored_setIfInBounds chunk hoff h0 h8 hk hb)
  · rw [if_neg hoff, changeByte_eq hk]
    have hfirst (hclean : buffer.Clean position) (i : Nat) :=
      byteBit_or_shiftRight hclean hoff hk hb (i := i)
    change Stores _ _ _ (if _ then _ else _)
    by_cases hspill : 8 - position % 8 < chunk.length
    · rw [if_pos hspill]
      refine ⟨_, setByte_eq (by rw [Array.size_modify]; omega) _, by simp,
        fun hclean => ⟨by simp, fun i => ?_⟩⟩
      rw [bit_setIfInBounds _ (by rw [Array.size_modify]; omega), bit_modify buffer hk]
      by_cases h1 : i / 8 = position / 8 + 1
      · rw [if_pos h1, if_pos (by omega), byteBit_shiftLeft b (by omega), hb,
          show i % 8 + (8 - position % 8) = i - position by omega]
      · rw [if_neg h1]
        by_cases h2 : i / 8 = position / 8
        · rw [if_pos h2, hfirst hclean i h2]
          by_cases hp : position ≤ i
          · rw [if_pos hp, if_pos (by omega)]
          · rw [if_neg hp, if_neg (by omega)]
        · rw [if_neg h2, if_neg (by omega)]
    · rw [if_neg hspill]
      refine ⟨_, rfl, by simp, fun hclean => ⟨by simp, fun i => ?_⟩⟩
      rw [bit_modify buffer hk]
      by_cases h2 : i / 8 = position / 8
      · rw [if_pos h2, hfirst hclean i h2]
        by_cases hp : position ≤ i
        · rw [if_pos hp, if_pos (by omega)]
        · rw [if_neg hp, if_neg (by omega)]
      · rw [if_neg h2, if_neg (by omega)]

/-- A source byte is moved so that its bits of the run come first. -/
theorem byteBit_runBits (right : Bool) {len : Nat} (hl : len < 8) (h0 : 0 < len) (b : UInt8) (j : Nat) :
    byteBit (runBits right len b) j = (partBits right len b)[j]?.getD false := by
  rw [runBits, if_pos hl, byteBit_and, byteBit_highMask (by omega)]
  by_cases hj : j < len
  · rw [getElem?_partBits right (by omega) b hj, Option.getD_some]
    cases right with
    | true => simp [byteBit_shiftLeft b (show 8 - len < 8 by omega), hj, Nat.add_comm]
    | false => simp [hj]
  · rw [List.getElem?_eq_none (by rw [length_partBits right (by omega)]; omega)]
    simp [hj]

theorem mergeRun_zero (right : Bool) (buffer : Buffer) (position : Nat) (src : List UInt8) :
    buffer.mergeRun right position 0 src = .ok buffer := by
  cases src with
  | nil => rfl
  | cons b bs => rw [mergeRun, if_pos rfl]; rfl

theorem mergeRun_of_lt (right : Bool) (buffer : Buffer) (position : Nat) {n : Nat} (h0 : n ≠ 0)
    (h8 : n < 8) (b : UInt8) (bs : List UInt8) :
    buffer.mergeRun right position n (b :: bs) = buffer.mergeByte position n (runBits right n b) := by
  rw [mergeRun, if_neg h0, show min n 8 = n by omega]
  dsimp only
  rw [Nat.sub_self]
  simp only [mergeRun_zero]
  exact bind_pure _

theorem mergeRun_of_le (right : Bool) (buffer : Buffer) (position : Nat) {n : Nat} (h8 : 8 ≤ n)
    (b : UInt8) (bs : List UInt8) :
    buffer.mergeRun right position n (b :: bs) =
      (buffer.mergeByte position 8 b >>= fun after => after.mergeRun right (position + 8) (n - 8) bs) := by
  rw [mergeRun, if_neg (by omega), show min n 8 = 8 by omega]
  rfl

theorem stores_mergeRun (right : Bool) {buffer : Buffer} {position n : Nat} {src : List UInt8}
    (hn : n ≤ 8 * src.length) (hroom : position + n ≤ 8 * buffer.size) :
    Stores buffer position (takenBits right n src) (buffer.mergeRun right position n src) := by
  induction src generalizing buffer position n with
  | nil =>
    obtain rfl : n = 0 := by simpa using hn
    rw [takenBits_zero, mergeRun_zero]
    exact .pure buffer position
  | cons b bs ih =>
    rw [List.length_cons] at hn
    by_cases h0 : n = 0
    · rw [h0, takenBits_zero, mergeRun_zero]
      exact .pure buffer position
    · by_cases h8 : n < 8
      · have hl := length_partBits right (show n ≤ 8 by omega) b
        have hlast : Stores buffer position (partBits right n b) _ :=
          stores_mergeByte _ (by rw [hl]; omega) (by omega) (by omega)
            (byteBit_runBits right h8 (by omega) b)
        rwa [hl, ← takenBits_of_lt right h8 b bs, ← mergeRun_of_lt right buffer position h0 h8 b bs]
          at hlast
      · have hfirst : Stores buffer position (byteBits b) (buffer.mergeByte position 8 b) :=
          stores_mergeByte (byteBits b) (by simp) (by simp) (by rw [length_byteBits]; omega)
            fun _ => rfl
        rw [mergeRun_of_le right buffer position (by omega) b bs,
          takenBits_of_le right (by omega) b bs]
        refine hfirst.bind fun after hafter => ?_
        rw [length_byteBits]
        exact ih (by omega) (by rw [hafter]; omega)

/-! ## Runs and single bits -/

/-- A run is stored, whether its bytes are copied or merged. -/
theorem stores_storeRun (right : Bool) {buffer : Buffer} {position n : Nat} {src : List UInt8}
    (hn : n ≤ 8 * src.length) (hroom : position + n ≤ 8 * buffer.size) :
    Stores buffer position (takenBits right n src) (buffer.storeRun right position n src) := by
  unfold storeRun
  split
  · rename_i h
    have hlen : (src.take (n / 8)).length = n / 8 := by rw [List.length_take]; omega
    have := stores_overwrite buffer (k := position / 8) (src.take (n / 8)) (by omega)
    rwa [show 8 * (position / 8) = position by omega, ← takenBits_bytes right src (n / 8),
      show 8 * (n / 8) = n by omega] at this
  · exact stores_mergeRun right hn hroom

/-- A single bit is merged as a byte that begins with it. Behind written bits a zero is there already. -/
theorem storeBit_eq_mergeByte {buffer : Buffer} {position : Nat} (h : position < 8 * buffer.size)
    (bit : Bool) :
    buffer.storeBit position bit = buffer.mergeByte position 1 (if bit then 0x80 else 0) := by
  have hone : ¬ 8 - position % 8 < 1 := by omega
  have hk : position / 8 < buffer.size := by omega
  unfold storeBit mergeByte
  dsimp only
  split
  · rfl
  · simp only [changeByte_eq hk]
    cases bit with
    | true => rfl
    | false =>
      refine congrArg Except.ok (Array.ext_getElem? fun i => ?_)
      rw [if_neg (by simp), Array.getElem?_modify]
      by_cases h : position / 8 = i <;> simp [h]

theorem stores_storeBit {buffer : Buffer} {position : Nat} (hroom : position < 8 * buffer.size)
    (bit : Bool) : Stores buffer position [bit] (buffer.storeBit position bit) := by
  rw [storeBit_eq_mergeByte hroom]
  refine stores_mergeByte [bit] (by simp) (by simp) (by rw [List.length_singleton]; omega) fun j => ?_
  rw [byteBit_leadingBit]
  cases j <;> simp

end Bitwire.Buffer
