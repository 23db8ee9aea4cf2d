import Bitwire.Proofs.Decode.Basic
import Bitwire.Proofs.Image
import Bitwire.Proofs.Write

/-!
# Reading numbers back

Numbers come back from their full-width and from their mini codes, whatever the host orders of the
writer and the reader are and wherever the code begins.

* `decodes_readNumber`: full-width numbers.
* `decodes_readMiniFrom`, `decodes_readMiniInto`: byte strings in the mini code, read into a
  destination of the same length.
* `decodes_readMiniNumber`: numbers in the mini code.
-/

namespace Bitwire

open Bitwire.Stream

/-! ## Runs of whole bytes -/

theorem Code.bits_run (position : Nat) (right : Bool) {k : Nat} {src : List UInt8}
    (h : src.length = k) (ps : Code) :
    Code.bits position (.run src (8 * k) right :: ps) = bitsOf src ++ Code.bits (position + 8 * k) ps := by
  have hsrc : takenBits right (8 * k) src = bitsOf src := by
    rw [takenBits_bytes, ← h, List.take_length]
  rw [Code.bits_cons, Piece.bits, hsrc, length_bitsOf, h]

section Bytes

variable (position : Nat) (right : Bool) {k : Nat} (src : List UInt8) (h : src.length = k)
  (h0 : k ≠ 0)
include h h0

/-- A run of whole bytes is read as these bytes. -/
theorem decodes_readRun_bytes : Decodes (readRun (8 * k) right) position (bitsOf src) src := by
  have := decodes_readRun_taken right position (n := 8 * k) src (by omega) (by omega)
    (cleanRun_bytes right k src)
  rw [takenBits_bytes, bytesFor_mul, List.take_of_length_le (by omega)] at this
  exact this

theorem decodes_readInto_bytes (dest : List UInt8) (hd : dest.length = k) :
    Decodes (readInto dest (8 * k) right) position (bitsOf src) src := by
  have := decodes_readInto_taken right position (n := 8 * k) src (by omega) (by omega)
    (cleanRun_bytes right k src) dest (by omega)
  rw [takenBits_bytes, bytesFor_mul, List.drop_of_length_le (by omega), List.append_nil,
    List.take_of_length_le (by omega)] at this
  exact this

end Bytes

/-- A read of one code and then of another. -/
theorem Stream.Decodes.bind_code {α β : Type} {x : StreamM α} {f : α → StreamM β} {position : Nat}
    {xs ys : Code} {v : α} {w : β} (hx : Decodes x position (xs.bits position) v)
    (hf : ∀ position, Decodes (f v) position (ys.bits position) w) :
    Decodes (x >>= f) position ((xs ++ ys).bits position) w := by
  rw [Code.bits_append]
  exact hx.bind (hf _)

/-! ## Full-width numbers -/

theorem bits_numberCode (o : ByteOrder) (k n position : Nat) :
    (numberCode o k n).bits position = bitsOf (ByteOrder.network.bytes k n) := by
  unfold numberCode
  rw [ByteOrder.reorder_bytes, Code.bits_run position true (ByteOrder.length_bytes _ k n),
    Code.bits_nil, List.append_nil]

theorem decodes_readNumber (o : ByteOrder) {k n : Nat} (h0 : k ≠ 0) (h : n < 256 ^ k)
    (position : Nat) : Decodes (readNumber k) position ((numberCode o k n).bits position) n := by
  have hrun := decodes_readRun_bytes position true _ (ByteOrder.length_bytes .network k n) h0
  rw [bits_numberCode, ← List.append_nil (bitsOf _)]
  refine hrun.bind (.order fun o' => ?_)
  rw [ByteOrder.number_reorder_bytes _ o' h]
  exact .pure n _

/-! ## Mini codes -/

theorem cleanRun_lowNibble (b : UInt8) : CleanRun true 4 [b &&& 0x0F] := by
  have hall : ∀ n : Fin 256, (UInt8.ofNat n.val &&& 0x0F) >>> 4 = 0 := by decide +kernel
  intro _ b' hb'
  cases hb'
  have := hall ⟨b.toNat, b.toNat_lt⟩
  rwa [UInt8.ofNat_toNat] at this

theorem lowNibble_or_highNibble (b : UInt8) : b &&& 0x0F ||| b &&& 0xF0 = b := by
  have hall : ∀ n : Fin 256,
      UInt8.ofNat n.val &&& 0x0F ||| UInt8.ofNat n.val &&& 0xF0 = UInt8.ofNat n.val := by
    decide +kernel
  have := hall ⟨b.toNat, b.toNat_lt⟩
  rwa [UInt8.ofNat_toNat] at this

theorem bits_miniFrom_last (pad b : UInt8) (position : Nat) :
    (miniFrom pad [b]).bits position =
      if b &&& 0xF0 = pad &&& 0xF0 then true :: takenBits true 4 [b &&& 0x0F]
      else false :: bitsOf [b] := by
  unfold miniFrom
  split
  · rw [Code.bits_cons, Code.bits_cons, Code.bits_nil, List.append_nil]
    rfl
  · rw [Code.bits_cons, Code.bits_run _ true (k := 1) rfl, Code.bits_nil, List.append_nil]
    rfl

theorem bits_miniFrom_cons (pad b next : UInt8) (bs : List UInt8) (position : Nat) :
    (miniFrom pad (b :: next :: bs)).bits position =
      if b = pad then true :: (miniFrom pad (next :: bs)).bits (position + 1)
      else false :: bitsOf (b :: next :: bs).reverse := by
  rw [miniFrom]
  split
  · rfl
  · rw [Code.bits_cons, Code.bits_run _ true (k := bs.length + 2) (by simp), Code.bits_nil,
      List.append_nil]
    rfl

/-- The most significant nibble is left out where it is that of the padding. -/
theorem decodes_readMiniFrom_last (pad b d : UInt8) (position : Nat) :
    Decodes (readMiniFrom pad [d]) position ((miniFrom pad [b]).bits position) [b] := by
  rw [bits_miniFrom_last]
  by_cases hpad : b &&& 0xF0 = pad &&& 0xF0
  · rw [if_pos hpad]
    have hnibble := decodes_readInto_taken true (position + 1) (n := 4) [b &&& 0x0F]
      (by decide) (by simp) (cleanRun_lowNibble b) [0] (by decide)
    have := hnibble.map fun nibble => nibble.map (· ||| pad &&& 0xF0)
    have hb : [b] = ([b &&& 0x0F].take (bytesFor 4) ++ [0].drop (bytesFor 4)).map
        (· ||| pad &&& 0xF0) := by
      change [b] = [b &&& 0x0F ||| pad &&& 0xF0]
      rw [← hpad, lowNibble_or_highNibble]
    rw [hb]
    exact .flag_true this
  · rw [if_neg hpad]
    exact .flag_false (decodes_readInto_bytes (position + 1) true (k := 1) [b] rfl (by decide) [d] rfl)

/-- A byte string comes back from its mini code. The induction goes through the bytes from the most
significant one down, as the code does. -/
theorem decodes_readMiniFrom (pad : UInt8) (src dest : List UInt8) (h : dest.length = src.length)
    (position : Nat) :
    Decodes (readMiniFrom pad dest) position ((miniFrom pad src).bits position) src := by
  induction src generalizing dest position with
  | nil =>
    rw [List.length_eq_zero_iff.1 h]
    exact .pure [] position
  | cons b bs ih =>
    obtain ⟨d, ds, rfl⟩ := List.exists_cons_of_length_eq_add_one h
    rw [List.length_cons, List.length_cons] at h
    cases bs with
    | nil =>
      obtain rfl : ds = [] := List.length_eq_zero_iff.1 (by simpa using h)
      exact decodes_readMiniFrom_last pad b d position
    | cons next bs =>
      obtain ⟨dn, ds, rfl⟩ := List.exists_cons_of_length_eq_add_one (show ds.length = _ by simpa using h)
      rw [bits_miniFrom_cons]
      by_cases hpad : b = pad
      · rw [if_pos hpad]
        have := (ih (dn :: ds) (by omega) (position + 1)).map (pad :: ·)
        rw [hpad]
        exact .flag_true this
      · rw [if_neg hpad]
        have hlen : ds.length = bs.length := by simpa using h
        have := decodes_readInto_bytes (position + 1) true (k := ds.length + 2)
          (b :: next :: bs).reverse (by simp [hlen]) (by omega) (d :: dn :: ds).reverse (by simp)
        have := this.map List.reverse
        rw [List.reverse_reverse] at this
        exact .flag_false this

theorem decodes_readMiniInto (signed : Bool) (src dest : List UInt8) (h : dest.length = src.length)
    (h0 : src ≠ []) (position : Nat) :
    Decodes (readMiniInto signed dest) position
      ((miniFrom (padByte signed) src.reverse).bits position) src := by
  have hd : ¬ dest.isEmpty := by
    rw [List.isEmpty_iff_length_eq_zero, h, List.length_eq_zero_iff]
    exact h0
  have := (decodes_readMiniFrom (padByte signed) src.reverse dest.reverse (by simpa using h)
    position).map List.reverse
  rw [List.reverse_reverse] at this
  unfold readMiniInto
  rwa [if_neg hd]

/-- A byte string that has a mini code comes back from it. -/
theorem decodes_readMiniBytes {signed : Bool} {src : List UInt8} (dest : List UInt8) {code : Code}
    (hcode : miniBytes signed src = .ok code) (h : dest.length = src.length) (position : Nat) :
    Decodes (readMiniInto signed dest) position (code.bits position) src := by
  unfold miniBytes at hcode
  cases src with
  | nil => contradiction
  | cons b bs =>
    cases hcode
    exact decodes_readMiniInto signed _ dest h (by simp) position

theorem decodes_readMiniNumber (o : ByteOrder) {k n : Nat} (signed : Bool) (h0 : k ≠ 0)
    (h : n < 256 ^ k) (position : Nat) :
    Decodes (readMiniNumber k signed) position ((miniNumber o k signed n).bits position) n := by
  have hne : ByteOrder.little.bytes k n ≠ [] := by
    rw [← List.length_pos_iff, ByteOrder.length_bytes]
    omega
  have hinto := decodes_readMiniInto signed (ByteOrder.little.bytes k n) (List.replicate k 0)
    (by simp) hne position
  unfold miniNumber
  rw [ByteOrder.reorder_bytes, ← List.append_nil (Code.bits _ _)]
  refine hinto.bind (.order fun o' => ?_)
  rw [ByteOrder.number_reorder_bytes _ o' h]
  exact .pure n _

end Bitwire
