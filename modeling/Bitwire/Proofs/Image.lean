import Mathlib.Algebra.Group.Nat.Defs
import Bitwire.ByteOrder

/-!
# Images and numbers

An image of `k` bytes keeps a number modulo `256 ^ k`, in either order, and every image is that of
one number below `256 ^ k`.
-/

namespace Bitwire

theorem ofLittleBytes_littleBytes (k n : Nat) : ofLittleBytes (littleBytes k n) = n % 256 ^ k := by
  induction k generalizing n with
  | zero => simp [littleBytes, ofLittleBytes, Nat.mod_one]
  | succ k ih =>
    rw [littleBytes, ofLittleBytes, ih, UInt8.toNat_ofNat', show 2 ^ 8 = 256 from rfl,
      Nat.pow_succ', Nat.mod_mul]

/-- The digit at an index. -/
theorem getElem?_littleBytes {k i : Nat} (n : Nat) (h : i < k) :
    (littleBytes k n)[i]? = some (UInt8.ofNat (n / 256 ^ i)) := by
  induction k generalizing n i with
  | zero => omega
  | succ k ih =>
    cases i with
    | zero => simp [littleBytes]
    | succ i =>
      rw [littleBytes, List.getElem?_cons_succ, ih _ (by omega), Nat.div_div_eq_div_mul,
        Nat.pow_succ']

/-- The digits of a number that fewer digits hold are these and zeros. -/
theorem take_littleBytes_append {k j n : Nat} (hjk : j ≤ k) (h : n < 256 ^ j) :
    (littleBytes k n).take j ++ List.replicate (k - j) 0 = littleBytes k n := by
  apply List.ext_getElem?
  intro i
  rw [List.getElem?_append, List.length_take, length_littleBytes, Nat.min_eq_left hjk]
  by_cases hij : i < j
  · rw [if_pos hij, List.getElem?_take_of_lt hij]
  · rw [if_neg hij, List.getElem?_replicate]
    by_cases hik : i < k
    · have hlt : n < 256 ^ i := Nat.lt_of_lt_of_le h (Nat.pow_le_pow_right (by decide) (by omega))
      rw [if_pos (by omega), getElem?_littleBytes n hik, Nat.div_eq_of_lt hlt]
      rfl
    · rw [if_neg (by omega), List.getElem?_eq_none (by simp; omega)]

theorem ofLittleBytes_zeros (m : Nat) : ofLittleBytes (List.replicate m 0) = 0 := by
  induction m with
  | zero => rfl
  | succ m ih => rw [List.replicate_succ, ofLittleBytes, ih, UInt8.toNat_zero]

/-- Zeros as the most significant digits do not count. -/
theorem ofLittleBytes_append_zeros (bs : List UInt8) (m : Nat) :
    ofLittleBytes (bs ++ List.replicate m 0) = ofLittleBytes bs := by
  induction bs with
  | nil => exact ofLittleBytes_zeros m
  | cons b bs ih => rw [List.cons_append, ofLittleBytes, ofLittleBytes, ih]

namespace ByteOrder

theorem number_bytes (o : ByteOrder) (k n : Nat) : o.number (o.bytes k n) = n % 256 ^ k := by
  cases o <;> simp [number, bytes, ofLittleBytes_littleBytes]

/-- An image that is reordered for another host stands for the same number there. -/
theorem number_reorder_bytes (o target : ByteOrder) {k n : Nat} (h : n < 256 ^ k) :
    target.number (o.reorder target (o.bytes k n)) = n := by
  rw [number_reorder, number_bytes, Nat.mod_eq_of_lt h]

end ByteOrder

end Bitwire
