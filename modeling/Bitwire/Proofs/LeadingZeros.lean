import Mathlib.Algebra.Group.Nat.Defs
import Mathlib.Data.Nat.Size
import Mathlib.Order.Lattice
import Bitwire.Codec.Range

/-!
# Counting leading zeros

The search halves the window in which the leading one bit lies. What is left of the number always
fits the window, and the count less the length of what is left is the same in every step, so that in
the end it is the number of leading zeros. The count is never below the width of the window, and what
is taken from it never above.

* `Window.Fits`: the invariant of the search; `Window.fits_narrow`: a step keeps it.
* `Window.Visits`: the windows that a search goes through; `Window.Covered`: none of them takes from the
  count what is not there.
* `leadingZeros_eq`, `countLeadingZeros_exact`: the width less the length of the number.
-/

namespace Bitwire

/-- A shift to the right drops low bits. -/
theorem size_shiftRight (x k : Nat) : (x >>> k).size = x.size - k := by
  apply eq_of_forall_ge_iff
  intro n
  rw [Nat.size_le, Nat.shiftRight_eq_div_pow, Nat.div_lt_iff_lt_mul (Nat.two_pow_pos k), ← Nat.pow_add,
    ← Nat.size_le]
  omega

namespace Window

/-- The window is two bits wide or a power of two wider, what is left fits it, and so does the count. -/
structure Fits (w : Window) : Prop where
  half_eq : ∃ m, w.half = 2 ^ m
  rest_lt : w.rest < 2 ^ (2 * w.half)
  le_count : 2 * w.half ≤ w.count

variable {w : Window}

theorem Fits.size_le (h : w.Fits) : w.rest.size ≤ 2 * w.half := Nat.size_le.2 h.rest_lt

theorem Fits.half_pos (h : w.Fits) : 0 < w.half := by
  obtain ⟨m, hm⟩ := h.half_eq
  rw [hm]
  exact Nat.two_pow_pos m

/-- Half of a wide window is an even number of bits. -/
theorem Fits.two_mul_half (h : w.Fits) (h2 : 2 ≤ w.half) : 2 * (w.half / 2) = w.half := by
  obtain ⟨m, hm⟩ := h.half_eq
  cases m with
  | zero => omega
  | succ m =>
    rw [Nat.pow_succ] at hm
    omega

/-- A step keeps the invariant, and with it the result. -/
theorem fits_narrow (h : w.Fits) (h2 : 2 ≤ w.half) :
    w.narrow.Fits ∧ w.narrow.count - w.narrow.rest.size = w.count - w.rest.size := by
  have heven := h.two_mul_half h2
  have hle := h.size_le
  have hcount := h.le_count
  have hhalf : ∃ m, w.half / 2 = 2 ^ m := by
    obtain ⟨m, hm⟩ := h.half_eq
    cases m with
    | zero => omega
    | succ m => exact ⟨m, by rw [hm, Nat.pow_succ]; omega⟩
  unfold narrow
  by_cases hupper : w.rest >>> w.half ≠ 0
  · have hsize := size_shiftRight w.rest w.half
    have hpos : 0 < (w.rest >>> w.half).size := Nat.size_pos.2 (Nat.pos_of_ne_zero hupper)
    rw [if_pos hupper]
    refine ⟨⟨hhalf, Nat.size_le.1 ?_, ?_⟩, ?_⟩
    · dsimp only
      omega
    · dsimp only
      omega
    · dsimp only
      omega
  · rw [if_neg hupper]
    have hsize := size_shiftRight w.rest w.half
    rw [Decidable.not_not.1 hupper, Nat.size_zero] at hsize
    refine ⟨⟨hhalf, Nat.size_le.1 ?_, ?_⟩, rfl⟩
    · dsimp only
      omega
    · dsimp only
      omega

theorem close_eq (h : w.Fits) (h1 : w.half = 1) : w.close = w.count - w.rest.size := by
  have hlt : w.rest < 4 := by
    have := h.rest_lt
    rwa [h1] at this
  have hcases : w.rest = 0 ∨ w.rest = 1 ∨ w.rest = 2 ∨ w.rest = 3 := by omega
  unfold close
  rcases hcases with hr | hr | hr | hr <;> rw [hr] <;> rfl

/-- The search ends with the count less the length of what was there. -/
theorem search_eq (h : w.Fits) : w.search = w.count - w.rest.size := by
  induction w using search.induct with
  | case1 w h2 ih =>
    obtain ⟨hfits, heq⟩ := fits_narrow h h2
    rw [search, if_pos h2, ih hfits, heq]
  | case2 w h2 =>
    have hpos := h.half_pos
    rw [search, if_neg h2, close_eq h (by omega)]

/-- The window that is as wide as the number. -/
def whole (x width : Nat) : Window := ⟨x % 2 ^ width, width, width / 2⟩

theorem half_whole (x : Nat) {width m : Nat} (h : width = 2 ^ (m + 1)) :
    (whole x width).half = 2 ^ m := by
  change width / 2 = 2 ^ m
  rw [h, Nat.pow_succ]
  omega

theorem fits_whole (x : Nat) {width m : Nat} (h : width = 2 ^ (m + 1)) : (whole x width).Fits := by
  have hhalf := half_whole x h
  have htwo : 2 * (whole x width).half = width := by
    rw [hhalf, h, Nat.pow_succ']
  exact
    { half_eq := ⟨m, hhalf⟩
      rest_lt := by
        rw [htwo]
        exact Nat.mod_lt _ (Nat.two_pow_pos width)
      le_count := Nat.le_of_eq htwo }

end Window

theorem leadingZeros_eq_search (x width : Nat) :
    leadingZeros x width = (Window.whole x width).search := by
  rw [leadingZeros, Window.whole, Nat.one_shiftLeft]

/-- The number of leading zeros is the width less the length of the number. -/
theorem leadingZeros_eq (x : Nat) {width m : Nat} (h : width = 2 ^ (m + 1)) :
    leadingZeros x width = width - (x % 2 ^ width).size := by
  rw [leadingZeros_eq_search, Window.search_eq (Window.fits_whole x h)]
  rfl

/-! ## The run of a search -/

namespace Window

/-- The windows that a search goes through, with the number of steps to each of them. -/
inductive Visits (start : Window) : Nat → Window → Prop
  | start : Visits start 0 start
  | narrow {k : Nat} {w : Window} : Visits start k w → 2 ≤ w.half → Visits start (k + 1) w.narrow

/-- What is taken from the count at a window is not more than the count. -/
def Covered (w : Window) : Prop :=
  if 2 ≤ w.half then w.rest >>> w.half ≠ 0 → w.half ≤ w.count
  else if w.rest >>> 1 ≠ 0 then 2 ≤ w.count
  else w.rest ≤ w.count

variable {w : Window}

theorem Fits.covered (h : w.Fits) : w.Covered := by
  have hpos := h.half_pos
  have hcount := h.le_count
  unfold Covered
  split
  · intro _
    omega
  · split
    · omega
    · rename_i hupper
      rw [Decidable.not_not, Nat.shiftRight_eq_div_pow] at hupper
      omega

namespace Visits

variable {start : Window} {k : Nat}

/-- What is gone through from the second window on is gone through from the first one. -/
theorem head (h2 : 2 ≤ start.half) (h : Visits start.narrow k w) : Visits start (k + 1) w := by
  induction h with
  | start => exact .narrow .start h2
  | narrow _ hw ih => exact .narrow ih hw

/-- Every window that is gone through fits, and its half has been halved in every step. -/
theorem fits (h : Visits start k w) (hstart : start.Fits) : w.Fits ∧ w.half * 2 ^ k = start.half := by
  induction h with
  | start => exact ⟨hstart, Nat.mul_one _⟩
  | @narrow k w _ h2 ih =>
    obtain ⟨hw, hhalf⟩ := ih
    refine ⟨(fits_narrow hw h2).1, ?_⟩
    rw [half_narrow, Nat.pow_succ', ← Nat.mul_assoc, Nat.mul_comm _ 2, hw.two_mul_half h2, hhalf]

/-- No search takes more steps than its first half can be halved. -/
theorem steps_le {m : Nat} (h : Visits start k w) (hstart : start.Fits) (hm : start.half = 2 ^ m) :
    k ≤ m := by
  obtain ⟨hw, hhalf⟩ := h.fits hstart
  have hpow : 2 ^ k ≤ 2 ^ m := by
    rw [← hm, ← hhalf]
    exact Nat.le_mul_of_pos_left _ hw.half_pos
  exact (Nat.pow_le_pow_iff_right (by decide)).1 hpow

/-- A search that has come to a window of two bits has taken all of them. -/
theorem steps_eq {m : Nat} (h : Visits start k w) (hstart : start.Fits) (hm : start.half = 2 ^ m)
    (hlast : w.half < 2) : k = m := by
  obtain ⟨hw, hhalf⟩ := h.fits hstart
  have hpos := hw.half_pos
  rw [show w.half = 1 by omega, Nat.one_mul, hm] at hhalf
  exact Nat.pow_right_injective (Nat.le_refl 2) hhalf

end Visits

/-- A search comes to a window of two bits and ends with what is counted there. -/
theorem exists_last (w : Window) : ∃ k last, Visits w k last ∧ last.half < 2 ∧ w.search = last.close := by
  induction w using search.induct with
  | case1 w h2 ih =>
    obtain ⟨k, last, hlast, hhalf, hsearch⟩ := ih
    refine ⟨k + 1, last, hlast.head h2, hhalf, ?_⟩
    rw [search, if_pos h2, hsearch]
  | case2 w h2 =>
    refine ⟨0, w, .start, by omega, ?_⟩
    rw [search, if_neg h2]

end Window

/-- In each width that integers have, the count of leading zeros and the length of the low bits of the
number add up to the width. The search takes one step less than the width can be halved and ends at a
window of two bits; at no window that it goes through more is taken from the count than is there. -/
theorem countLeadingZeros_exact (x : UInt64) {width : Nat}
    (h : width = 8 ∨ width = 16 ∨ width = 32 ∨ width = 64) :
    ∃ (zeros steps : Nat) (last : Window), countLeadingZeros x width = .ok zeros ∧
      zeros + (x.toNat % 2 ^ width).size = width ∧ width = 2 ^ (steps + 1) ∧
      (Window.Visits (.whole x.toNat width) steps last ∧ last.half < 2 ∧ zeros = last.close) ∧
      ∀ k w, Window.Visits (.whole x.toNat width) k w → k ≤ steps ∧ w.Covered := by
  obtain ⟨m, hm⟩ : ∃ m, width = 2 ^ (m + 1) := by
    rcases h with rfl | rfl | rfl | rfl
    · exact ⟨2, rfl⟩
    · exact ⟨3, rfl⟩
    · exact ⟨4, rfl⟩
    · exact ⟨5, rfl⟩
  have hfits := Window.fits_whole x.toNat hm
  have hhalf := Window.half_whole x.toNat hm
  have hsize : (x.toNat % 2 ^ width).size ≤ width :=
    Nat.size_le.2 (Nat.mod_lt _ (Nat.two_pow_pos width))
  obtain ⟨steps, last, hlast, hend, hsearch⟩ := Window.exists_last (.whole x.toNat width)
  obtain rfl := hlast.steps_eq hfits hhalf hend
  refine ⟨leadingZeros x.toNat width, steps, last, if_pos h, ?_, hm, ⟨hlast, hend, ?_⟩,
    fun k w hw => ⟨hw.steps_le hfits hhalf, (hw.fits hfits).1.covered⟩⟩
  · rw [leadingZeros_eq _ hm]
    omega
  · rw [leadingZeros_eq_search, hsearch]

/-- The low eight bits of 282 are those of 26, of which five count: the search takes two steps. -/
theorem countLeadingZeros_exact_byte :
    countLeadingZeros 282 8 = .ok 3 ∧
      ∀ k w, Window.Visits (.whole 282 8) k w → k ≤ 2 ∧ w.Covered := by
  obtain ⟨zeros, steps, last, hzeros, hsum, hsteps, -, hvisits⟩ :=
    @countLeadingZeros_exact 282 8 (.inl rfl)
  have hsize : ((282 : UInt64).toNat % 2 ^ 8).size = 5 := by decide +kernel
  obtain rfl : zeros = 3 := by omega
  obtain rfl : steps = 2 :=
    Nat.succ_injective (Nat.pow_right_injective (Nat.le_refl 2) hsteps.symm)
  exact ⟨hzeros, hvisits⟩

end Bitwire
