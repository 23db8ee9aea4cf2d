import Bitwire.Proofs.Memory
import Bitwire.Proofs.RangedRead

/-!
# Offsets between bounds

Whether a number lies between two bounds is a question about numbers, which a signed type orders across
zero. The offset from the lower bound is a difference of patterns that wraps around. Still the two agree:
as unsigned patterns, the offsets of the numbers between the bounds are those up to the offset of the
upper bound, also where the difference of the bounds is no number of the type.

* `Span.contains_iff`: one unsigned comparison instead of two signed ones.
* `Span.two_pow_le`: an offset of fewer bits does not reach the upper bound.
* `Span.offset_exact`: offsets for all types, bounds and numbers.
-/

namespace Bitwire

namespace Span

variable {t : IntType} (r : Span t)

/-- A number lies between the bounds where its offset does not exceed that of the upper bound. -/
theorem contains_iff (w : Word t) :
    r.contains w = true ↔ (w - r.min).toNat ≤ (r.max - r.min).toNat := by
  have hmax := Word.toNat_sub_of_le r.le
  have hback : r.min + BitVec.ofNat t.bits (w - r.min).toNat = w := by
    rw [ofNat_toNat_self, BitVec.add_comm, BitVec.sub_add_cancel]
  have hoffset := r.between_add_iff (w - r.min).isLt
  rw [hback, ← hmax, Int.ofNat_le] at hoffset
  rw [← hoffset, contains, decide_eq_true_iff]

/-- The leading bit of the largest offset is set. -/
theorem two_pow_le (h : 0 < r.bits) : 2 ^ (r.bits - 1) ≤ (r.max - r.min).toNat := by
  rw [← Nat.lt_size, ← r.bits_eq]
  exact Nat.sub_one_lt_of_lt h

/-- For every type, bounds in order and number: the number lies between the bounds exactly where the
pattern of its offset from the lower bound is at most that of the upper bound, which is the difference of
the bounds as numbers. The offsets of numbers between the bounds fit the width of an offset, and the
largest one takes all of it. The lower bound and the offset of a number add up to the number. -/
theorem offset_exact {min max : Word t} (hle : min.value ≤ max.value) (w : Word t) :
    ∃ r : Span t, Span.check min max = .ok r ∧ r.min = min ∧ r.max = max ∧
      (r.contains w = true ↔ (w - min).raw ≤ (max - min).raw) ∧
      ((max - min).raw.toNat : Int) = max.value - min.value ∧
      (r.contains w = true → (w - min).raw.toNat < 2 ^ r.bits) ∧
      (0 < r.bits → 2 ^ (r.bits - 1) ≤ (max - min).raw.toNat) ∧
      min + (w - min) = w := by
  refine ⟨⟨min, max, hle⟩, dif_pos hle, rfl, rfl, ?_, ?_, ?_, ?_, ?_⟩
  · rw [UInt64.le_iff_toNat_le, Word.toNat_raw, Word.toNat_raw]
    exact contains_iff ⟨min, max, hle⟩ w
  · rw [Word.toNat_raw]
    exact Word.toNat_sub_of_le hle
  · rw [Word.toNat_raw]
    exact toNat_offset_lt ⟨min, max, hle⟩
  · rw [Word.toNat_raw]
    exact two_pow_le ⟨min, max, hle⟩
  · rw [BitVec.add_comm, BitVec.sub_add_cancel]

/-- Between -100 and 100, whose difference is no number of eight bits with a sign: -7 lies between them,
and its offset is 93 of at most 200; the offset of 101 is 201, that of -101 wraps around to 255. -/
theorem offset_exact_wide :
    Word.value (t := .i8) 0x9C#8 ≤ Word.value (t := .i8) 0x64#8 ∧
      ∃ r : Span .i8, Span.check (t := .i8) 0x9C#8 0x64#8 = .ok r ∧ r.contains 0xF9#8 = true ∧
        r.contains 0x65#8 = false ∧ r.contains 0x9B#8 = false ∧
        Word.raw (t := .i8) (0x64#8 - 0x9C#8) = 200 ∧ 93 < 2 ^ r.bits ∧ 2 ^ (r.bits - 1) ≤ 200 := by
  have hle : Word.value (t := .i8) 0x9C#8 ≤ Word.value (t := .i8) 0x64#8 := by decide
  obtain ⟨r, hr, -, -, hinside, -, hlt, hleast, -⟩ := offset_exact hle 0xF9#8
  obtain ⟨r', hr', -, -, habove, -⟩ := offset_exact hle 0x65#8
  obtain ⟨r'', hr'', -, -, hbelow, -⟩ := offset_exact hle 0x9B#8
  obtain rfl : r = r' := Except.ok.inj (hr.symm.trans hr')
  obtain rfl : r = r'' := Except.ok.inj (hr.symm.trans hr'')
  have hcontains : r.contains 0xF9#8 = true := hinside.2 (by decide)
  refine ⟨hle, r, hr, hcontains, ?_, ?_, by decide, hlt hcontains, hleast ?_⟩
  · exact Bool.eq_false_iff.2 fun h => absurd (habove.1 h) (by decide)
  · exact Bool.eq_false_iff.2 fun h => absurd (hbelow.1 h) (by decide)
  · exact Nat.pos_of_ne_zero fun h0 => by
      have hbits := hlt hcontains
      rw [h0] at hbits
      contradiction

end Span

end Bitwire
