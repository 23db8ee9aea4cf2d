import Mathlib.Algebra.Group.Int.Defs
import Mathlib.Order.Bounds.Defs
import Bitwire.Proofs.MiniCode
import Bitwire.Proofs.Refused

/-!
# Numbers between bounds

The width of an offset is found on bit patterns, whose difference wraps around, while the bounds are
compared as numbers. Both fit together for all types and bounds: an offset takes the least number of
bits that the difference of the bounds fits, and a number comes back from it.

* `Span.isLeast_bits`: the width of an offset.
* `Span.length_wire`: the length of the format.
* `writeBetween_exact`: when a number is refused, how it is written, and that it comes back.
-/

namespace Bitwire

open Bitwire.Stream

/-! ## Lengths -/

theorem Word.miniLength_le {t : IntType} (w : Word t) : w.miniLength ≤ 65 := by
  have hle := miniLengthFrom_le (padByte t.signed) (w.image .little).reverse
  have hbytes : t.bytes ≤ 8 := by cases t <;> decide
  rw [List.length_reverse, image, ByteOrder.length_bytes] at hle
  unfold miniLength
  rw [image]
  omega

theorem length_miniPattern {t : IntType} (w : Word t) :
    (Wire.miniPattern t.signed w).length = w.miniLength := by
  have hbits : (miniNumber .network t.bytes t.signed w.toNat).bits 0 =
      Wire.miniPattern t.signed w :=
    bits_miniNumber .network (Kind.bytes_ne_zero t) t.signed w 0
  rw [← hbits, miniNumber_eq, length_bits_miniFrom]
  rfl

namespace Span

variable {t : IntType} (r : Span t)

/-- An offset takes as few bits as the difference of the bounds fits. -/
theorem isLeast_bits : IsLeast {k : Nat | r.max.value - r.min.value < 2 ^ k} r.bits := by
  have hfit (k : Nat) : r.max.value - r.min.value < 2 ^ k ↔ r.bits ≤ k := by
    rw [← Word.toNat_sub_of_le r.le, r.bits_eq, Nat.size_le]
    exact_mod_cast Iff.rfl
  exact ⟨(hfit r.bits).2 (Nat.le_refl _), fun k hk => (hfit k).1 hk⟩

theorem length_offsetWire {w : Word t} (h : r.contains w = true) :
    (r.offsetWire w).length = r.bits := by
  have hle := r.bits_le
  rw [← r.bits_offsetCode .network h 0, offsetCode_eq]
  split
  · rename_i h0
    exact h0.symm
  · rw [Code.bits_cons, Code.bits_nil, List.append_nil, Piece.bits, length_takenBits true]
    rw [ByteOrder.length_bytes]
    exact hle

/-- The format takes the bits of an offset, or those of the mini format, and a flag where numbers
outside of the bounds are allowed. -/
theorem length_wire {w : Word t} {outside : Bool} {bits : List Bool}
    (h : r.wire w outside = some bits) :
    bits.length =
      if outside then
        if r.min.value ≤ w.value ∧ w.value ≤ r.max.value then 1 + r.bits else 1 + w.miniLength
      else r.bits := by
  by_cases hw : r.min.value ≤ w.value ∧ w.value ≤ r.max.value
  · have hlen := r.length_offsetWire (decide_eq_true hw)
    rw [wire, if_pos hw] at h
    obtain rfl := Option.some.inj h
    rw [if_pos hw]
    cases outside with
    | true => exact (congrArg (· + 1) hlen).trans (Nat.add_comm _ _)
    | false => exact hlen
  · rw [wire, if_neg hw] at h
    cases outside with
    | true =>
      obtain rfl := Option.some.inj h
      rw [if_pos rfl, if_neg hw, List.length_cons, length_miniPattern, Nat.add_comm]
    | false => contradiction

theorem length_wire_le {w : Word t} {outside : Bool} {bits : List Bool}
    (h : r.wire w outside = some bits) : bits.length ≤ 66 := by
  have hbits := r.bits_le
  have htype := t.bits_le
  have hmini := w.miniLength_le
  rw [r.length_wire h]
  split
  · split
    · omega
    · omega
  · omega

/-- A number that may be written has a format. -/
theorem exists_wire {w : Word t} {outside : Bool}
    (h : r.min.value ≤ w.value ∧ w.value ≤ r.max.value ∨ outside = true) :
    ∃ bits, r.wire w outside = some bits := by
  unfold wire
  split
  · exact ⟨_, rfl⟩
  · rw [if_pos (h.resolve_left ‹_›)]
    exact ⟨_, rfl⟩

/-- Another number is refused before anything is written. -/
theorem writeRanged_outside {w : Word t}
    (h : ¬ (r.min.value ≤ w.value ∧ w.value ≤ r.max.value)) (b : Backed) :
    writeRanged r w false b = .error (.outsideRange w.value r.min.value r.max.value) b := by
  have hcontains : ¬ r.contains w = true := fun hc => h (of_decide_eq_true hc)
  have hcode (o : ByteOrder) :
      r.code o w false = .error (.outsideRange w.value r.min.value r.max.value) := by
    rw [code, if_neg Bool.false_ne_true, if_neg hcontains]
    rfl
  rw [writeRanged, writeCode_eq (r.code_order · · w false), hcode]
  rfl

end Span

/-! ## Writing and reading -/

/-- A number between bounds in order. It is refused only where it lies outside of them and that is not
allowed. Otherwise it is written, unless the allocator refuses memory: as an offset of the least number
of bits that the difference of the bounds fits or, outside of the bounds, in its mini code, with a flag
before it where both can be. It comes back from exactly these bits. The span of the bounds writes and
reads in the same way as the bounds themselves. -/
theorem writeBetween_exact {t : IntType} {min max : Word t} (hle : min.value ≤ max.value)
    (w : Word t) (outside : Bool) :
    ∃ (r : Span t) (k : Nat), Span.check min max = .ok r ∧
      IsLeast {k : Nat | max.value - min.value < 2 ^ k} k ∧
      (∀ b, writeRanged r w outside b = writeBetween w min max outside b) ∧
      (∀ s, (r.read outside).run s = (readBetween min max outside).run s) ∧
      (¬ (min.value ≤ w.value ∧ w.value ≤ max.value) ∧ outside = false →
        ∀ b, writeBetween w min max outside b =
          .error (.outsideRange w.value min.value max.value) b) ∧
      ((min.value ≤ w.value ∧ w.value ≤ max.value) ∨ outside = true →
        ∃ code : List Bool,
          (code.length =
            if outside then
              if min.value ≤ w.value ∧ w.value ≤ max.value then 1 + k else 1 + w.miniLength
            else k) ∧
          (∀ (s : Stream) (a : Allocator), s.Reachable → s.readOnly = false →
            (∃ b, writeBetween w min max outside ⟨s, a⟩ = .ok code.length b ∧
              b.stream.bits = s.bits ++ code) ∨
            ∃ f b, writeBetween w min max outside ⟨s, a⟩ = .error f b ∧ f.Refusal) ∧
          (∀ (s : Stream) (a : Allocator), s.Reachable → s.Admits a code.length →
            ∃ b, writeBetween w min max outside ⟨s, a⟩ = .ok code.length b) ∧
          ∀ s : Stream, s.Reachable → code <+: s.bits.drop s.readPos →
            (readBetween min max outside).run s = .ok (w, s.passed code.length)) := by
  have hcheck : Span.check min max = .ok ⟨min, max, hle⟩ := dif_pos hle
  have hread (s : Stream) : (readBetween min max outside).run s =
      (Span.read ⟨min, max, hle⟩ outside).run s := by
    unfold readBetween
    rw [hcheck]
    rfl
  rw [writeBetween_eq hle]
  refine ⟨⟨min, max, hle⟩, _, hcheck, Span.isLeast_bits ⟨min, max, hle⟩, fun _ => rfl,
    fun s => (hread s).symm, ?_, fun hw => ?_⟩
  · rintro ⟨hw, rfl⟩
    exact Span.writeRanged_outside ⟨min, max, hle⟩ hw
  · obtain ⟨bits, hbits⟩ := Span.exists_wire ⟨min, max, hle⟩ hw
    have hwrites := writesWire_writeRanged _ hbits
    refine ⟨bits, Span.length_wire _ hbits, fun s a hs hwritable => ?_, fun s a hs hroom => ?_,
      fun s hs hprefix => ?_⟩
    · have hshort : bits.length ≤ 2 ^ 63 :=
        Nat.le_trans (Span.length_wire_le _ hbits) (by decide)
      exact hwrites.written hs hwritable a hshort
    · exact (hwrites.refines hs.valid a).2 hroom
    · obtain ⟨code, hcode, hsame⟩ := Span.bits_code _ .network hbits
      have hdecodes := Span.decodes_read _ .network hcode s.readPos
      rw [hsame] at hdecodes
      rw [hread]
      exact hdecodes s hs.valid rfl hprefix

/-- The number -7 between -100 and 100, whose difference is no signed number of 8 bits. -/
theorem writeBetween_exact_wide :
    ∃ b code, code.length = 8 ∧
      writeBetween (t := .i8) 0xF9#8 0x9C#8 0x64#8 false ⟨empty {}, .system⟩ = .ok 8 b ∧
      b.stream.bits = code ∧ Word.value (t := .i8) 0xF9#8 = -7 ∧
      Word.value (t := .i8) 0x64#8 - Word.value (t := .i8) 0x9C#8 = 200 := by
  have hle : Word.value (t := .i8) 0x9C#8 ≤ Word.value (t := .i8) 0x64#8 := by decide
  obtain ⟨_, k, -, hleast, -, -, -, hwrite⟩ := writeBetween_exact hle 0xF9#8 false
  have hspan : Word.value (t := .i8) 0x64#8 - Word.value (t := .i8) 0x9C#8 = 200 := by decide
  rw [hspan] at hleast
  have hk : k = 8 := by
    have hle : k ≤ 8 := hleast.2 (show (200 : Int) < 2 ^ 8 by decide)
    have hfit : (200 : Int) < 2 ^ k := hleast.1
    have hlt : 200 < 2 ^ k := Int.ofNat_lt.1 (by rw [Int.natCast_pow]; exact hfit)
    refine Nat.le_antisymm hle (Nat.le_of_not_lt fun h7 => ?_)
    have hpow : 2 ^ k ≤ 2 ^ 7 := Nat.pow_le_pow_right (by decide) (by omega)
    omega
  obtain ⟨code, hlen, hwritten, hok, -⟩ := hwrite (.inl (by decide))
  rw [if_neg Bool.false_ne_true, hk] at hlen
  rw [hlen] at hwritten hok
  have hempty : (empty {}).Reachable := .made {} .empty (a := .system) rfl
  obtain ⟨b, hb⟩ := hok _ .system hempty (admits_empty {} rfl (by decide))
  refine ⟨b, code, hlen, hb, ?_, by decide, hspan⟩
  rcases hwritten _ .system hempty rfl with ⟨b', hb', hbits⟩ | ⟨f, b', hf, -⟩
  · rw [hb] at hb'
    cases hb'
    exact hbits
  · rw [hb] at hf
    contradiction

end Bitwire
