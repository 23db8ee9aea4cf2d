import Bitwire.Proofs.Message
import Bitwire.Proofs.Ranged

/-!
# Numbers between bounds that nobody wrote

A reader of a number between bounds adds whatever offset the next bits stand for to the lower bound.
The bits of an offset can stand for more than the difference of the bounds, and the reader does not
compare the two. What it returns lies between the bounds exactly where the offset does not exceed
their difference, and no contents of a stream lead outside exactly where the number of values between
the bounds is a power of two.

* `runNumber`: the number that the bits of a run stand for.
* `Valid.run_readOffset`: what the reader of an offset does on any stream.
* `readBetween_inside`: which offsets lead to a number between the bounds.
-/

namespace Bitwire

open Bitwire.Stream

/-! ## Runs as numbers -/

/-- The number that a right-aligned run stands for, its bytes from the least significant one up. -/
def runNumber (bits : List Bool) : Nat := ofLittleBytes (packRun true bits)

theorem toNat_packByte_lt {chunk : List Bool} (h : chunk.length ≤ 8) :
    (packByte true chunk).toNat < 2 ^ chunk.length := by
  cases chunk with
  | nil => decide
  | cons b bs =>
    have hbyte := (byteOfBits (b :: bs)).toNat_lt
    have hlen : 8 - (b :: bs).length < 8 := by
      rw [List.length_cons]
      omega
    rw [packByte, if_pos rfl, UInt8.toNat_shiftRight, toNat_ofNat_mod_eight hlen,
      Nat.shiftRight_eq_div_pow, Nat.div_lt_iff_lt_mul (Nat.two_pow_pos _), ← Nat.pow_add,
      Nat.add_sub_cancel' h]
    exact hbyte

/-- A run of `n` bits stands for a number of `n` bits. -/
theorem runNumber_lt (bits : List Bool) : runNumber bits < 2 ^ bits.length := by
  induction h : bits.length using Nat.strongRecOn generalizing bits with
  | ind n ih =>
    unfold runNumber
    by_cases h8 : n ≤ 8
    · by_cases h0 : bits = []
      · subst h0
        exact Nat.two_pow_pos n
      · have hbyte := toNat_packByte_lt (show bits.length ≤ 8 by omega)
        rw [packRun_of_le true h0 (by omega), ofLittleBytes, ofLittleBytes, ← h]
        exact hbyte
    · have hfirst := (packByte true (bits.take 8)).toNat_lt
      have hrest : runNumber (bits.drop 8) < 2 ^ (n - 8) :=
        ih (n - 8) (by omega) (bits.drop 8) (by rw [List.length_drop, h])
      have hpow : 2 ^ n = 256 * 2 ^ (n - 8) := by
        rw [show (256 : Nat) = 2 ^ 8 from rfl, ← Nat.pow_add]
        congr 1
        omega
      rw [packRun_of_ge true (by omega), ofLittleBytes, hpow]
      unfold runNumber at hrest
      omega

/-- Every number of `n` bits is that of a run. -/
theorem runNumber_takenBits {k n x : Nat} (hn : n ≤ 8 * k) (hx : x < 2 ^ n) :
    runNumber (takenBits true n (littleBytes k x)) = x := by
  have hfit := lt_pow_bytesFor hx
  have hle := Buffer.bytesFor_le hn
  have hall := take_littleBytes_append hle hfit
  have hwide : x < 256 ^ k := Nat.lt_of_lt_of_le hfit (Nat.pow_le_pow_right (by decide) hle)
  unfold runNumber
  rw [packRun_takenBits (by rwa [length_littleBytes]) (cleanRun_littleBytes hn hx),
    ← ofLittleBytes_append_zeros _ (k - bytesFor n), hall, ofLittleBytes_littleBytes,
    Nat.mod_eq_of_lt hwide]

/-! ## Offsets -/

namespace Word

variable {t : IntType}

/-- A number moved up by an offset does not wrap around below another number. -/
theorem value_add_ofNat {a b : Word t} {d : Nat} (h : a.value + d ≤ b.value) :
    (a + BitVec.ofNat t.bits d).value = a.value + d := by
  have ha := a.isLt
  have hb := b.isLt
  unfold value at h ⊢
  cases hs : t.signed with
  | false =>
    rw [hs] at h
    simp only [Bool.false_eq_true, if_false] at h ⊢
    rw [BitVec.toNat_add, BitVec.toNat_ofNat, Nat.add_mod_mod, Nat.mod_eq_of_lt (by omega)]
    omega
  | true =>
    rw [hs] at h
    simp only [if_true] at h ⊢
    have hd : d < 2 ^ t.bits := by
      rw [BitVec.toInt_eq_toNat_cond, BitVec.toInt_eq_toNat_cond] at h
      split at h <;> split at h <;> omega
    have hsum : (a + BitVec.ofNat t.bits d).toNat =
        if a.toNat + d < 2 ^ t.bits then a.toNat + d else a.toNat + d - 2 ^ t.bits := by
      rw [BitVec.toNat_add, BitVec.toNat_ofNat, Nat.add_mod_mod]
      split
      · rw [Nat.mod_eq_of_lt ‹_›]
      · rw [Nat.mod_eq_sub_mod (by omega), Nat.mod_eq_of_lt (by omega)]
    rw [BitVec.toInt_eq_toNat_cond, BitVec.toInt_eq_toNat_cond] at h ⊢
    rw [hsum]
    split at h <;> split at h <;> split <;> split <;> omega

end Word

namespace Span

variable {t : IntType} (r : Span t)

/-- An offset leads to a number between the bounds where their difference is not below it. -/
theorem between_add_iff {d : Nat} (h : d < 2 ^ t.bits) :
    (r.min.value ≤ (r.min + BitVec.ofNat t.bits d).value ∧
      (r.min + BitVec.ofNat t.bits d).value ≤ r.max.value) ↔
      (d : Int) ≤ r.max.value - r.min.value := by
  constructor
  · rintro ⟨hmin, hmax⟩
    have hoffset : r.min + BitVec.ofNat t.bits d - r.min = BitVec.ofNat t.bits d := by
      rw [BitVec.add_comm, BitVec.add_sub_cancel]
    have hsub := Word.toNat_sub_of_le hmin
    rw [hoffset, BitVec.toNat_ofNat, Nat.mod_eq_of_lt h] at hsub
    omega
  · intro hd
    have hvalue : (r.min + BitVec.ofNat t.bits d).value = r.min.value + d :=
      Word.value_add_ofNat (b := r.max) (by omega)
    rw [hvalue]
    omega

/-- The offsets of the width that is read are all in order where the number of values between the
bounds is a power of two. -/
theorem all_offsets_iff :
    (∀ d : Nat, d < 2 ^ r.bits → (d : Int) ≤ r.max.value - r.min.value) ↔
      ∃ m : Nat, r.max.value - r.min.value + 1 = 2 ^ m := by
  have hleast := r.isLeast_bits
  have hfit : r.max.value - r.min.value < 2 ^ r.bits := hleast.1
  have hpos : 0 < 2 ^ r.bits := Nat.two_pow_pos _
  constructor
  · intro hall
    have hlast := hall (2 ^ r.bits - 1) (by omega)
    refine ⟨r.bits, ?_⟩
    rw [Int.natCast_sub hpos, show ((2 ^ r.bits : Nat) : Int) = 2 ^ r.bits from
      Int.natCast_pow 2 r.bits] at hlast
    omega
  · rintro ⟨m, hm⟩ d hd
    have hle : r.bits ≤ m := hleast.2 (show r.max.value - r.min.value < 2 ^ m by omega)
    have hpow : 2 ^ r.bits ≤ 2 ^ m := Nat.pow_le_pow_right (by decide) hle
    have hcast : ((2 ^ m : Nat) : Int) = r.max.value - r.min.value + 1 := by
      rw [hm]
      push_cast
      rfl
    omega

end Span

namespace Stream

variable {t : IntType}

/-- The reader of an offset adds what the next bits stand for to the lower bound. -/
theorem Valid.run_readOffset {s : Stream} (hs : s.Valid) (r : Span t) :
    r.readOffset.run s =
      if s.payload < r.bits then .error (.readTooMuch r.bits s.payload)
      else .ok (r.min + BitVec.ofNat t.bits (runNumber ((s.bits.drop s.readPos).take r.bits)),
        s.passed r.bits) := by
  have hle := r.bits_le
  rw [Span.readOffset_eq]
  by_cases h0 : r.bits = 0
  · rw [if_pos h0, h0, if_neg (Nat.not_lt_zero _), List.take_zero,
      show runNumber [] = 0 from rfl, BitVec.add_zero]
    rfl
  · rw [if_neg h0, StateT.run_bind, hs.run_readInto, if_neg h0]
    by_cases hshort : s.payload < r.bits
    · rw [if_pos hshort, if_pos hshort]
      rfl
    · have hdest : ¬ 8 * (List.replicate t.bytes (0 : UInt8)).length < r.bits := by
        rw [List.length_replicate]
        exact Nat.not_lt.2 hle
      have hnumber (run : List UInt8) :
          Word.ofImage t .little (run ++ (List.replicate t.bytes 0).drop (bytesFor r.bits)) =
            BitVec.ofNat t.bits (ofLittleBytes run) := by
        rw [Word.ofImage, ByteOrder.number, List.drop_replicate, ofLittleBytes_append_zeros]
      rw [if_neg hshort, if_neg hshort, if_neg hdest, hs.take_unread (Nat.le_of_not_lt hshort)]
      change Except.ok (r.min + Word.ofImage t .little _, s.passed r.bits) = _
      rw [hnumber]
      rfl

/-- Some stream holds any given offset. -/
theorem exists_reachable_runNumber (r : Span t) {d : Nat} (h : d < 2 ^ r.bits) :
    ∃ s : Stream, s.Reachable ∧ r.bits ≤ s.payload ∧
      runNumber ((s.bits.drop s.readPos).take r.bits) = d := by
  have hn : r.bits ≤ 8 * t.bytes := r.bits_le
  let bits := takenBits true r.bits (littleBytes t.bytes d)
  have hlen : bits.length = r.bits := length_takenBits true (by rwa [length_littleBytes])
  let s := view {} (packRun false bits)
  have hbits : s.bits = bits ++ List.replicate (padding bits.length) false := by
    rw [bits_view, bitsOf_packRun_false]
  have hs : s.Reachable := .made {} (.view (packRun false bits)) (a := .system) rfl
  have hpayload : s.payload = s.bits.length := hs.valid.length_bits.symm
  refine ⟨s, hs, ?_, ?_⟩
  · rw [hpayload, hbits, List.length_append, hlen]
    omega
  · have htake : (s.bits.drop s.readPos).take r.bits = bits := by
      change s.bits.take r.bits = bits
      rw [hbits, List.take_left' hlen]
    rw [htake]
    exact runNumber_takenBits hn h

/-- Reading a number between bounds in order takes as many bits as the difference of the bounds needs
and fails where fewer are left. The number that these bits stand for is added to the lower bound,
wrapping around. What is returned lies between the bounds exactly where that number is at most their
difference. For all streams it does exactly where the number of values between the bounds is a power
of two. The span of the bounds reads in the same way as the bounds themselves. -/
theorem readBetween_inside {min max : Word t} (hle : min.value ≤ max.value) :
    ∃ (r : Span t) (k : Nat), Span.check min max = .ok r ∧
      IsLeast {k : Nat | max.value - min.value < 2 ^ k} k ∧
      (∀ s, (r.read false).run s = (readBetween min max false).run s) ∧
      (∀ s : Stream, s.Reachable →
        (readBetween min max false).run s =
          if s.payload < k then .error (.readTooMuch k s.payload)
          else .ok (min + BitVec.ofNat t.bits (runNumber ((s.bits.drop s.readPos).take k)),
            s.passed k)) ∧
      (∀ (s : Stream) (v : Word t) (s' : Stream), s.Reachable →
        (readBetween min max false).run s = .ok (v, s') →
        (min.value ≤ v.value ∧ v.value ≤ max.value ↔
          (runNumber ((s.bits.drop s.readPos).take k) : Int) ≤ max.value - min.value)) ∧
      ((∀ (s : Stream) (v : Word t) (s' : Stream), s.Reachable →
        (readBetween min max false).run s = .ok (v, s') →
        min.value ≤ v.value ∧ v.value ≤ max.value) ↔
          ∃ m : Nat, max.value - min.value + 1 = 2 ^ m) := by
  let r : Span t := ⟨min, max, hle⟩
  have hcheck : Span.check min max = .ok r := dif_pos hle
  have hspan (s : Stream) : (r.read false).run s = (readBetween min max false).run s := by
    unfold readBetween
    rw [hcheck]
    rfl
  have hrun (s : Stream) (hs : s.Reachable) := hs.valid.run_readOffset r
  have hread (s : Stream) : (readBetween min max false).run s = r.readOffset.run s :=
    (hspan s).symm
  have hinside (s : Stream) (v : Word t) (s' : Stream) (hs : s.Reachable)
      (h : (readBetween min max false).run s = .ok (v, s')) :
      min.value ≤ v.value ∧ v.value ≤ max.value ↔
        (runNumber ((s.bits.drop s.readPos).take r.bits) : Int) ≤ max.value - min.value := by
    rw [hread, hrun s hs] at h
    split at h
    · contradiction
    · cases h
      apply r.between_add_iff
      have hlt := runNumber_lt ((s.bits.drop s.readPos).take r.bits)
      have hwidth : ((s.bits.drop s.readPos).take r.bits).length ≤ t.bits :=
        Nat.le_trans (List.length_take_le _ _) r.bits_le
      exact Nat.lt_of_lt_of_le hlt (Nat.pow_le_pow_right (by decide) hwidth)
  refine ⟨r, r.bits, hcheck, r.isLeast_bits, hspan, fun s hs => (hread s).trans (hrun s hs),
    hinside, ?_⟩
  rw [← r.all_offsets_iff]
  constructor
  · intro hall d hd
    obtain ⟨s, hs, hroom, rfl⟩ := exists_reachable_runNumber r hd
    have hok := (hread s).trans (hrun s hs)
    rw [if_neg (by omega)] at hok
    exact (hinside s _ _ hs hok).1 (hall s _ _ hs hok)
  · intro hall s v s' hs h
    refine (hinside s v s' hs h).2 (hall _ ?_)
    refine Nat.lt_of_lt_of_le (runNumber_lt _) (Nat.pow_le_pow_right (by decide) ?_)
    exact List.length_take_le _ _

/-- Three bits between -3 and 4, which are eight values: no contents lead outside. -/
theorem readBetween_inside_octet :
    ∃ v s', (readBetween (t := .i8) 0xFD#8 0x04#8 false).run (view {} [0xE0]) = .ok (v, s') ∧
      Word.value (t := .i8) 0xFD#8 = -3 ∧ -3 ≤ Word.value v ∧ Word.value v ≤ 4 ∧
      s'.readPos = 3 := by
  have hle : Word.value (t := .i8) 0xFD#8 ≤ Word.value (t := .i8) 0x04#8 := by decide
  obtain ⟨_, k, -, hleast, -, hrun, -, hall⟩ := readBetween_inside hle
  have hspan : Word.value (t := .i8) 0x04#8 - Word.value (t := .i8) 0xFD#8 = 7 := by decide
  have hview : (view {} [0xE0]).Reachable := .made {} (.view [0xE0]) (a := .system) rfl
  rw [hspan] at hleast hall
  obtain rfl : k = 3 := by
    have hle : k ≤ 3 := hleast.2 (show (7 : Int) < 2 ^ 3 by decide)
    have hfit : (7 : Int) < 2 ^ k := hleast.1
    have hcases : k = 0 ∨ k = 1 ∨ k = 2 ∨ k = 3 := by omega
    rcases hcases with rfl | rfl | rfl | rfl
    · contradiction
    · contradiction
    · contradiction
    · rfl
  have hok := (hrun _ hview).trans (if_neg (by decide))
  obtain ⟨hmin, hmax⟩ := hall.2 ⟨3, by decide⟩ _ _ _ hview hok
  exact ⟨_, _, hok, by decide, hmin, hmax, rfl⟩

/-- Five bits between 100 and 120: they are read as 131. -/
theorem readBetween_beyond :
    (view {} [0xF8]).Reachable ∧ Word.value (t := .u8) 100#8 ≤ Word.value (t := .u8) 120#8 ∧
      (readBetween (t := .u8) 100#8 120#8 false).run (view {} [0xF8]) =
        .ok (131#8, (view {} [0xF8]).passed 5) ∧
      Word.value (t := .u8) 120#8 < Word.value (t := .u8) 131#8 :=
  ⟨.made {} (.view [0xF8]) (a := .system) rfl, by decide, by decide +kernel, by decide⟩

end Stream

end Bitwire
