import Bitwire.Proofs.Decode.Kind
import Bitwire.Proofs.LeadingZeros

/-!
# Reading ranged numbers and byte runs back

The offset of a number between two bounds has no more bits than the largest offset, so that the low
bits that are sent are all of it. A run of bytes comes back as far as the writer's bound lets it
through, if the reader's bound is not below that.

* `Span.toNat_offset_lt`: an offset fits the bits that are sent.
* `Span.decodes_read`, `decodes_readBetween`: numbers come back from their ranged codes.
* `decodes_readBounded`: runs of bytes with their length.
-/

namespace Bitwire

open Bitwire.Stream

/-! ## Offsets -/

namespace Word

variable {t : IntType}

/-- The difference of two words in order, as bit patterns, is that of their numbers. -/
theorem toNat_sub_of_le {a b : Word t} (h : a.value ≤ b.value) :
    ((b - a).toNat : Int) = b.value - a.value := by
  have ha := a.isLt
  have hb := b.isLt
  have hsub : (b - a).toNat = if a.toNat ≤ b.toNat then b.toNat - a.toNat
      else 2 ^ t.bits - a.toNat + b.toNat := by
    rw [BitVec.toNat_sub]
    split
    · rw [show 2 ^ t.bits - a.toNat + b.toNat = b.toNat - a.toNat + 2 ^ t.bits by omega,
        Nat.add_mod_right, Nat.mod_eq_of_lt (by omega)]
    · rw [Nat.mod_eq_of_lt (by omega)]
  unfold value at h ⊢
  rw [hsub]
  cases hs : t.signed with
  | false =>
    rw [hs] at h
    simp only [Bool.false_eq_true, if_false] at h ⊢
    rw [if_pos (by omega)]
    omega
  | true =>
    rw [hs] at h
    simp only [if_true] at h ⊢
    rw [BitVec.toInt_eq_toNat_cond, BitVec.toInt_eq_toNat_cond] at h ⊢
    split at h <;> split at h <;> split <;> omega

end Word

/-- The digits of a number that `n` bits hold end in a byte of which only low bits are set. -/
theorem cleanRun_littleBytes {k n x : Nat} (hn : n ≤ 8 * k) (hx : x < 2 ^ n) :
    CleanRun true n (littleBytes k x) := by
  intro hpart b hb
  have hlt : n / 8 < k := by omega
  rw [getElem?_littleBytes x hlt, Option.mem_def, Option.some.injEq] at hb
  have hsplit : 2 ^ n = 256 ^ (n / 8) * 2 ^ (n % 8) := by
    rw [show (256 : Nat) = 2 ^ 8 from rfl, ← Nat.pow_mul, ← Nat.pow_add, Nat.div_add_mod]
  have hdigit : x / 256 ^ (n / 8) < 2 ^ (n % 8) := by
    rw [Nat.div_lt_iff_lt_mul (Nat.pow_pos (by decide)), Nat.mul_comm, ← hsplit]
    exact hx
  rw [if_pos rfl, ← hb]
  apply UInt8.toNat_inj.1
  rw [UInt8.toNat_shiftRight, toNat_ofNat_mod_eight (by omega), UInt8.toNat_ofNat']
  rw [Nat.shiftRight_eq_div_pow, Nat.div_eq_of_lt (Nat.lt_of_le_of_lt (Nat.mod_le _ _) hdigit)]
  rfl

/-- The bytes that hold `n` bits hold every number of `n` bits. -/
theorem lt_pow_bytesFor {n x : Nat} (hx : x < 2 ^ n) : x < 256 ^ bytesFor n := by
  refine Nat.lt_of_lt_of_le hx ?_
  rw [show (256 : Nat) = 2 ^ 8 from rfl, ← Nat.pow_mul]
  exact Nat.pow_le_pow_right (by decide) (Buffer.le_bytesFor _)

/-- A number of at most `n` bits comes back from the first `n` bits of its bytes. -/
theorem decodes_readInto_littleBytes {k n x : Nat} (h0 : n ≠ 0) (hn : n ≤ 8 * k) (hx : x < 2 ^ n)
    (position : Nat) :
    Decodes (readInto (List.replicate k 0) n true) position
      (takenBits true n (ByteOrder.little.bytes k x)) (ByteOrder.little.bytes k x) := by
  have hlen : (ByteOrder.little.bytes k x).length = k := ByteOrder.length_bytes _ _ _
  have hinto := decodes_readInto_taken true position (n := n) (ByteOrder.little.bytes k x) h0
    (by rw [hlen]; exact hn) (cleanRun_littleBytes hn hx) (List.replicate k 0)
    (by rw [List.length_replicate]; exact hn)
  have hall : (ByteOrder.little.bytes k x).take (bytesFor n) ++
      (List.replicate k 0).drop (bytesFor n) = ByteOrder.little.bytes k x := by
    rw [List.drop_replicate]
    exact take_littleBytes_append (Buffer.bytesFor_le hn) (lt_pow_bytesFor hx)
  rwa [hall] at hinto

namespace Span

variable {t : IntType} (r : Span t)

theorem bits_eq : r.bits = (r.max - r.min).toNat.size := by
  obtain ⟨m, hm⟩ : ∃ m, t.bits = 2 ^ (m + 1) := by
    cases t with
    | u8 | i8 => exact ⟨2, rfl⟩
    | u16 | i16 => exact ⟨3, rfl⟩
    | u32 | i32 => exact ⟨4, rfl⟩
    | u64 | i64 => exact ⟨5, rfl⟩
  have hlt := (r.max - r.min).isLt
  have hle := Nat.size_le.2 hlt
  unfold bits
  rw [leadingZeros_eq _ hm, Nat.mod_eq_of_lt hlt]
  omega

/-- The offset of a number between the bounds fits the bits that are sent. -/
theorem toNat_offset_lt {w : Word t} (h : r.contains w = true) : (w - r.min).toNat < 2 ^ r.bits := by
  obtain ⟨h1, h2⟩ : r.min.value ≤ w.value ∧ w.value ≤ r.max.value := by
    simpa [contains] using h
  have hw := Word.toNat_sub_of_le h1
  have hmax := Word.toNat_sub_of_le r.le
  have := Nat.lt_size_self (r.max - r.min).toNat
  rw [bits_eq]
  omega

theorem decodes_readOffset (o : ByteOrder) {w : Word t} (h : r.contains w = true) (position : Nat) :
    Decodes r.readOffset position ((r.offsetCode o w).bits position) w := by
  have hlt := r.toNat_offset_lt h
  have hle := r.bits_le
  have hback : r.min + (w - r.min) = w := by
    rw [BitVec.add_comm, BitVec.sub_add_cancel]
  unfold readOffset offsetCode
  by_cases h0 : r.bits = 0
  · rw [if_pos h0, if_pos h0]
    rw [h0] at hlt
    have hzero : w - r.min = 0#t.bits := BitVec.eq_of_toNat_eq (by simpa using hlt)
    rw [hzero, BitVec.add_zero] at hback
    rw [hback]
    exact .pure w position
  · rw [if_neg h0, if_neg h0]
    have hinto := decodes_readInto_littleBytes (k := t.bytes) h0 hle hlt position
    unfold Word.image
    rw [ByteOrder.reorder_bytes, Code.bits_cons, Code.bits_nil]
    refine hinto.bind (.order fun o' => ?_)
    have hnumber : o'.number (ByteOrder.little.reorder o'
        (ByteOrder.little.bytes t.bytes (w - r.min).toNat)) = (w - r.min).toNat :=
      ByteOrder.number_reorder_bytes .little o' (toNat_lt_pow (k := t.bytes) (w - r.min))
    rw [Word.ofImage, hnumber, ofNat_toNat_self, hback]
    exact .pure w _

/-- A number comes back from its ranged code. -/
theorem decodes_read (o : ByteOrder) {w : Word t} {outside : Bool} {code : Code}
    (h : r.code o w outside = .ok code) (position : Nat) :
    Decodes (r.read outside) position (code.bits position) w := by
  unfold Span.code at h
  cases outside with
  | true =>
    rw [if_pos rfl] at h
    by_cases hc : r.contains w = true
    · rw [if_pos hc] at h
      cases h
      exact .flag_false (r.decodes_readOffset o hc (position + 1))
    · rw [if_neg hc] at h
      cases h
      exact .flag_true (decodes_miniPattern o (Kind.bytes_ne_zero t) id w (position + 1) t.signed)
  | false =>
    rw [if_neg (by decide)] at h
    by_cases hc : r.contains w = true
    · rw [if_pos hc] at h
      cases h
      exact r.decodes_readOffset o hc position
    · rw [if_neg hc] at h
      contradiction

end Span

/-- A number comes back from its ranged code where both sides state the same bounds. -/
theorem decodes_readBetween (o : ByteOrder) {t : IntType} {w min max : Word t} {outside : Bool}
    {code : Code} (h : (Span.check min max >>= fun r => r.code o w outside) = .ok code)
    (position : Nat) :
    Decodes (readBetween min max outside) position (code.bits position) w := by
  obtain ⟨r, hr, h⟩ := bind_eq_ok h
  unfold readBetween
  rw [hr]
  exact r.decodes_read o h position

/-! ## Runs of bytes -/

/-- A run of bytes comes back where the reader's bound lets it through. -/
theorem decodes_readBounded (o : ByteOrder) {src : List UInt8} {bound : Nat} {code : Code}
    (h : runCode o src = .ok code) (hb : src.length ≤ bound) (position : Nat) :
    Decodes (readBounded bound) position (code.bits position) src := by
  unfold runCode at h
  by_cases hwide : src.length ≤ 0xFFFFFFFF
  · rw [if_pos hwide] at h
    cases h
    refine (decodes_readMiniNumber o false (k := 4) (n := src.length) (by decide) (by omega)
      position).bind_code fun position => ?_
    rw [if_neg (by omega)]
    cases src with
    | nil => exact .pure [] position
    | cons b bs =>
      rw [if_neg (by simp), if_neg (by simp), Code.bits_cons, Code.bits_ofBytes]
      exact decodes_readAlignedBytes position List.length_replicate (b :: bs)
  · rw [if_neg hwide] at h
    contradiction

end Bitwire
