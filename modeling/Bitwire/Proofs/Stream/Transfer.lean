import Bitwire.Proofs.Buffer.Load
import Bitwire.Proofs.Read
import Bitwire.Proofs.Stream.Append
import Bitwire.Stream.Transfer

/-!
# Transfers

A transfer that succeeds appends the next bits of its source and passes over them there. This is so
whether the bits go one at a time or as a run of bytes, and wherever the bits of either stream are in
their bytes.

* `transferBits_eq_ok`: bits moved one at a time.
* `transfer_eq_ok`: what a transfer does to its source and to the other stream.
-/

namespace Bitwire.Stream

theorem onSource_eq_ok_iff {α : Type} {x : StreamM α} {source : Stream} {r : α × Stream}
    {b b' : Backed} : onSource x source b = .ok r b' ↔ x.run source = .ok r ∧ b' = b := by
  unfold onSource
  cases x.run source with
  | ok r' =>
    rw [pure_eq_ok_iff, Except.ok.injEq, eq_comm]
  | error f =>
    constructor
    · exact fun h => absurd h throw_ne_ok
    · rintro ⟨h, -⟩
      contradiction

theorem readBit_eq_ok {s s' : Stream} {bit : Bool} (h : readBit.run s = .ok (bit, s')) :
    bit = s.buffer.bit s.readPos ∧ s' = s.passed 1 := by
  rw [run_readBit] at h
  split at h
  · obtain ⟨b, hb, heq⟩ := map_eq_ok h
    cases heq
    unfold Buffer.byteAt at hb
    split at hb
    · rename_i hk
      cases hb
      exact ⟨Buffer.and_bitMask_eq_bit _ hk, rfl⟩
    · contradiction
  · contradiction

/-- Bits that are moved one at a time are appended in order. -/
theorem transferBits_eq_ok {k : Nat} {source source' s : Stream} {a : Allocator} {b : Backed}
    (h : transferBits k source ⟨s, a⟩ = .ok source' b) :
    source' = source.passed k ∧
      (s.Valid → s.Extends (source.buffer.bitsFrom source.readPos k) b.stream) := by
  induction k generalizing source s a with
  | zero =>
    obtain ⟨rfl, rfl⟩ := pure_eq_ok_iff.1 h
    exact ⟨rfl, .refl⟩
  | succ k ih =>
    obtain ⟨⟨bit, t⟩, b₁, h₁, h⟩ := bind_eq_ok_iff.1 h
    obtain ⟨n, ⟨s₂, a₂⟩, h₂, h₃⟩ := bind_eq_ok_iff.1 h
    obtain ⟨hread, rfl⟩ := onSource_eq_ok_iff.1 h₁
    obtain ⟨rfl, rfl⟩ := readBit_eq_ok hread
    obtain ⟨rfl, hrest⟩ := ih h₃
    refine ⟨?_, fun hs => ?_⟩
    · rw [passed_passed, Nat.add_comm]
    · have hfirst := (appends_writeBit _ s a _ _ hs h₂).2
      rw [Nat.add_comm, Buffer.bitsFrom_add]
      exact hfirst.trans (hrest hfirst.valid)

/-- The next `n` bits of a source whose read position is at a byte boundary, as its bytes. -/
def takeSlice (n : Nat) : StreamM (List UInt8) := do
  let s ← get
  let src ← s.buffer.bytesAt (s.readPos / 8) (bytesFor n)
  set { s with readPos := s.readPos + n }
  pure src

theorem run_takeSlice (n : Nat) (s : Stream) :
    (takeSlice n).run s =
      (s.buffer.bytesAt (s.readPos / 8) (bytesFor n)).map fun src => (src, s.passed n) := by
  unfold takeSlice
  cases h : s.buffer.bytesAt (s.readPos / 8) (bytesFor n) <;> simp [h] <;> rfl

theorem takeSlice_eq_ok {n : Nat} {source source' : Stream} {src : List UInt8}
    (hboundary : source.readPos % 8 = 0) (h : (takeSlice n).run source = .ok (src, source')) :
    source' = source.passed n ∧ takenBits false n src = source.buffer.bitsFrom source.readPos n := by
  rw [run_takeSlice] at h
  obtain ⟨bytes, hload, heq⟩ := map_eq_ok h
  cases heq
  obtain ⟨hlen, hbits⟩ := Buffer.bytesAt_eq_ok _ hload
  have hle := Buffer.le_bytesFor n
  refine ⟨rfl, ?_⟩
  rw [takenBits_false (by omega), hbits, Buffer.take_bitsFrom, Nat.min_eq_left hle,
    show 8 * (source.readPos / 8) = source.readPos by omega]

/-- A transfer that succeeds passes over the next bits of its source and appends them. -/
theorem transfer_eq_ok {n k : Nat} {source source' s : Stream} {a : Allocator} {b : Backed}
    (h : transfer source n ⟨s, a⟩ = .ok (k, source') b) :
    k = n ∧ n ≤ source.payload ∧ source' = source.passed n ∧
      (s.Valid → s.Extends (source.buffer.bitsFrom source.readPos n) b.stream) := by
  unfold transfer at h
  by_cases hp : source.payload < n
  · rw [if_pos hp] at h
    exact absurd h throw_ne_ok
  rw [if_neg hp] at h
  obtain ⟨_, ⟨s₁, a₁⟩, h₁, h⟩ := bind_eq_ok_iff.1 h
  obtain ⟨t, ⟨s₂, a₂⟩, h₂, h⟩ := bind_eq_ok_iff.1 h
  obtain ⟨rfl, hsingle⟩ := transferBits_eq_ok h₂
  have hext (hs : s.Valid) : s.Extends
      (source.buffer.bitsFrom source.readPos (min n (padding source.readPos))) s₂ :=
    have hroom := (hs.extends_of_reserve h₁).1
    hroom.trans (hsingle hroom.valid)
  by_cases h0 : n - min n (padding source.readPos) = 0
  · rw [if_pos h0] at h
    obtain ⟨hr, rfl⟩ := pure_eq_ok_iff.1 h
    cases hr
    have hn : min n (padding source.readPos) = n := by omega
    rw [hn] at hext ⊢
    exact ⟨rfl, Nat.le_of_not_lt hp, rfl, hext⟩
  · rw [if_neg h0] at h
    obtain ⟨⟨src, t⟩, b₃, h₃, h⟩ := (bind_eq_ok_iff (x := onSource (takeSlice _) _)).1 h
    obtain ⟨hslice, rfl⟩ := onSource_eq_ok_iff.1 h₃
    obtain ⟨j, b₄, h₄, h⟩ := (bind_eq_ok_iff (x := writeRun _ _ _)).1 h
    obtain ⟨hr, rfl⟩ := pure_eq_ok_iff.1 h
    cases hr
    have hboundary : (source.readPos + min n (padding source.readPos)) % 8 = 0 := by
      unfold padding at *
      omega
    obtain ⟨rfl, hbits⟩ := takeSlice_eq_ok hboundary hslice
    have hsum : min n (padding source.readPos) + (n - min n (padding source.readPos)) = n := by omega
    refine ⟨rfl, Nat.le_of_not_lt hp, ?_, fun hs => ?_⟩
    · rw [passed_passed, hsum]
    · have hrest := (appends_writeRun src _ false s₂ a₂ _ _ (hext hs).valid h₄).2
      rw [hbits] at hrest
      have := (hext hs).trans hrest
      change s.Extends (_ ++ source.buffer.bitsFrom (source.readPos + _) _) _ at this
      rwa [← Buffer.bitsFrom_add, hsum] at this

end Bitwire.Stream
