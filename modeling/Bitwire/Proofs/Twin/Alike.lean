import Bitwire.Proofs.Stream.Transfer
import Bitwire.Proofs.Twin.Coupled

/-!
# Streams that show the same bits

Two valid streams with the same bits and the same read position are read in the same way, wherever
their bytes are kept and whatever is behind their bits. As sources of transfers they are exchangeable.

* `Stream.Alike`: the same bits and the same read position.
* `Reading.run_alike`: a reader does the same on both.
* `coupled_transfer`: transfers from either of them.
-/

namespace Bitwire.Stream

/-- Two valid streams with the same bits and the same read position. -/
structure Alike (s t : Stream) : Prop where
  left : s.Valid
  right : t.Valid
  bits_eq : t.bits = s.bits
  readPos_eq : t.readPos = s.readPos

namespace Alike

variable {s t : Stream} (h : s.Alike t)
include h

theorem writePos_eq : t.writePos = s.writePos := by
  rw [← h.right.length_bits, ← h.left.length_bits, h.bits_eq]

theorem payload_eq : t.payload = s.payload := by
  rw [payload, payload, h.writePos_eq, h.readPos_eq]

theorem writtenBytes_eq : t.writtenBytes = s.writtenBytes := by
  rw [writtenBytes, writtenBytes, h.writePos_eq]

theorem bytes_eq : t.bytes = s.bytes := by
  rw [h.right.bytes_eq, h.left.bytes_eq, h.bits_eq]

/-- The bits in the buffer agree as far as they were written. -/
theorem bitsFrom_eq {position n : Nat} (hn : position + n ≤ s.writePos) :
    t.buffer.bitsFrom position n = s.buffer.bitsFrom position n := by
  have hdrop : t.bits.drop position = s.bits.drop position := by rw [h.bits_eq]
  rw [h.left.drop_bits, h.right.drop_bits, h.writePos_eq] at hdrop
  have htake := congrArg (List.take n) hdrop
  rwa [Buffer.take_bitsFrom, Buffer.take_bitsFrom, Nat.min_eq_left (by omega)] at htake

theorem bit_eq {i : Nat} (hi : i < s.writePos) : t.buffer.bit i = s.buffer.bit i := by
  have hle : i + 1 ≤ s.writePos := hi
  exact List.head_eq_of_cons_eq (h.bitsFrom_eq hle)

/-- Both may be read up to the same position. -/
theorem moveRead {position : Nat} (hp : position ≤ s.writePos) :
    Alike { s with readPos := position } { t with readPos := position } where
  left := h.left.moveRead hp
  right := h.right.moveRead (by rw [h.writePos_eq]; exact hp)
  bits_eq := h.bits_eq
  readPos_eq := rfl

theorem passed {n : Nat} (hn : n ≤ s.payload) : Alike (s.passed n) (t.passed n) := by
  have hle := h.left.readPos_le
  unfold payload at hn
  have hp : s.readPos + n ≤ s.writePos := by omega
  unfold Stream.passed
  rw [h.readPos_eq]
  exact h.moveRead hp

end Alike

/-! ## Readers -/

/-- A reader does on a stream what it does on another one with the same bits and the same read
position. The induction follows how the reader is put together from the reads of bits. -/
theorem Reading.run_alike {refused : Fault → Prop} {α : Type} {x : StreamM α}
    (hx : Reading refused x) {s t : Stream} (h : s.Alike t) :
    x.run t = (x.run s).map fun r => (r.1, { t with readPos := r.2.readPos }) := by
  induction hx generalizing s t with
  | pure v =>
    change Except.ok (v, t) = .ok (v, { t with readPos := s.readPos })
    rw [← h.readPos_eq]
  | throw _ => rfl
  | bit =>
    rw [h.left.run_readBit, h.right.run_readBit]
    simp only [h.writePos_eq, h.readPos_eq, passed]
    split
    · rw [h.bit_eq ‹_›]
      rfl
    · rfl
  | @run n right _ =>
    rw [h.left.run_readRun, h.right.run_readRun, h.payload_eq]
    split
    · rfl
    · split
      · rfl
      · have hle := h.left.readPos_le
        have hn : n ≤ s.writePos - s.readPos := Nat.le_of_not_lt ‹_›
        rw [h.readPos_eq, h.bitsFrom_eq (by omega), passed, passed, h.readPos_eq]
        rfl
  | @into dest n right _ _ =>
    rw [h.left.run_readInto, h.right.run_readInto, h.payload_eq]
    split
    · rfl
    · split
      · rfl
      · split
        · rfl
        · have hle := h.left.readPos_le
          have hn : n ≤ s.writePos - s.readPos := Nat.le_of_not_lt ‹_›
          rw [h.readPos_eq, h.bitsFrom_eq (by omega), passed, passed, h.readPos_eq]
          rfl
  | skip n =>
    rw [run_skip, run_skip, h.payload_eq, passed, passed, h.readPos_eq]
    split <;> rfl
  | align =>
    change Except.ok ((), { t with readPos := min (t.readPos + padding t.readPos) t.writePos }) = _
    rw [h.readPos_eq, h.writePos_eq]
    rfl
  | @bind _ _ y f hy _ ihy ihf =>
    rw [StateT.run_bind, StateT.run_bind, ihy h]
    cases hrun : y.run s with
    | error e => rfl
    | ok r =>
      -- the first reader has only moved both read positions, so the second one starts from streams
      -- that are alike again
      obtain ⟨v, s'⟩ := r
      obtain ⟨p, -, hp, rfl⟩ := hy.reads s v s' h.left.readPos_le hrun
      exact ihf v ⟨_, _, hrun⟩ (h.moveRead hp)

/-- A reader moves the read position of both to the same place. -/
theorem coupled_onStream {seen : Fault → Option Fault} {refused : Fault → Prop} {α : Type}
    {x : StreamM α} (hx : Reading refused x) {s t : Stream} (h : s.Alike t) (a b : Allocator) :
    Coupled seen Eq
      (fun b' c' => ∃ position, position ≤ s.writePos ∧
        b' = ⟨{ s with readPos := position }, a⟩ ∧ c' = ⟨{ t with readPos := position }, b⟩)
      (onStream x ⟨s, a⟩) (onStream x ⟨t, b⟩) := by
  unfold onStream
  dsimp only
  rw [hx.run_alike h]
  cases hrun : x.run s with
  | error f => exact .error rfl
  | ok r =>
    obtain ⟨v, s'⟩ := r
    obtain ⟨p, -, hp, rfl⟩ := hx.reads s v s' h.left.readPos_le hrun
    exact .ok rfl ⟨p, hp, rfl, rfl⟩

/-! ## Sources of transfers -/

theorem Valid.bytesAt_eq {s : Stream} (hs : s.Valid) {i k : Nat} (h : i + k ≤ s.writtenBytes) :
    s.buffer.bytesAt i k = .ok ((s.bytes.drop i).take k) := by
  have hle := hs.writtenBytes_le
  unfold Buffer.bytesAt bytes
  rw [if_pos (by omega)]
  congr 1
  apply List.ext_getElem?
  intro j
  rw [Array.getElem?_toList, Array.getElem?_extract, List.getElem?_take, List.getElem?_drop,
    Array.getElem?_toList, Array.getElem?_extract, Nat.zero_add]
  by_cases hj : j < k
  · rw [if_pos (by omega), if_pos hj, if_pos (by omega)]
  · rw [if_neg (by omega), if_neg hj]

section Sources

variable {seen : Fault → Option Fault} {R : Backed → Backed → Prop} {s t : Stream} {b c : Backed}

/-- Both sources give the same value and move on alike. -/
def Moved {α : Type} (p q : α × Stream) : Prop := p.1 = q.1 ∧ p.2.Alike q.2

theorem coupled_onSource {α : Type} {x : StreamM α} {refused : Fault → Prop}
    (hx : Reading refused x) (h : s.Alike t) (hbc : R b c) :
    Coupled seen Moved R (onSource x s b) (onSource x t c) := by
  unfold onSource
  rw [hx.run_alike h]
  cases hrun : x.run s with
  | error f => exact .error rfl
  | ok r =>
    obtain ⟨v, s'⟩ := r
    obtain ⟨p, -, hp, rfl⟩ := hx.reads s v s' h.left.readPos_le hrun
    exact .ok ⟨rfl, h.moveRead hp⟩ hbc

theorem coupled_takeSlice (h : s.Alike t) (hbc : R b c) {n : Nat} (hn : n ≤ s.payload)
    (h8 : s.readPos % 8 = 0) :
    Coupled seen Moved R (onSource (takeSlice n) s b) (onSource (takeSlice n) t c) := by
  have hroom : s.readPos / 8 + bytesFor n ≤ s.writtenBytes := by
    have := h.left.readPos_le
    unfold payload at hn
    unfold writtenBytes bytesFor
    omega
  unfold onSource
  rw [run_takeSlice, run_takeSlice, h.readPos_eq, h.left.bytesAt_eq hroom,
    h.right.bytesAt_eq (by rw [h.writtenBytes_eq]; exact hroom), h.bytes_eq]
  exact .ok ⟨rfl, h.passed hn⟩ hbc

variable (hR : Transparent seen R)
include hR

theorem coupled_transferBits (k : Nat) (h : s.Alike t) (hbc : R b c) :
    Coupled seen Alike R (transferBits k s b) (transferBits k t c) := by
  induction k generalizing s t b c with
  | zero => exact .ok h hbc
  | succ k ih =>
    have hread : Reading (fun _ => False) readBit := .bit
    refine (coupled_onSource hread h hbc).bind ?_
    rintro ⟨bit, s'⟩ ⟨_, t'⟩ b₁ c₁ ⟨rfl, h'⟩ hbc₁
    refine ((blind_writeBit bit).writing.uniform seen R hR b₁ c₁ hbc₁).bind fun _ _ b₂ c₂ _ hbc₂ => ?_
    exact ih h' hbc₂

/-- A transfer does not tell its source from another one with the same bits and the same read
position. -/
theorem coupled_transfer (n : Nat) (h : s.Alike t) (hbc : R b c) :
    Coupled seen Moved R (transfer s n b) (transfer t n c) := by
  unfold transfer
  rw [h.payload_eq, h.readPos_eq]
  split
  · exact .error rfl
  · refine (hR.reserve hbc n).bind fun _ _ b₁ c₁ _ hbc₁ => ?_
    -- single bits up to the next whole byte of the source; the rest is taken as bytes
    have hbits : Coupled seen
        (fun s' t' => s' = s.passed (min n (padding s.readPos)) ∧ s'.Alike t') R
        (transferBits (min n (padding s.readPos)) s b₁)
        (transferBits (min n (padding s.readPos)) t c₁) :=
      (coupled_transferBits hR _ h hbc₁).imp fun s' t' b₂ c₂ hs' _ h' hbc₂ =>
        ⟨⟨(transferBits_eq_ok hs').1, h'⟩, hbc₂⟩
    refine hbits.bind ?_
    rintro s' t' b₂ c₂ ⟨rfl, h'⟩ hbc₂
    dsimp only
    by_cases h0 : n - min n (padding s.readPos) = 0
    · rw [if_pos h0, if_pos h0]
      exact .ok ⟨rfl, h'⟩ hbc₂
    · rw [if_neg h0, if_neg h0]
      have hleft : n - min n (padding s.readPos) ≤ (s.passed (min n (padding s.readPos))).payload := by
        have hn : n ≤ s.writePos - s.readPos := Nat.le_of_not_lt ‹_›
        unfold payload passed
        dsimp only
        omega
      have h8 : (s.passed (min n (padding s.readPos))).readPos % 8 = 0 := by
        unfold passed padding at *
        dsimp only
        omega
      refine (coupled_takeSlice h' hbc₂ hleft h8).bind ?_
      rintro ⟨src, s₂⟩ ⟨_, t₂⟩ b₃ c₃ ⟨rfl, h₂⟩ hbc₃
      refine ((writing_writeRun src _ false).uniform seen R hR b₃ c₃ hbc₃).bind fun _ _ b₄ c₄ _ hbc₄ => ?_
      exact .ok ⟨rfl, h₂⟩ hbc₄

end Sources

end Bitwire.Stream
