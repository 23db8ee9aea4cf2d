import Bitwire.Proofs.Reachable
import Bitwire.Proofs.Twin.Alike

/-!
# Streams that look the same

What can be seen of a stream, but for its capacity and storage, is its setup, its positions and its
bytes. Of a valid stream these determine the bits. A stream that is rewound keeps its first bits and
nothing else: two streams that agree up to a position look the same once both are rewound to it.

* `Stream.SameFace`: streams that look the same; `Stream.Twins`, `twins_iff_sameFace`: the same in terms
  of their bits.
* `Valid.bits_moveWrite`: the bits of a stream that is rewound.
* `Stream.AgreeTo`, `AgreeTo.rewound`: streams that look the same once they are rewound.
-/

namespace Bitwire

/-- The operation, if it succeeds, leaves the write position at `position`. -/
inductive PositionOp.Rewinds : PositionOp → Nat → Prop
  | reset : Rewinds .reset 0
  | resetWrite : Rewinds .resetWrite 0
  | setWritePos (position : Nat) : Rewinds (.setWritePos position) position

namespace Stream

/-- Two streams that look the same. -/
structure SameFace (s t : Stream) : Prop where
  setup_eq : t.setup = s.setup
  readOnly_eq : t.readOnly = s.readOnly
  writePos_eq : t.writePos = s.writePos
  readPos_eq : t.readPos = s.readPos
  bytes_eq : t.bytes = s.bytes

/-- Two valid streams with the same setup, bits and read position, of which both or none is a view. -/
structure Twins (s t : Stream) : Prop where
  alike : s.Alike t
  setup_eq : t.setup = s.setup
  readOnly_eq : t.readOnly = s.readOnly

/-- Two streams with the same setup and the same first bits, of which both or none is a view. -/
structure AgreeTo (position : Nat) (s t : Stream) : Prop where
  setup_eq : t.setup = s.setup
  readOnly_eq : t.readOnly = s.readOnly
  le_left : position ≤ s.writePos
  le_right : position ≤ t.writePos
  bits_eq : t.bits.take position = s.bits.take position

theorem Valid.bits_eq_take {s : Stream} (hs : s.Valid) : s.bits = (bitsOf s.bytes).take s.writePos := by
  rw [hs.bitsOf_bytes, List.take_left' hs.length_bits]

theorem twins_iff_sameFace {s t : Stream} (hs : s.Valid) (ht : t.Valid) :
    s.Twins t ↔ s.SameFace t := by
  constructor
  · intro h
    exact ⟨h.setup_eq, h.readOnly_eq, h.alike.writePos_eq, h.alike.readPos_eq, h.alike.bytes_eq⟩
  · intro h
    refine ⟨⟨hs, ht, ?_, h.readPos_eq⟩, h.setup_eq, h.readOnly_eq⟩
    rw [hs.bits_eq_take, ht.bits_eq_take, h.bytes_eq, h.writePos_eq]

theorem Twins.moveRead {s t : Stream} (h : s.Twins t) {position : Nat} (hp : position ≤ s.writePos) :
    Twins { s with readPos := position } { t with readPos := position } :=
  ⟨h.alike.moveRead hp, h.setup_eq, h.readOnly_eq⟩

theorem Twins.refl {s : Stream} (hs : s.Valid) : s.Twins s := ⟨⟨hs, hs, rfl, rfl⟩, rfl, rfl⟩

/-- Streams that look the same still do when the same bits are appended. -/
theorem Twins.extends {s t s' t' : Stream} (h : s.Twins t) {bits : List Bool}
    (hs : s.Extends bits s') (ht : t.Extends bits t') : s'.Twins t' := by
  refine ⟨⟨hs.valid, ht.valid, ?_, ?_⟩, ?_, ?_⟩
  · rw [hs.bits_eq, ht.bits_eq, h.alike.bits_eq]
  · rw [hs.readPos_eq, ht.readPos_eq, h.alike.readPos_eq]
  · rw [hs.evolves.setup_eq, ht.evolves.setup_eq, h.setup_eq]
  · rw [hs.evolves.readOnly_eq, ht.evolves.readOnly_eq, h.readOnly_eq]

/-! ## Rewinding -/

theorem bit_moveWrite {s : Stream} {position i : Nat} (h : position ≤ s.capacity) (hi : i < position) :
    (s.moveWrite position).buffer.bit i = s.buffer.bit i := by
  unfold capacity at h
  unfold moveWrite
  dsimp only
  split
  · rfl
  · -- only the byte at the new position is masked, and there only the bits behind it
    have hbyte : position / 8 < s.buffer.size := by omega
    rw [Buffer.bit_modify s.buffer hbyte]
    split
    · rename_i hsame
      have hbit : s.buffer.bit i = byteBit s.buffer[position / 8] (i % 8) := by
        rw [Buffer.bit_eq_byteBit, hsame, Array.getElem?_eq_getElem hbyte]
        rfl
      rw [byteBit_and, byteBit_highMask (by omega), hbit]
      simp [show i % 8 < position % 8 by omega]
    · rfl

/-- What is left of the bits of a stream that is rewound. -/
theorem Valid.bits_moveWrite {s : Stream} (hs : s.Valid) {position : Nat}
    (h1 : s.readPos ≤ position) (h2 : position ≤ s.writePos) :
    (s.moveWrite position).bits = s.bits.take position := by
  have hle := Nat.le_trans h2 hs.writePos_le
  rw [(hs.moveWrite h1 hle).bits_eq_bitsFrom, hs.bits_eq_bitsFrom, Buffer.take_bitsFrom,
    Nat.min_eq_left h2]
  apply List.map_congr_left
  intro i hi
  have := List.mem_range'_1.1 hi
  exact bit_moveWrite hle (by change 0 ≤ i ∧ i < 0 + position at this; omega)

theorem Twins.agreeTo {s t : Stream} (h : s.Twins t) {position : Nat} (hp : position ≤ s.writePos) :
    AgreeTo position s t where
  setup_eq := h.setup_eq
  readOnly_eq := h.readOnly_eq
  le_left := hp
  le_right := by rw [h.alike.writePos_eq]; exact hp
  bits_eq := by rw [h.alike.bits_eq]

namespace AgreeTo

variable {s t : Stream} (hs : s.Valid) (ht : t.Valid)
include hs ht

/-- What two streams agree in is all that is left of them. -/
theorem moveWrite {position : Nat} (h : AgreeTo position s t) (hread : t.readPos = s.readPos)
    (h1 : s.readPos ≤ position) : Twins (s.moveWrite position) (t.moveWrite position) := by
  have h1' : t.readPos ≤ position := by rw [hread]; exact h1
  refine ⟨⟨hs.moveWrite h1 (Nat.le_trans h.le_left hs.writePos_le),
    ht.moveWrite h1' (Nat.le_trans h.le_right ht.writePos_le), ?_, hread⟩, h.setup_eq, h.readOnly_eq⟩
  rw [hs.bits_moveWrite h1 h.le_left, ht.bits_moveWrite h1' h.le_right, h.bits_eq]

/-- Nothing is left of streams that go back to their beginning. -/
theorem reset (h : AgreeTo 0 s t) :
    Twins { s with writePos := 0, readPos := 0 } { t with writePos := 0, readPos := 0 } := by
  have hagree : AgreeTo 0 { s with readPos := 0 } { t with readPos := 0 } :=
    ⟨h.setup_eq, h.readOnly_eq, Nat.zero_le _, Nat.zero_le _, rfl⟩
  exact hagree.moveWrite (hs.moveRead (Nat.zero_le _)) (ht.moveRead (Nat.zero_le _)) rfl
    (Nat.le_refl 0)

/-- Two streams look the same once both are rewound to a position up to which they agree. -/
theorem rewound {u v : Stream} {x : PositionOp} {position : Nat} (h : AgreeTo position s t)
    (hx : x.Rewinds position) (hu : x.perform.run s = .ok ((), u))
    (hv : x.perform.run t = .ok ((), v)) (hread : v.readPos = u.readPos) : u.Twins v := by
  cases hx with
  | reset | resetWrite =>
    cases hu
    cases hv
    exact h.reset hs ht
  | setWritePos =>
    obtain ⟨-, h1, -, rfl⟩ := setWritePos_eq_ok_iff.1 hu
    obtain ⟨-, -, -, rfl⟩ := setWritePos_eq_ok_iff.1 hv
    exact h.moveWrite hs ht hread h1

end AgreeTo

end Stream

end Bitwire
