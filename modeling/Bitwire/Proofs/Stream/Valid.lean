import Bitwire.Proofs.Buffer.Load
import Bitwire.Proofs.Buffer.Store

/-!
# Streams that operations lead to

Merging new bits into a buffer relies on what all earlier operations left behind the write position.
`Stream.Valid` is this condition together with the order of the positions; it is what every
operation finds and leaves.

* `Stream.Valid`: the condition on a stream; `Valid.bytes_eq`: its bytes are its bits, packed.
* `Stream.Evolves`: what never changes back in the life of a stream.
* `Stream.Extends`: what appending bits means; `Valid.extends_of_stored`: how storing them does it.
-/

namespace Bitwire.Stream

/-- The positions are in order and within the buffer, a buffer inside the stream has its fixed size,
and the bits behind the write position in its byte are zero. -/
structure Valid (s : Stream) : Prop where
  readPos_le : s.readPos ≤ s.writePos
  writePos_le : s.writePos ≤ s.capacity
  size_inline : s.storage = .inline → s.buffer.size = inlineBytes
  clean : s.buffer.Clean s.writePos

/-- The setup stays, the buffer does not shrink, and it only ever moves out of the stream. -/
structure Evolves (s s' : Stream) : Prop where
  setup_eq : s'.setup = s.setup
  capacity_le : s.capacity ≤ s'.capacity
  storage : s'.storage = s.storage ∨ s.storage = .inline ∧ s'.storage = .owned

/-- `s'` is `s` with bits appended. -/
structure Extends (s : Stream) (bits : List Bool) (s' : Stream) : Prop where
  valid : s'.Valid
  evolves : s.Evolves s'
  bits_eq : s'.bits = s.bits ++ bits
  readPos_eq : s'.readPos = s.readPos
  writePos_eq : s'.writePos = s.writePos + bits.length

/-! ## The bits of a stream -/

namespace Valid

variable {s : Stream} (hs : s.Valid)
include hs

theorem bits_eq_bitsFrom : s.bits = s.buffer.bitsFrom 0 s.writePos := by
  rw [bits, Buffer.bitsOf_toList_eq_bitsFrom, Buffer.take_bitsFrom,
    Nat.min_eq_left (by exact hs.writePos_le)]

@[simp] theorem length_bits : s.bits.length = s.writePos := by
  rw [hs.bits_eq_bitsFrom, Buffer.length_bitsFrom]

theorem drop_bits (position : Nat) :
    s.bits.drop position = s.buffer.bitsFrom position (s.writePos - position) := by
  rw [hs.bits_eq_bitsFrom, Buffer.drop_bitsFrom, Nat.zero_add]

theorem writtenBytes_le : s.writtenBytes ≤ s.buffer.size := Buffer.bytesFor_le hs.writePos_le

/-- The bits of the written bytes are the written bits and zeros. -/
theorem bitsOf_bytes : bitsOf s.bytes = s.bits ++ List.replicate (padding s.writePos) false := by
  have hle := hs.writtenBytes_le
  have hend : 8 * s.writtenBytes = s.writePos + padding s.writePos := by
    unfold writtenBytes bytesFor padding
    omega
  apply List.ext_getElem?
  intro i
  rw [getElem?_bitsOf, bytes, Array.getElem?_toList, Array.getElem?_extract, Nat.zero_add,
    Nat.min_eq_left hle, Nat.sub_zero, List.getElem?_append, hs.length_bits, hs.bits_eq_bitsFrom]
  by_cases h1 : i < s.writePos
  · rw [if_pos (by omega), if_pos h1, Buffer.getElem?_bitsFrom _ _ h1, Nat.zero_add,
      ← Array.getElem?_toList, ← getElem?_bitsOf,
      Buffer.getElem?_bitsOf_toList (by have := hs.writePos_le; unfold capacity at this; omega)]
  · rw [if_neg h1, List.getElem?_replicate]
    by_cases h2 : i < s.writePos + padding s.writePos
    · rw [if_pos (by omega), if_pos (by omega), ← Array.getElem?_toList, ← getElem?_bitsOf,
        Buffer.getElem?_bitsOf_toList (by omega),
        hs.clean i (by omega) (by unfold writtenBytes at hend; omega)]
    · rw [if_neg (by omega), if_neg (by omega)]
      rfl

/-- The written bytes are the written bits, packed, with zeros in the last byte. -/
theorem bytes_eq : s.bytes = packRun false s.bits := by
  have h := bitsOf_packRun_false s.bits
  rw [hs.length_bits, ← hs.bitsOf_bytes] at h
  rw [← packRun_bitsOf false s.bytes, ← h, packRun_bitsOf]

/-- The read position may be anywhere within the written bits. -/
theorem moveRead {position : Nat} (h : position ≤ s.writePos) : Valid { s with readPos := position } where
  readPos_le := h
  writePos_le := hs.writePos_le
  size_inline := hs.size_inline
  clean := hs.clean

end Valid

/-! ## Changes -/

namespace Evolves

variable {s s' s'' : Stream}

theorem refl (s : Stream) : s.Evolves s := ⟨rfl, Nat.le_refl _, .inl rfl⟩

theorem trans (h : s.Evolves s') (h' : s'.Evolves s'') : s.Evolves s'' where
  setup_eq := h'.setup_eq.trans h.setup_eq
  capacity_le := Nat.le_trans h.capacity_le h'.capacity_le
  storage := by
    rcases h.storage with h1 | ⟨h1, h2⟩
    · rw [← h1]
      exact h'.storage
    · rcases h'.storage with h3 | ⟨h3, -⟩
      · exact .inr ⟨h1, h3.trans h2⟩
      · rw [h2] at h3
        contradiction

/-- Only the positions and the bytes in the buffer change. -/
theorem of_size_eq (hsetup : s'.setup = s.setup) (hstorage : s'.storage = s.storage)
    (hsize : s'.buffer.size = s.buffer.size) : s.Evolves s' :=
  ⟨hsetup, by unfold capacity; omega, .inl hstorage⟩

/-- A stream neither becomes nor ceases to be a view. -/
theorem readOnly_eq (h : s.Evolves s') : s'.readOnly = s.readOnly := by
  unfold readOnly
  rcases h.storage with h | ⟨h, h'⟩
  · rw [h]
  · rw [h, h']
    rfl

end Evolves

namespace Extends

variable {s s' s'' : Stream} {xs ys : List Bool}

theorem refl (hs : s.Valid) : s.Extends [] s :=
  ⟨hs, .refl s, by simp, rfl, rfl⟩

theorem trans (h : s.Extends xs s') (h' : s'.Extends ys s'') : s.Extends (xs ++ ys) s'' where
  valid := h'.valid
  evolves := h.evolves.trans h'.evolves
  bits_eq := by rw [h'.bits_eq, h.bits_eq, List.append_assoc]
  readPos_eq := h'.readPos_eq.trans h.readPos_eq
  writePos_eq := by rw [h'.writePos_eq, h.writePos_eq, List.length_append, Nat.add_assoc]

/-- What was appended lies behind the old write position. -/
theorem drop_writePos (h : s.Extends xs s') (hs : s.Valid) : s'.bits.drop s.writePos = xs := by
  rw [h.bits_eq, ← hs.length_bits, List.drop_left]

end Extends

/-- Storing bits at the write position and moving it behind them appends them. -/
theorem Valid.extends_of_stored {s : Stream} (hs : s.Valid) {bits : List Bool} {buffer : Buffer}
    (h : s.buffer.Stored s.writePos bits buffer) (hroom : s.writePos + bits.length ≤ s.capacity) :
    s.Extends bits { s with buffer, writePos := s.writePos + bits.length } := by
  have hvalid : Valid { s with buffer, writePos := s.writePos + bits.length } :=
    { readPos_le := by have := hs.readPos_le; dsimp only; omega
      writePos_le := by unfold capacity at hroom ⊢; rw [h.size_eq]; exact hroom
      size_inline := fun hi => by rw [← hs.size_inline hi]; exact h.size_eq
      clean := h.clean }
  refine ⟨hvalid, .of_size_eq rfl rfl h.size_eq, ?_, rfl, rfl⟩
  rw [hvalid.bits_eq_bitsFrom, hs.bits_eq_bitsFrom, Buffer.bitsFrom_add]
  congr 1
  · apply List.map_congr_left
    intro i hi
    have := List.mem_range'_1.1 hi
    exact h.bit_of_lt (by omega)
  · apply List.ext_getElem?
    intro k
    by_cases hk : k < bits.length
    · rw [Buffer.getElem?_bitsFrom _ _ hk, Nat.zero_add, h.bit_add hk, List.getElem?_eq_getElem hk]
    · rw [List.getElem?_eq_none (by simp; omega), List.getElem?_eq_none (by omega)]

end Bitwire.Stream
