import Bitwire.Proofs.Read
import Bitwire.Proofs.Stream.Valid

/-!
# Reading back

A read gets a value out of bits if, on every stream whose unread bits begin with them, it returns the
value and passes over exactly these bits. Neither the bits before and behind them nor the setup and
the storage of the stream matter. A sequence of reads gets its values out of bits in a row.

* `Stream.Decodes`: a read gets a value out of bits; `Decodes.bind`: two reads in a row.
* `decodes_readBit` … `decodes_readAlignedBytes`: the reads of bits and bytes.
-/

namespace Bitwire.Stream

/-- On every valid stream at the position whose unread bits begin with `bits`, `x` returns `v` and
passes over these bits. -/
def Decodes {α : Type} (x : StreamM α) (position : Nat) (bits : List Bool) (v : α) : Prop :=
  ∀ s : Stream, s.Valid → s.readPos = position → bits <+: s.bits.drop s.readPos →
    x.run s = .ok (v, s.passed bits.length)

/-! ## Passing over bits -/

section Passed

variable {s : Stream} (hs : s.Valid) {bits : List Bool} (h : bits <+: s.bits.drop s.readPos)
include hs h

theorem Valid.length_le_payload : bits.length ≤ s.payload := by
  have := h.length_le
  rwa [List.length_drop, hs.length_bits] at this

theorem Valid.passed : (s.passed bits.length).Valid := by
  have := hs.length_le_payload h
  have := hs.readPos_le
  unfold payload at *
  exact hs.moveRead (by omega)

/-- The unread bits of a stream are bits of its buffer. -/
theorem Valid.bitsFrom_eq : s.buffer.bitsFrom s.readPos bits.length = bits := by
  have hle := hs.length_le_payload h
  rw [hs.drop_bits] at h
  have htake := List.prefix_iff_eq_take.1 h
  unfold payload at hle
  rw [Buffer.take_bitsFrom, Nat.min_eq_left hle] at htake
  exact htake.symm

theorem Valid.loadRun_eq (right : Bool) :
    s.buffer.loadRun right s.readPos bits.length = .ok (packRun right bits) := by
  rw [hs.loadRun_unread right (hs.length_le_payload h), hs.bitsFrom_eq h]

end Passed

/-- What is unread once the first bits are passed over. -/
theorem prefix_passed {s : Stream} {xs ys : List Bool} (h : xs ++ ys <+: s.bits.drop s.readPos) :
    xs <+: s.bits.drop s.readPos ∧
      ys <+: (s.passed xs.length).bits.drop (s.passed xs.length).readPos := by
  refine ⟨(List.prefix_append xs ys).trans h, ?_⟩
  obtain ⟨rest, hrest⟩ := h
  change ys <+: s.bits.drop (s.readPos + xs.length)
  rw [← List.drop_drop, ← hrest, List.append_assoc, List.drop_left]
  exact List.prefix_append ys rest

theorem append_prefix {s : Stream} {xs ys : List Bool} (hxs : xs <+: s.bits.drop s.readPos)
    (hys : ys <+: (s.passed xs.length).bits.drop (s.passed xs.length).readPos) :
    xs ++ ys <+: s.bits.drop s.readPos := by
  obtain ⟨rest, hrest⟩ := hxs
  change ys <+: s.bits.drop (s.readPos + xs.length) at hys
  rw [← List.drop_drop, ← hrest, List.drop_left] at hys
  rw [← hrest]
  exact (List.prefix_append_right_inj xs).2 hys

/-! ## Sequences of reads -/

namespace Decodes

variable {α β : Type} {x : StreamM α} {position : Nat} {bits xs ys : List Bool}

theorem pure (v : α) (position : Nat) : Decodes (Pure.pure v : StreamM α) position [] v :=
  fun _ _ _ _ => rfl

theorem bind {f : α → StreamM β} {v : α} {w : β} (hx : Decodes x position xs v)
    (hf : Decodes (f v) (position + xs.length) ys w) : Decodes (x >>= f) position (xs ++ ys) w := by
  intro s hs hp hbits
  obtain ⟨hxs, hys⟩ := prefix_passed hbits
  have h1 := hx s hs hp hxs
  have h2 := hf (s.passed xs.length) (hs.passed hxs) (by rw [← hp]; rfl) hys
  rw [StateT.run_bind, h1]
  rw [List.length_append, ← passed_passed]
  exact h2

/-- A read whose value is changed afterwards. -/
theorem map {v : α} (f : α → β) (hx : Decodes x position bits v) :
    Decodes (do return f (← x)) position bits (f v) := by
  have := hx.bind (f := fun v => Pure.pure (f v)) (pure (f v) _)
  rwa [List.append_nil] at this

/-- A read that has to know the host order. -/
theorem order {f : ByteOrder → StreamM β} {w : β} (hf : ∀ o, Decodes (f o) position bits w) :
    Decodes (Stream.order >>= f) position bits w :=
  fun s => hf s.setup.order s

end Decodes

/-! ## Bits and bytes -/

theorem decodes_readBit (b : Bool) (position : Nat) : Decodes readBit position [b] b := by
  intro s hs _ h
  have hle := hs.length_le_payload h
  have hlt : s.readPos < s.writePos := by
    unfold payload at hle
    rw [List.length_singleton] at hle
    omega
  obtain ⟨hb, -⟩ := List.cons.inj (hs.bitsFrom_eq h)
  rw [hs.run_readBit, if_pos hlt, hb]
  rfl

/-- A flag that is set leads to the first of two reads. -/
theorem Decodes.flag_true {α : Type} {x y : StreamM α} {position : Nat} {bits : List Bool} {v : α}
    (hx : Decodes x (position + 1) bits v) :
    Decodes (do if ← readBit then x else y) position (true :: bits) v :=
  (decodes_readBit true position).bind (f := fun b => if b then x else y) hx

theorem Decodes.flag_false {α : Type} {x y : StreamM α} {position : Nat} {bits : List Bool} {v : α}
    (hy : Decodes y (position + 1) bits v) :
    Decodes (do if ← readBit then x else y) position (false :: bits) v :=
  (decodes_readBit false position).bind (f := fun b => if b then x else y) hy

variable (right : Bool) (position : Nat) (bits : List Bool)

theorem decodes_readRun (h0 : bits ≠ []) :
    Decodes (readRun bits.length right) position bits (packRun right bits) := by
  intro s hs _ h
  have hle := hs.length_le_payload h
  rw [run_readRun, if_neg (by simpa using h0), if_neg (by omega), hs.loadRun_eq h]
  rfl

/-- Only the first bytes of the destination are replaced. -/
theorem decodes_readInto (h0 : bits ≠ []) (dest : List UInt8) (hd : bits.length ≤ 8 * dest.length) :
    Decodes (readInto dest bits.length right) position bits
      (packRun right bits ++ dest.drop (bytesFor bits.length)) := by
  intro s hs hp h
  have hle := hs.length_le_payload h
  rw [run_readInto, if_neg (by simpa using h0), if_neg (by omega), if_neg (by omega),
    hs.loadRun_eq h, ← length_packRun right bits]
  rfl

section Taken

variable {n : Nat} (src : List UInt8) (h0 : n ≠ 0) (hn : n ≤ 8 * src.length)
  (hclean : CleanRun right n src)
include h0 hn

theorem takenBits_ne_nil : takenBits right n src ≠ [] := by
  rw [← List.length_pos_iff, length_takenBits right hn]
  omega

include hclean

/-- A clean run is read as the bytes it was taken from. -/
theorem decodes_readRun_taken :
    Decodes (readRun n right) position (takenBits right n src) (src.take (bytesFor n)) := by
  have := decodes_readRun right position _ (takenBits_ne_nil right src h0 hn)
  rwa [packRun_takenBits hn hclean, length_takenBits right hn] at this

theorem decodes_readInto_taken (dest : List UInt8) (hd : n ≤ 8 * dest.length) :
    Decodes (readInto dest n right) position (takenBits right n src)
      (src.take (bytesFor n) ++ dest.drop (bytesFor n)) := by
  have := decodes_readInto right position _ (takenBits_ne_nil right src h0 hn) dest
    (by rwa [length_takenBits right hn])
  rwa [packRun_takenBits hn hclean, length_takenBits right hn] at this

end Taken

/-- Aligning passes over whatever the bits up to the byte boundary are. -/
theorem decodes_readAlign {bits : List Bool} (h : bits.length = padding position) :
    Decodes readAlign position bits () := by
  intro s hs hp hbits
  have hle := hs.length_le_payload hbits
  have hpos := hs.readPos_le
  change Except.ok ((), { s with readPos := min (s.readPos + padding s.readPos) s.writePos }) = _
  unfold payload at hle
  rw [hp, ← h, ← hp, Nat.min_eq_left (by omega)]
  rfl

theorem decodes_readBytes (src : List UInt8) :
    Decodes (readBytes src.length) position (bitsOf src) src := by
  cases src with
  | nil => exact .pure [] position
  | cons b bs =>
    have := decodes_readRun true position (bitsOf (b :: bs)) (by simp [bitsOf_cons, byteBits])
    rwa [packRun_bitsOf, length_bitsOf] at this

theorem decodes_readAlignedBytes {pad : List Bool} (h : pad.length = padding position)
    (src : List UInt8) :
    Decodes (readAlignedBytes src.length) position (pad ++ bitsOf src) src :=
  (decodes_readAlign position h).bind (decodes_readBytes _ src)

end Bitwire.Stream
