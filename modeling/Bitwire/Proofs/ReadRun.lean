import Bitwire.Proofs.Reachable

/-!
# Reading runs of bits

A run is read by one of two ways, depending on the read position and on the number of bits. What it
leaves in its destination does not show which way was taken: these are the next bits of the stream,
in whole bytes as far as they fill them. Reading the same bits one by one, passing over them and
reading them in two parts lead to the same stream.

* `Stream.readBits`: single bits, one after the other.
* `Filled`: a destination behind the read of a run.
* `readInto_refines`: what reading a run does, and that the other ways agree with it.
-/

namespace Bitwire

/-! ## Destinations -/

/-- `dest'` is `dest` with a run in its first bytes: whole bytes, and then the bits that are left
over at the low end of a byte if `right`, and else at its high end. Its other bits are zero, and the
bytes behind it stay. -/
structure Filled (right : Bool) (run : List Bool) (dest dest' : List UInt8) : Prop where
  length_eq : dest'.length = dest.length
  byte (i : Nat) : i < run.length / 8 → dest'[i]?.map byteBits = some ((run.drop (8 * i)).take 8)
  rest : run.length % 8 ≠ 0 → dest'[run.length / 8]?.map byteBits =
    some (paddedBits right (run.drop (8 * (run.length / 8))))
  later (i : Nat) : bytesFor run.length ≤ i → dest'[i]? = dest[i]?

theorem filled_packRun (right : Bool) (run : List Bool) {dest : List UInt8}
    (h : run.length ≤ 8 * dest.length) :
    Filled right run dest (packRun right run ++ dest.drop (bytesFor run.length)) where
  length_eq := by
    have := Buffer.bytesFor_le h
    rw [List.length_append, length_packRun, List.length_drop]
    omega
  byte i hi := by
    have hl : ((run.drop (8 * i)).take 8).length = 8 := by
      rw [List.length_take, List.length_drop]
      omega
    have hin : i < (packRun right run).length := by
      rw [length_packRun]
      unfold bytesFor
      omega
    rw [List.getElem?_append_left hin, byteBits_getElem?_packRun right run (by omega), paddedBits,
      hl]
    cases right <;> simp
  rest h0 := by
    have hl : (run.drop (8 * (run.length / 8))).length ≤ 8 := by
      rw [List.length_drop]
      omega
    have hin : run.length / 8 < (packRun right run).length := by
      rw [length_packRun]
      unfold bytesFor
      omega
    rw [List.getElem?_append_left hin, byteBits_getElem?_packRun right run (by omega),
      List.take_of_length_le hl]
  later i hi := by
    rw [List.getElem?_append_right (by rwa [length_packRun]), length_packRun, List.getElem?_drop,
      Nat.add_sub_cancel' hi]

namespace Stream

/-! ## Reading bits -/

/-- `n` single bits, one after the other. -/
def readBits : Nat → StreamM (List Bool)
  | 0 => pure []
  | n + 1 => do
    let bit ← readBit
    let bits ← readBits n
    pure (bit :: bits)

theorem Valid.run_readBits {s : Stream} (hs : s.Valid) {n : Nat} (h : n ≤ s.payload) :
    (readBits n).run s = .ok (s.buffer.bitsFrom s.readPos n, s.passed n) := by
  induction n generalizing s with
  | zero => rfl
  | succ n ih =>
    have hlt : s.readPos < s.writePos := by
      unfold payload at h
      omega
    have hbit : readBit.run s = .ok (s.buffer.bit s.readPos, s.passed 1) := by
      rw [hs.run_readBit, if_pos hlt]
    have hrest := ih (hs.passed_of_le (n := 1) (by omega)) (by rw [payload_passed]; omega)
    rw [passed_passed, Nat.add_comm] at hrest
    rw [Buffer.bitsFrom_succ]
    exact run_bind_eq_ok_iff.2 ⟨_, _, hbit, run_bind_eq_ok_iff.2 ⟨_, _, hrest, rfl⟩⟩

/-- When a run is read, and what becomes of the destination. -/
theorem Valid.readInto_eq_ok_iff {s s' : Stream} (hs : s.Valid) {dest dest' : List UInt8} {n : Nat}
    {right : Bool} :
    (readInto dest n right).run s = .ok (dest', s') ↔
      0 < n ∧ n ≤ s.payload ∧ n ≤ 8 * dest.length ∧
        dest' = packRun right (s.buffer.bitsFrom s.readPos n) ++ dest.drop (bytesFor n) ∧
        s' = s.passed n := by
  rw [hs.run_readInto]
  constructor
  · intro h
    split at h
    · contradiction
    · split at h
      · contradiction
      · split at h
        · contradiction
        · cases h
          exact ⟨by omega, by omega, by omega, rfl, rfl⟩
  · rintro ⟨h0, hn, hd, rfl, rfl⟩
    rw [if_neg (by omega), if_neg (by omega), if_neg (by omega)]

/-- Whole bytes and the bits behind them, read one after the other. -/
theorem Valid.exists_readInto_readInto {s : Stream} (hs : s.Valid) {a b : Nat} (ha : 0 < a)
    (hb : 0 < b) (h : 8 * a + b ≤ s.payload) {front back : List UInt8} (hfront : a ≤ front.length)
    (hback : b ≤ 8 * back.length) (right' right : Bool) :
    ∃ front' t back', (readInto front (8 * a) right').run s = .ok (front', t) ∧
      (readInto back b right).run t = .ok (back', s.passed (8 * a + b)) ∧
      front'.take a ++ back'.take (bytesFor b) =
        packRun right (s.buffer.bitsFrom s.readPos (8 * a + b)) := by
  have ht := hs.passed_of_le (n := 8 * a) (by omega)
  have hleft : b ≤ (s.passed (8 * a)).payload := by
    rw [payload_passed]
    omega
  have hfirst : (readInto front (8 * a) right').run s = .ok (_, _) := hs.readInto_eq_ok_iff.2
    ⟨by omega, by omega, Nat.mul_le_mul_left 8 hfront, rfl, rfl⟩
  have hsecond : (readInto back b right).run (s.passed (8 * a)) = .ok (_, _) :=
    ht.readInto_eq_ok_iff.2 ⟨hb, hleft, hback, rfl, rfl⟩
  rw [passed_passed] at hsecond
  refine ⟨_, _, _, hfirst, hsecond, ?_⟩
  rw [List.take_left' (by rw [length_packRun, Buffer.length_bitsFrom, bytesFor_mul]),
    List.take_left' (by rw [length_packRun, Buffer.length_bitsFrom]), Buffer.bitsFrom_add,
    packRun_append_bytes right right' (Buffer.length_bitsFrom _ _ _)]
  rfl

/-- Reading a run takes as many bits as were asked for and are there, at most as many as the
destination holds. It puts them into the first bytes of the destination, moves the read position past
them and changes nothing else of the stream. Single bits, one after the other, are the same bits, and
passing over them as well as reading whole bytes first leads to the same stream. -/
theorem readInto_refines {s : Stream} (hs : s.Reachable) (dest : List UInt8) (n : Nat)
    (right : Bool) :
    ((∃ r, (readInto dest n right).run s = .ok r) ↔
      0 < n ∧ n ≤ s.payload ∧ n ≤ 8 * dest.length) ∧
    ∀ dest' s', (readInto dest n right).run s = .ok (dest', s') →
      ∃ run, run = (s.bits.drop s.readPos).take n ∧ run.length = n ∧
        Filled right run dest dest' ∧ s' = { s with readPos := s.readPos + n } ∧
        takenBits right n dest' = run ∧ (readBits n).run s = .ok (run, s') ∧
        (skip n).run s = .ok ((), s') ∧
        ∀ (a b : Nat) (front back : List UInt8) (right' : Bool), n = 8 * a + b → 0 < a → 0 < b →
          a ≤ front.length → b ≤ 8 * back.length →
          ∃ front' t back', (readInto front (8 * a) right').run s = .ok (front', t) ∧
            (readInto back b right).run t = .ok (back', s') ∧
            front'.take a ++ back'.take (bytesFor b) = dest'.take (bytesFor n) := by
  have hv := hs.valid
  refine ⟨⟨?_, ?_⟩, ?_⟩
  · rintro ⟨⟨dest', s'⟩, h⟩
    obtain ⟨h0, hn, hd, -, -⟩ := hv.readInto_eq_ok_iff.1 h
    exact ⟨h0, hn, hd⟩
  · rintro ⟨h0, hn, hd⟩
    exact ⟨_, hv.readInto_eq_ok_iff.2 ⟨h0, hn, hd, rfl, rfl⟩⟩
  · intro dest' s' h
    obtain ⟨h0, hn, hd, rfl, rfl⟩ := hv.readInto_eq_ok_iff.1 h
    have hlen := Buffer.length_bitsFrom s.buffer s.readPos n
    have hfilled := filled_packRun right (s.buffer.bitsFrom s.readPos n) (by rwa [hlen])
    have htaken := takenBits_packRun right (s.buffer.bitsFrom s.readPos n) (dest.drop (bytesFor n))
    rw [hlen] at hfilled htaken
    refine ⟨_, (hv.take_unread hn).symm, hlen, hfilled, rfl, htaken, hv.run_readBits hn,
      by rw [run_skip, if_pos hn], ?_⟩
    rintro a b front back right' rfl ha hb hfront hback
    obtain ⟨front', t, back', h1, h2, hall⟩ :=
      hv.exists_readInto_readInto ha hb hn hfront hback right' right
    exact ⟨front', t, back', h1, h2, by rw [hall, List.take_left' (by rw [length_packRun, hlen])]⟩

/-- Ten bits behind the first three of a view of two bytes. -/
theorem readInto_refines_view :
    ∃ (s s' : Stream) (dest' : List UInt8), s.bits.length = 16 ∧
      (readInto [0xFF, 0xFF, 0xFF] 10 true).run s = .ok (dest', s') ∧ s'.readPos = 13 ∧
      dest'.length = 3 ∧
      dest'[0]?.map byteBits = some [false, false, true, false, true, false, false, true] ∧
      dest'[1]?.map byteBits = some [false, false, false, false, false, false, true, true] ∧
      dest'[2]? = some 0xFF := by
  let s : Stream := { view {} [0xA5, 0x3C] with readPos := 3 }
  have hs : s.Reachable := (Reachable.made {} (.view [0xA5, 0x3C]) (a := .system) rfl).next
    (next_moveRead 3 (by decide))
  obtain ⟨haccept, heffect⟩ := readInto_refines hs [0xFF, 0xFF, 0xFF] 10 true
  obtain ⟨⟨dest', s'⟩, h⟩ := haccept.2 ⟨by decide, by decide, by decide⟩
  obtain ⟨run, hrun, -, hfilled, rfl, -⟩ := heffect dest' s' h
  have hbits : (s.bits.drop s.readPos).take 10 =
      [false, false, true, false, true, false, false, true, true, true] := by decide +kernel
  obtain rfl := hrun.trans hbits
  exact ⟨s, _, dest', hs.valid.length_bits, h, rfl, hfilled.length_eq, hfilled.byte 0 (by decide),
    hfilled.rest (by decide), hfilled.later 2 (by decide)⟩

end Stream

end Bitwire
