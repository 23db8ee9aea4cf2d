import Bitwire.Proofs.ReadRun
import Bitwire.Proofs.Wire.Write

/-!
# The shortest mini code

A byte string has several mini codes that are read: a byte of padding need not be shortened, and the
lowest byte may keep its high nibble. The code that is written is the shortest of them.

* `MiniCode`: the bit strings that are read as a byte string.
* `MiniCode.decodes`, `Stream.Valid.exists_miniCode`: they are read, and nothing else is.
* `length_bits_miniFrom`: the length of the code that is written.
* `MiniCode.eq_or_length_lt`: each of them is the written one or longer.
* `miniBytes_shortest`: byte strings come back, and no other code of theirs is as short.
-/

namespace Bitwire

open Bitwire.Stream

/-! ## Nibbles -/

/-- A nibble with the high nibble of the padding above it. -/
theorem nibble_or_highNibble {chunk : List Bool} (h : chunk.length = 4) (pad : UInt8) :
    (packByte true chunk ||| pad &&& 0xF0) &&& 0xF0 = pad &&& 0xF0 ∧
      (packByte true chunk ||| pad &&& 0xF0) &&& 0x0F = packByte true chunk := by
  have hlow : ∀ n : Fin 256, (UInt8.ofNat n.val >>> (4 : UInt8)) &&& (0xF0 : UInt8) = 0 ∧
      (UInt8.ofNat n.val >>> (4 : UInt8)) &&& (0x0F : UInt8) =
        UInt8.ofNat n.val >>> (4 : UInt8) := by decide +kernel
  have hpack : packByte true chunk = byteOfBits chunk >>> 4 := by
    rw [packByte, if_pos rfl, h]
    rfl
  obtain ⟨h1, h2⟩ := hlow ⟨(byteOfBits chunk).toNat, UInt8.toNat_lt _⟩
  rw [UInt8.ofNat_toNat, ← hpack] at h1 h2
  have hdistrib (x y z : UInt8) : (x ||| y) &&& z = x &&& z ||| y &&& z :=
    UInt8.toBitVec_inj.1 BitVec.and_or_distrib_right
  rw [hdistrib, hdistrib, h1, h2, UInt8.and_assoc, UInt8.and_assoc]
  exact ⟨UInt8.zero_or, by rw [show (0xF0 : UInt8) &&& 0x0F = 0 from rfl, UInt8.and_zero, UInt8.or_zero]⟩

theorem takenBits_nibble {chunk : List Bool} (h : chunk.length = 4) :
    takenBits true 4 [packByte true chunk] = chunk := by
  have hne : chunk ≠ [] := by
    rw [← List.length_pos_iff]
    omega
  have := takenBits_packRun true chunk []
  rwa [h, packRun_of_le true hne (by omega), List.append_nil] at this

/-! ## Accepted codes -/

/-- The bit strings that are read as a byte string, given from its most significant byte down. -/
inductive MiniCode (pad : UInt8) : List UInt8 → List Bool → Prop
  /-- The low nibble of the lowest byte, if its high nibble is padding. -/
  | nibble {b : UInt8} : b &&& 0xF0 = pad &&& 0xF0 →
      MiniCode pad [b] (true :: takenBits true 4 [b &&& 0x0F])
  /-- A single bit for a byte of padding. -/
  | skip {next : UInt8} {bs : List UInt8} {code : List Bool} :
      MiniCode pad (next :: bs) code → MiniCode pad (pad :: next :: bs) (true :: code)
  /-- All bytes that are left. -/
  | rest {bs : List UInt8} : bs ≠ [] → MiniCode pad bs (false :: bitsOf bs.reverse)

theorem length_bits_miniFrom (pad : UInt8) (src : List UInt8) (position : Nat) :
    ((miniFrom pad src).bits position).length = miniLengthFrom pad src := by
  induction src generalizing position with
  | nil => rfl
  | cons b bs ih =>
    cases bs with
    | nil =>
      rw [bits_miniFrom_last, miniLengthFrom]
      split
      · rw [List.length_cons, length_takenBits true (by simp)]
      · simp
    | cons next bs =>
      rw [bits_miniFrom_cons, miniLengthFrom]
      split
      · rw [List.length_cons, ih, Nat.add_comm]
      · rw [List.length_cons, length_bitsOf, List.length_reverse, Nat.add_comm]
        rfl

theorem miniLengthFrom_le (pad : UInt8) (src : List UInt8) :
    miniLengthFrom pad src ≤ 1 + 8 * src.length := by
  induction src with
  | nil => exact Nat.zero_le _
  | cons b bs ih =>
    cases bs with
    | nil =>
      rw [miniLengthFrom]
      split
      · simp
      · simp
    | cons next bs =>
      simp only [List.length_cons] at ih ⊢
      rw [miniLengthFrom]
      split
      · omega
      · omega

namespace MiniCode

variable {pad : UInt8} {src : List UInt8} {code : List Bool}

theorem ne_nil (h : MiniCode pad src code) : src ≠ [] := by
  cases h with
  | nibble | skip => exact List.cons_ne_nil _ _
  | rest h0 => exact h0

/-- An accepted code is the one that is written, or it is longer. -/
theorem eq_or_length_lt (h : MiniCode pad src code) (position : Nat) :
    code = (miniFrom pad src).bits position ∨ miniLengthFrom pad src < code.length := by
  induction h generalizing position with
  | nibble hpad =>
    rw [bits_miniFrom_last, if_pos hpad]
    exact .inl rfl
  | skip _ ih =>
    rw [bits_miniFrom_cons, if_pos rfl, miniLengthFrom, if_pos rfl, List.length_cons]
    rcases ih (position + 1) with heq | hlt
    · exact .inl (by rw [← heq])
    · exact .inr (by omega)
  | @rest bs h0 =>
    rw [List.length_cons, length_bitsOf, List.length_reverse]
    match bs with
    | [b] =>
      rw [bits_miniFrom_last, miniLengthFrom]
      split
      · exact .inr (by simp)
      · exact .inl rfl
    | b :: next :: bs =>
      -- where the first byte is padding, shortening it saves more than the longest code costs
      have hrest := miniLengthFrom_le pad (next :: bs)
      rw [bits_miniFrom_cons, miniLengthFrom]
      simp only [List.length_cons] at hrest ⊢
      split
      · exact .inr (by omega)
      · exact .inl rfl

/-- Every accepted code is read, wherever it begins. -/
theorem decodes (h : MiniCode pad src code) {dest : List UInt8} (hd : dest.length = src.length)
    (position : Nat) : Decodes (readMiniFrom pad dest) position code src := by
  induction h generalizing dest position with
  | @nibble b hpad =>
    obtain ⟨d, rfl⟩ := List.length_eq_one_iff.1 hd
    have := decodes_readMiniFrom_last pad b d position
    rwa [bits_miniFrom_last, if_pos hpad] at this
  | skip _ ih =>
    obtain ⟨d, ds, rfl⟩ := List.exists_cons_of_length_eq_add_one hd
    obtain ⟨dn, ds, rfl⟩ :=
      List.exists_cons_of_length_eq_add_one (show ds.length = _ by simpa using hd)
    exact .flag_true ((ih (by simpa using hd) (position + 1)).map (pad :: ·))
  | @rest bs h0 =>
    obtain ⟨d, ds, rfl⟩ := List.exists_cons_of_ne_nil (l := dest) (by
      rintro rfl
      exact h0 (List.length_eq_zero_iff.1 hd.symm))
    have hrun := decodes_readInto_bytes (position + 1) true (k := ds.length + 1) bs.reverse
      (by rw [List.length_reverse, ← hd, List.length_cons]) (by omega) (d :: ds).reverse (by simp)
    cases ds with
    | nil =>
      obtain ⟨b, rfl⟩ := List.length_eq_one_iff.1 hd.symm
      exact .flag_false hrun
    | cons dn ds =>
      have hrest := hrun.map List.reverse
      rw [List.reverse_reverse] at hrest
      exact .flag_false hrest

end MiniCode

/-! ## What is read -/

namespace Stream

namespace Valid

variable {s : Stream} (hs : s.Valid)
include hs

theorem readBit_eq_ok_iff {bit : Bool} {s' : Stream} :
    readBit.run s = .ok (bit, s') ↔
      s.readPos < s.writePos ∧ bit = s.buffer.bit s.readPos ∧ s' = s.passed 1 := by
  rw [hs.run_readBit]
  constructor
  · intro h
    split at h
    · cases h
      exact ⟨‹_›, rfl, rfl⟩
    · contradiction
  · rintro ⟨hlt, rfl, rfl⟩
    rw [if_pos hlt]

/-- Whole bytes that are read are the next bits of the stream. -/
theorem bytes_of_readInto {dest out : List UInt8} {k : Nat} {right : Bool} {s' : Stream}
    (hd : dest.length = k) (h : (readInto dest (8 * k) right).run s = .ok (out, s')) :
    8 * k ≤ s.payload ∧ out.length = k ∧ bitsOf out = s.buffer.bitsFrom s.readPos (8 * k) ∧
      s' = s.passed (8 * k) := by
  obtain ⟨-, hn, -, rfl, rfl⟩ := hs.readInto_eq_ok_iff.1 h
  have hlen : (packRun right (s.buffer.bitsFrom s.readPos (8 * k))).length = k := by
    rw [length_packRun, Buffer.length_bitsFrom, bytesFor_mul]
  have htaken := takenBits_packRun right (s.buffer.bitsFrom s.readPos (8 * k)) []
  rw [Buffer.length_bitsFrom, List.append_nil, takenBits_bytes,
    List.take_of_length_le (Nat.le_of_eq hlen)] at htaken
  rw [bytesFor_mul, List.drop_of_length_le (Nat.le_of_eq hd), List.append_nil]
  exact ⟨hn, hlen, htaken, rfl⟩

/-- Four bits that are read come at the low end of a byte. -/
theorem nibble_of_readInto {out : List UInt8} {s' : Stream}
    (h : (readInto [0] 4 true).run s = .ok (out, s')) :
    4 ≤ s.payload ∧ out = [packByte true (s.buffer.bitsFrom s.readPos 4)] ∧ s' = s.passed 4 := by
  obtain ⟨-, hn, -, rfl, rfl⟩ := hs.readInto_eq_ok_iff.1 h
  have hlen := Buffer.length_bitsFrom s.buffer s.readPos 4
  have hne : s.buffer.bitsFrom s.readPos 4 ≠ [] := by
    rw [← List.length_pos_iff]
    omega
  rw [packRun_of_le true hne (by omega)]
  exact ⟨hn, rfl, rfl⟩

/-- A read that begins with a flag. -/
theorem flag_eq_ok {α : Type} {x y : StreamM α} {v : α} {s' : Stream}
    (h : (do if ← readBit then x else y : StreamM α).run s = .ok (v, s')) :
    1 ≤ s.payload ∧
      (if s.buffer.bit s.readPos then x else y).run (s.passed 1) = .ok (v, s') := by
  obtain ⟨bit, s₁, hbit, hrest⟩ := run_bind_eq_ok_iff.1 h
  obtain ⟨hlt, rfl, rfl⟩ := hs.readBit_eq_ok_iff.1 hbit
  exact ⟨by unfold payload; omega, hrest⟩

end Valid

section Passed

variable {s : Stream} (hs : s.Valid) {pad : UInt8} {src : List UInt8} {s' : Stream}

/-- A code that is passed over, with the flag that comes first. -/
theorem exists_miniCode_of_flag (h1 : 1 ≤ s.payload)
    (h : ∃ n, n ≤ (s.passed 1).payload ∧
      MiniCode pad src (s.buffer.bit s.readPos :: s.buffer.bitsFrom (s.readPos + 1) n) ∧
      s' = (s.passed 1).passed n) :
    ∃ n, n ≤ s.payload ∧ MiniCode pad src (s.buffer.bitsFrom s.readPos n) ∧ s' = s.passed n := by
  obtain ⟨n, hn, hcode, rfl⟩ := h
  rw [payload_passed] at hn
  refine ⟨n + 1, by omega, by rwa [Buffer.bitsFrom_succ], ?_⟩
  rw [passed_passed, Nat.add_comm]

include hs

/-- The lowest byte, or all there is. -/
theorem Valid.exists_miniCode_last {d : UInt8} (h : (readMiniFrom pad [d]).run s = .ok (src, s')) :
    ∃ n, n ≤ s.payload ∧ MiniCode pad src (s.buffer.bitsFrom s.readPos n) ∧ s' = s.passed n := by
  obtain ⟨h1, hflag⟩ := hs.flag_eq_ok h
  have ht := hs.passed_of_le h1
  refine exists_miniCode_of_flag h1 ?_
  cases hbit : s.buffer.bit s.readPos with
  | true =>
    rw [hbit, if_pos rfl] at hflag
    obtain ⟨nibble, t, hnibble, hpure⟩ := run_bind_eq_ok_iff.1 hflag
    obtain ⟨hn, rfl, rfl⟩ := ht.nibble_of_readInto hnibble
    cases hpure
    have hlen := Buffer.length_bitsFrom s.buffer (s.readPos + 1) 4
    obtain ⟨hhigh, hlow⟩ := nibble_or_highNibble hlen pad
    have hcode := MiniCode.nibble hhigh
    rw [hlow, takenBits_nibble hlen] at hcode
    exact ⟨4, hn, hcode, rfl⟩
  | false =>
    rw [hbit, if_neg Bool.false_ne_true] at hflag
    obtain ⟨hn, hlen, hbits, rfl⟩ := ht.bytes_of_readInto (k := 1) rfl hflag
    obtain ⟨b, rfl⟩ := List.length_eq_one_iff.1 hlen
    have hcode : MiniCode pad [b] _ := .rest (List.cons_ne_nil b [])
    exact ⟨8, hn, by rwa [List.reverse_singleton, hbits] at hcode, rfl⟩

/-- The bits that are passed over when a byte string is read are a code of it. The induction goes
through the destination as the read does. -/
theorem Valid.exists_miniCode {dest : List UInt8} (h0 : dest ≠ [])
    (h : (readMiniFrom pad dest).run s = .ok (src, s')) :
    ∃ n, n ≤ s.payload ∧ MiniCode pad src (s.buffer.bitsFrom s.readPos n) ∧ s' = s.passed n := by
  induction dest generalizing s src s' with
  | nil => contradiction
  | cons d ds ih =>
    cases ds with
    | nil => exact hs.exists_miniCode_last h
    | cons dn ds =>
      obtain ⟨h1, hflag⟩ := hs.flag_eq_ok h
      have ht := hs.passed_of_le h1
      refine exists_miniCode_of_flag h1 ?_
      cases hbit : s.buffer.bit s.readPos with
      | true =>
        rw [hbit, if_pos rfl] at hflag
        obtain ⟨rest, t, hrest, hpure⟩ := run_bind_eq_ok_iff.1 hflag
        cases hpure
        obtain ⟨n, hn, hcode, rfl⟩ := ih ht (List.cons_ne_nil dn ds) hrest
        obtain ⟨next, bs, rfl⟩ := List.exists_cons_of_ne_nil hcode.ne_nil
        exact ⟨n, hn, .skip hcode, rfl⟩
      | false =>
        rw [hbit, if_neg Bool.false_ne_true] at hflag
        obtain ⟨all, t, hall, hpure⟩ := run_bind_eq_ok_iff.1 hflag
        obtain ⟨hn, hlen, hbits, rfl⟩ := ht.bytes_of_readInto (by simp) hall
        cases hpure
        have hne : all.reverse ≠ [] := by
          rw [← List.length_pos_iff, List.length_reverse, hlen]
          omega
        have hcode : MiniCode pad all.reverse _ := .rest hne
        exact ⟨_, hn, by rwa [List.reverse_reverse, hbits] at hcode, rfl⟩

end Passed

end Stream

/-! ## Byte strings -/

/-- Every accepted code of a byte string, given from its least significant byte up, is read. -/
theorem MiniCode.decodes_into {signed : Bool} {src dest : List UInt8} {code : List Bool}
    (h : MiniCode (padByte signed) src.reverse code) (hd : dest.length = src.length)
    (position : Nat) : Decodes (readMiniInto signed dest) position code src := by
  have hne : ¬ dest.isEmpty := by
    have hsrc := List.length_pos_iff.2 h.ne_nil
    rw [List.length_reverse, ← hd] at hsrc
    simpa [List.length_pos_iff] using hsrc
  have hlen : dest.reverse.length = src.reverse.length := by simpa using hd
  have hread := (h.decodes hlen position).map List.reverse
  rw [List.reverse_reverse] at hread
  unfold readMiniInto
  rwa [if_neg hne]

/-- The bits that are passed over when a byte string is read, given from its least significant byte
up. -/
theorem Stream.Valid.exists_miniCode_into {s : Stream} (hs : s.Valid) {signed : Bool}
    {dest src : List UInt8} {s' : Stream} (h0 : dest ≠ [])
    (h : (readMiniInto signed dest).run s = .ok (src, s')) :
    ∃ n, n ≤ s.payload ∧
      MiniCode (padByte signed) src.reverse (s.buffer.bitsFrom s.readPos n) ∧ s' = s.passed n := by
  rw [readMiniInto, if_neg (by simpa using h0)] at h
  obtain ⟨bytes, t, hbytes, hpure⟩ := run_bind_eq_ok_iff.1 h
  cases hpure
  rw [List.reverse_reverse]
  exact hs.exists_miniCode (by simpa using h0) hbytes

/-- The mini code of a byte string is written where there is room for it. Whatever its destination
held, a read gets the byte string back and passes over exactly these bits; and wherever else a read
of as many bytes gets it, it passes over more bits than these. -/
theorem miniBytes_shortest (signed : Bool) {src : List UInt8} (h0 : src ≠ []) :
    let code := Wire.mini signed (src.map (·.toBitVec)).reverse
    (∀ (s : Stream) (a : Allocator), s.Reachable →
      (∀ k b, writeMiniBytes signed src ⟨s, a⟩ = .ok k b →
        k = code.length ∧ b.stream.bits = s.bits ++ code) ∧
      (s.Admits a code.length → ∃ b, writeMiniBytes signed src ⟨s, a⟩ = .ok code.length b)) ∧
    (∀ (s : Stream) (dest : List UInt8), s.Reachable → dest.length = src.length →
      code <+: s.bits.drop s.readPos →
      (readMiniInto signed dest).run s = .ok (src, s.passed code.length)) ∧
    (∀ (s s' : Stream) (dest : List UInt8), s.Reachable → dest.length = src.length →
      (readMiniInto signed dest).run s = .ok (src, s') →
      ∃ other, other <+: s.bits.drop s.readPos ∧ s' = s.passed other.length ∧
        (other = code ∨ code.length < other.length)) := by
  intro code
  have hcode (position : Nat) : (miniFrom (padByte signed) src.reverse).bits position = code := by
    rw [bits_miniFrom signed (by simpa using h0), List.map_reverse]
  refine ⟨fun s a hs => ?_, fun s dest hs hd hbits => ?_, fun s s' dest hs hd h => ?_⟩
  · obtain ⟨happend, hok⟩ := (writesWire_writeMiniBytes signed h0).refines hs.valid a
    refine ⟨fun k b hk => ?_, hok⟩
    obtain ⟨hlen, hext⟩ := happend k b hk
    exact ⟨hlen, hext.bits_eq⟩
  · have hread := decodes_readMiniInto signed src dest hd h0 s.readPos
    rw [hcode] at hread
    exact hread s hs.valid rfl hbits
  · have hne : dest ≠ [] := by
      rw [← List.length_pos_iff, hd]
      exact List.length_pos_iff.2 h0
    obtain ⟨n, hn, hother, rfl⟩ := hs.valid.exists_miniCode_into hne h
    have hshort := hother.eq_or_length_lt 0
    rw [← length_bits_miniFrom _ _ 0, hcode] at hshort
    refine ⟨_, ?_, by rw [Buffer.length_bitsFrom], hshort⟩
    rw [← hs.valid.take_unread hn]
    exact List.take_prefix _ _

/-- The number 5 in three bytes takes seven bits. A view with all three bytes behind a zero bit is read
as the same number, and these are more bits. -/
theorem miniBytes_shortest_five :
    Wire.mini false ([0x05, 0x00, 0x00].map (UInt8.toBitVec ·)).reverse =
        [true, true, true, false, true, false, true] ∧
      (∃ b, writeMiniBytes false [0x05, 0x00, 0x00] ⟨empty {}, .system⟩ = .ok 7 b) ∧
      ∃ (s s' : Stream) (other : List Bool),
        (readMiniInto false [0xFF, 0xFF, 0xFF]).run s = .ok ([0x05, 0x00, 0x00], s') ∧
        s' = s.passed other.length ∧ 7 < other.length := by
  obtain ⟨hwrite, -, hshort⟩ := miniBytes_shortest false (List.cons_ne_nil 0x05 [0x00, 0x00])
  have hcode : Wire.mini false ([0x05, 0x00, 0x00].map (UInt8.toBitVec ·)).reverse =
      [true, true, true, false, true, false, true] := by decide +kernel
  rw [hcode] at hwrite hshort
  have hempty : (empty {}).Reachable := .made {} .empty (a := .system) rfl
  have hview : (view {} [0x02, 0x80, 0x00, 0x00]).Reachable :=
    .made {} (.view [0x02, 0x80, 0x00, 0x00]) (a := .system) rfl
  have hlong : MiniCode (padByte false) [0x05, 0x00, 0x00].reverse
      (false :: bitsOf [0x00, 0x00, 0x05].reverse) := .rest (by decide)
  have hlen : ([0xFF, 0xFF, 0xFF] : List UInt8).length = [0x05, 0x00, 0x00].length := rfl
  have hread := hlong.decodes_into hlen 0 _ hview.valid rfl (by decide +kernel)
  obtain ⟨other, -, hother, heq | hlt⟩ := hshort _ _ _ hview hlen hread
  · have hpos := congrArg Stream.readPos hother
    rw [heq] at hpos
    exact absurd hpos (by decide)
  · exact ⟨hcode, (hwrite _ _ hempty).2 (admits_empty {} rfl (by decide)), _, _, other, hread, hother, hlt⟩

end Bitwire
