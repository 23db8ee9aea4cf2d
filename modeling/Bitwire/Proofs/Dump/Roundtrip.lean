import Bitwire.Proofs.Dump.Group
import Bitwire.Proofs.Reachable

/-!
# Dumps parse back

A dump is read back as the bits that it shows: whole bytes for a dump of bytes, and for one of bits the
bits and zeros up to the end of their last byte. What a stream shows of its bits is all that it holds, as
there is nothing behind its write position.

* `mapM_joinGroups`: groups that are joined are read one after the other.
* `bitGroups`: the groups of a dump of bits, as bits.
* `dump_roundtrip`: what comes back of a dump.
-/

namespace Bitwire

open Bitwire.Stream

/-! ## Joined groups -/

/-- Groups that are joined are read one after the other, wherever each of them starts. -/
theorem mapM_joinGroups {α β : Type} {f : Group → Except DumpError α} {encode : β → List Char}
    {value : β → α} {xs : List β}
    (hencode : ∀ x ∈ xs, encode x ≠ [] ∧ ∀ c ∈ encode x, c ≠ ' ')
    (hf : ∀ x ∈ xs, ∀ pos, f ⟨pos, encode x⟩ = .ok (value x)) :
    (groups 0 (joinGroups (xs.map encode)).toList).mapM f = .ok (xs.map value) := by
  rw [joinGroups, String.toList_ofList]
  generalize 0 = pos
  induction xs generalizing pos with
  | nil => rfl
  | cons x xs ih =>
    obtain ⟨h0, hchars⟩ := hencode x List.mem_cons_self
    have hx := hf x List.mem_cons_self pos
    cases xs with
    | nil =>
      have hjoin : List.intercalate [' '] ([x].map encode) = encode x ++ [] := by simp
      rw [hjoin, groups_run_append pos h0 hchars startsFresh_nil, List.mapM_cons, hx]
      rfl
    | cons next xs =>
      have hjoin : List.intercalate [' '] ((x :: next :: xs).map encode) =
          encode x ++ ' ' :: List.intercalate [' '] ((next :: xs).map encode) := by simp
      rw [hjoin, groups_run_append pos h0 hchars (startsFresh_space _), groups_space, List.mapM_cons, hx,
        ih (fun y hy => hencode y (List.mem_cons_of_mem x hy))
          (fun y hy => hf y (List.mem_cons_of_mem x hy))]
      rfl

/-! ## Bits -/

theorem readBitDigits_map (pos : Nat) (bits : List Bool) :
    readBitDigits pos (bits.map bitDigit) = .ok bits := by
  induction bits generalizing pos with
  | nil => rfl
  | cons b bits ih =>
    cases b with
    | true | false =>
      rw [List.map_cons, readBitDigits, ih]
      rfl

theorem utf8Length_bitDigits (bits : List Bool) : utf8Length (bits.map bitDigit) = bits.length := by
  induction bits with
  | nil => rfl
  | cons b bits ih =>
    have hsize : (bitDigit b).utf8Size = 1 := by cases b <;> rfl
    rw [List.map_cons, utf8Length, hsize, ih, List.length_cons, Nat.add_comm]

theorem Group.bits_digits (pos : Nat) {bits : List Bool} (h : bits.length ≤ 8) :
    Group.bits ⟨pos, bits.map bitDigit⟩ = .ok bits := by
  have hlen : ¬ 8 < utf8Length (bits.map bitDigit) := by
    rw [utf8Length_bitDigits]
    omega
  exact (if_neg hlen).trans (readBitDigits_map pos bits)

theorem bitDigits_ne {b : List Bool} (h : b ≠ []) :
    b.map bitDigit ≠ [] ∧ ∀ c ∈ b.map bitDigit, c ≠ ' ' := by
  refine ⟨by simpa using h, fun c hc => ?_⟩
  obtain ⟨b, -, rfl⟩ := List.mem_map.1 hc
  cases b <;> decide

/-- What is read of the digits of groups that are joined. -/
theorem parseBits_joinGroups {bs : List (List Bool)} (h : ∀ b ∈ bs, b ≠ [] ∧ b.length ≤ 8) :
    parseBits (joinGroups (bs.map (List.map bitDigit))) =
      .ok (bs.map byteOfBits, bs.flatten.length) := by
  have hread : (groups 0 (joinGroups (bs.map (List.map bitDigit))).toList).mapM Group.bits =
      .ok (bs.map id) :=
    mapM_joinGroups (fun b hb => bitDigits_ne (h b hb).1) fun b hb pos =>
      Group.bits_digits pos (h b hb).2
  rw [parseBits, hread, List.map_id]
  rfl

/-- The groups of a dump of bits, as the bits that they stand for. -/
def bitGroups (bytes : List UInt8) (bits : Nat) : List (List Bool) :=
  (bytes.take (bytesFor bits)).mapIdx fun i b => (byteBits b).take (bits - 8 * i)

theorem bitDump_eq (bytes : List UInt8) (bits : Nat) :
    bitDump bytes bits = joinGroups ((bitGroups bytes bits).map (List.map bitDigit)) := by
  rw [bitDump, bitGroups, List.mapIdx_eq_zipIdx_map, List.mapIdx_eq_zipIdx_map, List.map_map]
  rfl

theorem bitGroups_nil (bits : Nat) : bitGroups [] bits = [] := by
  rw [bitGroups, List.take_nil, List.mapIdx_nil]

theorem bitGroups_zero (bytes : List UInt8) : bitGroups bytes 0 = [] := rfl

theorem bitGroups_cons (b : UInt8) (bs : List UInt8) {bits : Nat} (h : bits ≠ 0) :
    bitGroups (b :: bs) bits = (byteBits b).take bits :: bitGroups bs (bits - 8) := by
  have hcount : bytesFor bits = bytesFor (bits - 8) + 1 := by
    unfold bytesFor
    omega
  rw [bitGroups, hcount, List.take_succ_cons, List.mapIdx_cons]
  simp only [bitGroups, Nat.mul_add, Nat.mul_one, Nat.sub_sub, Nat.add_comm]
  rfl

theorem flatten_bitGroups (bytes : List UInt8) (bits : Nat) :
    (bitGroups bytes bits).flatten = (bitsOf bytes).take bits := by
  induction bytes generalizing bits with
  | nil => simp [bitGroups]
  | cons b bs ih =>
    by_cases h : bits = 0
    · subst h
      rfl
    · rw [bitGroups_cons b bs h, List.flatten_cons, ih, bitsOf_cons, List.take_append, length_byteBits]

/-- The bytes of a dump of bits hold its bits from the high end of the first one on. -/
theorem map_bitGroups (bytes : List UInt8) (bits : Nat) :
    (bitGroups bytes bits).map byteOfBits = packRun false ((bitsOf bytes).take bits) := by
  induction bytes generalizing bits with
  | nil => simp [bitGroups]
  | cons b bs ih =>
    by_cases h : bits = 0
    · rw [h, bitGroups_zero, List.take_zero, packRun_nil, List.map_nil]
    · rw [bitGroups_cons b bs h, List.map_cons, bitsOf_cons, List.take_append, length_byteBits, ih]
      by_cases hle : 8 ≤ bits
      · rw [List.take_of_length_le (by rwa [length_byteBits]),
          packRun_append false (length_byteBits b)]
        rfl
      · have hlen : ((byteBits b).take bits).length = bits := by
          rw [List.length_take, length_byteBits]
          omega
        have hne : (byteBits b).take bits ≠ [] := by
          rw [← List.length_pos_iff]
          omega
        rw [show bits - 8 = 0 by omega, List.take_zero, List.append_nil, packRun_nil,
          packRun_of_le false hne (by omega)]
        rfl

theorem bitGroups_bounds {bytes : List UInt8} {bits : Nat} {g : List Bool}
    (h : g ∈ bitGroups bytes bits) : g ≠ [] ∧ g.length ≤ 8 := by
  induction bytes generalizing bits with
  | nil => simp [bitGroups] at h
  | cons b bs ih =>
    by_cases h0 : bits = 0
    · rw [h0, bitGroups_zero] at h
      contradiction
    · rw [bitGroups_cons b bs h0] at h
      rcases List.mem_cons.1 h with rfl | h
      · rw [← List.length_pos_iff, List.length_take, length_byteBits]
        omega
      · exact ih h

/-- What is read of a dump of bits. -/
theorem parseBits_bitDump (bytes : List UInt8) (bits : Nat) :
    parseBits (bitDump bytes bits) =
      .ok (packRun false ((bitsOf bytes).take bits), min bits (8 * bytes.length)) := by
  rw [bitDump_eq, parseBits_joinGroups fun _ => bitGroups_bounds, map_bitGroups, flatten_bitGroups,
    List.length_take, length_bitsOf]

/-! ## Bytes -/

/-- The two digits of a byte, as they are read. -/
theorem hexPair_digits (b : UInt8) :
    hexValue? (Nat.digitChar (b.toNat / 16)) = some (b >>> 4) ∧
      hexValue? (Nat.digitChar (b.toNat % 16)) = some (b &&& 0x0F) ∧
      (b >>> 4) <<< 4 ||| b &&& 0x0F = b ∧ utf8Length (hexPair b) = 2 ∧
      ' ' ∉ hexPair b := by
  have hall : ∀ n : Fin 256,
      hexValue? (Nat.digitChar (n.val / 16)) = some (UInt8.ofNat n.val >>> 4) ∧
        hexValue? (Nat.digitChar (n.val % 16)) = some (UInt8.ofNat n.val &&& 0x0F) ∧
        (UInt8.ofNat n.val >>> 4) <<< 4 ||| UInt8.ofNat n.val &&& 0x0F = UInt8.ofNat n.val ∧
        utf8Length (hexPair (UInt8.ofNat n.val)) = 2 ∧
        ' ' ∉ hexPair (UInt8.ofNat n.val) := by decide +kernel
  have := hall ⟨b.toNat, b.toNat_lt⟩
  rwa [UInt8.ofNat_toNat] at this

theorem Group.hexBytes_pair (pos : Nat) (b : UInt8) :
    Group.hexBytes ⟨pos, hexPair b⟩ = .ok [b] := by
  obtain ⟨hhigh, hlow, hbyte, hlen, -⟩ := hexPair_digits b
  have hodd : ¬ utf8Length (hexPair b) % 2 = 1 := by rw [hlen]; decide
  refine (if_neg hodd).trans ?_
  unfold hexPair
  rw [readHexDigits, readHexDigit, hhigh, readHexDigit, hlow]
  exact congrArg (fun b => Except.ok [b]) hbyte

/-- What is read of a dump of bytes. -/
theorem parseHex_hexDump (bytes : List UInt8) (bits : Nat) :
    parseHex (hexDump bytes bits) = .ok (bytes.take (bytesFor bits)) := by
  have hread : (groups 0 (joinGroups ((bytes.take (bytesFor bits)).map hexPair)).toList).mapM
      Group.hexBytes = .ok ((bytes.take (bytesFor bits)).map fun b => [b]) :=
    mapM_joinGroups
      (fun b _ => ⟨List.cons_ne_nil _ _, List.forall_mem_ne'.2 (hexPair_digits b).2.2.2.2⟩)
      fun b _ pos => Group.hexBytes_pair pos b
  rw [parseHex, hexDump, hread]
  change Except.ok ((bytes.take (bytesFor bits)).map fun b => [b]).flatten = _
  rw [← List.flatMap_def, List.flatMap_singleton']

/-! ## Dumps -/

theorem take_bytesFor_min (bytes : List UInt8) (bits : Nat) :
    bytes.take (bytesFor (min bits (8 * bytes.length))) = bytes.take (bytesFor bits) := by
  by_cases h : bits ≤ 8 * bytes.length
  · rw [Nat.min_eq_left h]
  · have hall : bytes.length ≤ bytesFor bits := by
      unfold bytesFor
      omega
    rw [Nat.min_eq_right (by omega), bytesFor_mul, List.take_length, List.take_of_length_le hall]

/-- With `k` the number of bits that are there to be shown, a dump of bits is read as the first `k` bits
of its bytes, in as few bytes as hold them, with zeros behind, and as the number `k`; a dump of bytes is
read as the bytes that these bits touch, unchanged. From the dump of a stream come its bytes and its write
position. -/
theorem dump_roundtrip :
    (∀ (bytes : List UInt8) (bits : Nat),
      let k := min bits (8 * bytes.length)
      (∃ kept, parseBits (bitDump bytes bits) = .ok (kept, k) ∧ kept.length = bytesFor k ∧
        bitsOf kept = (bitsOf bytes).take k ++ List.replicate (padding k) false) ∧
      parseHex (hexDump bytes bits) = .ok (bytes.take (bytesFor k))) ∧
    ∀ s : Stream, s.Reachable →
      parseBits (bitDump s.bytes s.writePos) = .ok (s.bytes, s.writePos) ∧
      parseHex (hexDump s.bytes s.writePos) = .ok s.bytes := by
  refine ⟨fun bytes bits => ⟨⟨_, parseBits_bitDump bytes bits, ?_, ?_⟩, ?_⟩, fun s hs => ⟨?_, ?_⟩⟩
  · rw [length_packRun, List.length_take, length_bitsOf]
  · rw [bitsOf_packRun_false, List.length_take, length_bitsOf, List.take_eq_take_min, length_bitsOf]
  · rw [parseHex_hexDump, take_bytesFor_min]
  · have hbits : (bitsOf s.bytes).take s.writePos = s.bits := by
      rw [hs.valid.bitsOf_bytes, List.take_left' hs.valid.length_bits]
    have hcount : min s.writePos (8 * s.bytes.length) = s.writePos := by
      rw [hs.valid.bytes_eq, length_packRun, hs.valid.length_bits]
      unfold bytesFor
      omega
    rw [parseBits_bitDump, hbits, hcount, ← hs.valid.bytes_eq]
  · have hlen : s.bytes.length = bytesFor s.writePos := by
      rw [hs.valid.bytes_eq, length_packRun, hs.valid.length_bits]
    rw [parseHex_hexDump, List.take_of_length_le (Nat.le_of_eq hlen)]

/-- A dump that ends within its second byte, of a stream that was rewound to there. -/
theorem dump_roundtrip_rewound :
    ∃ s : Stream, bitDump s.bytes s.writePos = "10100101 001" ∧ s.bytes = [0xA5, 0x20] ∧
      parseBits (bitDump s.bytes s.writePos) = .ok ([0xA5, 0x20], 11) := by
  let s := filled {} [0xA5, 0x3C]
  have hmade : s.Reachable := reachable_filled {} (by decide)
  have hroom : 11 ≤ s.capacity := Nat.le_trans (by decide) hmade.valid.writePos_le
  have hs := hmade.next (next_moveWrite rfl (Nat.zero_le 11) hroom)
  have hbytes : (s.moveWrite 11).bytes = [0xA5, 0x20] := by decide +kernel
  have hread := (dump_roundtrip.2 _ hs).1
  refine ⟨_, ?_, hbytes, hread.trans (by rw [hbytes]; rfl)⟩
  rw [hbytes]
  decide +kernel

end Bitwire
