import Mathlib.Algebra.Order.BigOperators.Group.List
import Mathlib.Algebra.Order.Group.Nat
import Bitwire.Proofs.Dump.Roundtrip

/-!
# Short groups

A group of fewer than eight binary digits has a byte of its own when it is read, whose low bits are zero,
while the number of bits counts its digits alone. A dump of bits has at most one such group, its last.
Another text may have short groups in front: then its bits do not lie one behind the other in the bytes,
and a dump of what was read does not show its groups again.

* `bits_of_mapM`: the digits of the groups that were read.
* `bitGroups_map_byteOfBits`: groups that a dump shows again.
* `parseBits_rendered`: which texts come back from what was read of them.
-/

namespace Bitwire

open Bitwire.Stream

/-! ## Digits that were read -/

theorem readBitDigits_eq_ok {pos : Nat} {cs : List Char} {bits : List Bool}
    (h : readBitDigits pos cs = .ok bits) : cs = bits.map bitDigit := by
  induction cs generalizing pos bits with
  | nil =>
    cases h
    rfl
  | cons c cs ih =>
    rw [readBitDigits] at h
    split at h
    · rename_i hc
      have hdigit : bitDigit (decide (c = '1')) = c := by rcases hc with rfl | rfl <;> rfl
      obtain ⟨rest, hrest, h⟩ := bind_eq_ok h
      cases h
      rw [List.map_cons, hdigit, ← ih hrest]
    · contradiction

theorem Group.bits_eq_ok {g : Group} {bits : List Bool} (h : g.bits = .ok bits) :
    g.chars = bits.map bitDigit ∧ bits.length ≤ 8 := by
  unfold Group.bits at h
  split at h
  · contradiction
  · rename_i hlen
    have hchars := readBitDigits_eq_ok h
    rw [hchars, utf8Length_bitDigits] at hlen
    exact ⟨hchars, Nat.le_of_not_lt hlen⟩

/-- Groups that are read consist of the digits of at most eight bits each. -/
theorem bits_of_mapM {gs : List Group} {bs : List (List Bool)} (h : gs.mapM Group.bits = .ok bs) :
    gs.map Group.chars = bs.map (List.map bitDigit) ∧ ∀ b ∈ bs, b.length ≤ 8 := by
  induction gs generalizing bs with
  | nil =>
    cases h
    exact ⟨rfl, nofun⟩
  | cons g gs ih =>
    rw [List.mapM_cons] at h
    obtain ⟨b, hg, h⟩ := bind_eq_ok h
    obtain ⟨bs, hgs, h⟩ := bind_eq_ok h
    cases h
    obtain ⟨hchars, hlen⟩ := Group.bits_eq_ok hg
    obtain ⟨hall, hlens⟩ := ih hgs
    exact ⟨by rw [List.map_cons, List.map_cons, hchars, hall], List.forall_mem_cons.2 ⟨hlen, hlens⟩⟩

theorem Group.chars_ne_nil {text : String} {g : Group} (h : g ∈ groups 0 text.toList) :
    g.chars ≠ [] := by
  obtain ⟨pre, post, hsplit⟩ := List.append_of_mem h
  obtain ⟨-, -, -, h0, -⟩ := exists_run_of_groups hsplit
  exact h0

/-- The bits that a text was read as, group by group. -/
structure Digits (text : String) (bs : List (List Bool)) : Prop where
  chars_eq : (groups 0 text.toList).map Group.chars = bs.map (List.map bitDigit)
  bounds : ∀ b ∈ bs, b ≠ [] ∧ b.length ≤ 8

theorem exists_digits {text : String} {bytes : List UInt8} {bits : Nat}
    (h : parseBits text = .ok (bytes, bits)) :
    ∃ bs, Digits text bs ∧ bytes = bs.map byteOfBits ∧ bits = bs.flatten.length := by
  obtain ⟨bs, hbs, h⟩ := bind_eq_ok h
  cases h
  obtain ⟨hchars, hlen⟩ := bits_of_mapM hbs
  refine ⟨bs, ⟨hchars, fun b hb => ⟨?_, hlen b hb⟩⟩, rfl, rfl⟩
  have hmem : b.map bitDigit ∈ (groups 0 text.toList).map Group.chars := by
    rw [hchars]
    exact List.mem_map_of_mem hb
  obtain ⟨g, hg, hdigits⟩ := List.mem_map.1 hmem
  rintro rfl
  exact Group.chars_ne_nil hg hdigits

namespace Digits

variable {text : String} {bs : List (List Bool)} (h : Digits text bs)
include h

theorem map_length :
    (groups 0 text.toList).map (fun g => g.chars.length) = bs.map List.length := by
  have := congrArg (List.map List.length) h.chars_eq
  simpa [Function.comp_def] using this

theorem length_flatten_le : bs.flatten.length ≤ 8 * bs.length := by
  have hlen : ∀ k ∈ bs.map List.length, k ≤ 8 :=
    List.forall_mem_map.2 fun b hb => (h.bounds b hb).2
  have hsum := List.sum_le_card_nsmul _ 8 hlen
  rw [List.length_flatten]
  simpa [Nat.mul_comm] using hsum

/-- No group but the last is short, said of the groups or of their bits. -/
theorem full_iff :
    (∀ g ∈ (groups 0 text.toList).dropLast, g.chars.length = 8) ↔ ∀ b ∈ bs.dropLast, b.length = 8 := by
  have hlens := congrArg List.dropLast h.map_length
  rw [← List.map_dropLast, ← List.map_dropLast] at hlens
  have hleft := List.forall_mem_map (f := fun g : Group => g.chars.length)
    (l := (groups 0 text.toList).dropLast) (P := (· = 8))
  have hright := List.forall_mem_map (f := List.length) (l := bs.dropLast) (P := (· = 8))
  rw [← hleft, hlens, hright]

end Digits

/-! ## Groups that are shown again -/

/-- In a dump no group but the last is short. -/
theorem length_of_mem_dropLast_bitGroups {bytes : List UInt8} {bits : Nat} {g : List Bool}
    (h : g ∈ (bitGroups bytes bits).dropLast) : g.length = 8 := by
  induction bytes generalizing bits with
  | nil =>
    rw [bitGroups_nil] at h
    contradiction
  | cons b bs ih =>
    by_cases h0 : bits = 0
    · rw [h0, bitGroups_zero] at h
      contradiction
    · rw [bitGroups_cons b bs h0] at h
      by_cases hlast : bitGroups bs (bits - 8) = []
      · rw [hlast] at h
        contradiction
      · rw [List.dropLast_cons_of_ne_nil hlast] at h
        rcases List.mem_cons.1 h with rfl | h
        · -- bits are left for another group
          have hmore : bits - 8 ≠ 0 := by
            intro hzero
            rw [hzero, bitGroups_zero] at hlast
            contradiction
          rw [List.length_take, length_byteBits]
          omega
        · exact ih h

/-- Groups of which only the last may be short are those of the dump of their bytes. -/
theorem bitGroups_map_byteOfBits {bs : List (List Bool)} (hlen : ∀ b ∈ bs, b ≠ [] ∧ b.length ≤ 8)
    (hfull : ∀ b ∈ bs.dropLast, b.length = 8) :
    bitGroups (bs.map byteOfBits) bs.flatten.length = bs := by
  induction bs with
  | nil => rfl
  | cons b bs ih =>
    obtain ⟨⟨hb0, hb8⟩, hrest⟩ := List.forall_mem_cons.1 hlen
    have hpos : 0 < b.length := List.length_pos_iff.2 hb0
    rw [List.map_cons, List.flatten_cons, List.length_append, bitGroups_cons _ _ (by omega),
      byteBits_byteOfBits hb8]
    cases bs with
    | nil =>
      rw [List.flatten_nil, List.length_nil, Nat.add_zero, List.take_left, List.map_nil, bitGroups_nil]
    | cons next bs =>
      obtain ⟨hb, hfull⟩ := List.forall_mem_cons.1 hfull
      rw [hb, Nat.add_sub_cancel_left, ih hrest hfull, Nat.sub_self, List.replicate_zero,
        List.append_nil, List.take_of_length_le (by omega)]

theorem bitDigit_injective : Function.Injective bitDigit := by
  intro b b'
  revert b b'
  decide

/-- Joined groups can be told apart. -/
theorem joinGroups_inj {xs ys : List (List Char)} (hxs : ∀ x ∈ xs, x ≠ [] ∧ ∀ c ∈ x, c ≠ ' ')
    (hys : ∀ y ∈ ys, y ≠ [] ∧ ∀ c ∈ y, c ≠ ' ') (h : joinGroups xs = joinGroups ys) : xs = ys := by
  let chars : Group → Except DumpError (List Char) := fun g => .ok g.chars
  have hread {zs : List (List Char)} (hzs : ∀ z ∈ zs, z ≠ [] ∧ ∀ c ∈ z, c ≠ ' ') :
      (groups 0 (joinGroups zs).toList).mapM chars = .ok zs := by
    have hjoined : (groups 0 (joinGroups (zs.map id)).toList).mapM chars = .ok (zs.map id) :=
      mapM_joinGroups hzs fun _ _ _ => rfl
    rwa [List.map_id] at hjoined
  exact Except.ok.inj ((hread hxs).symm.trans (h ▸ hread hys))

namespace Digits

variable {text : String} {bs : List (List Bool)} (h : Digits text bs)
include h

/-- A dump of what was read shows the groups of the text again where none but the last is short. -/
theorem bitDump_iff :
    bitDump (bs.map byteOfBits) bs.flatten.length =
        joinGroups ((groups 0 text.toList).map Group.chars) ↔
      ∀ b ∈ bs.dropLast, b.length = 8 := by
  rw [bitDump_eq, h.chars_eq]
  constructor
  · intro hdump
    have hsame := joinGroups_inj
      (List.forall_mem_map.2 fun b hb => bitDigits_ne (bitGroups_bounds hb).1)
      (List.forall_mem_map.2 fun b hb => bitDigits_ne (h.bounds b hb).1) hdump
    have hgroups : bitGroups (bs.map byteOfBits) bs.flatten.length = bs :=
      List.map_injective_iff.2 (List.map_injective_iff.2 bitDigit_injective) hsame
    intro b hb
    rw [← hgroups] at hb
    exact length_of_mem_dropLast_bitGroups hb
  · intro hfull
    rw [bitGroups_map_byteOfBits h.bounds hfull]

end Digits

/-! ## Texts that come back -/

/-- The bytes that a dump of bits is read as are those that it was made from where there are no more of
them than hold its bits and only zeros are behind these. -/
theorem parseBits_bitDump_iff {bytes : List UInt8} {bits : Nat} (h : bits ≤ 8 * bytes.length) :
    parseBits (bitDump bytes bits) = .ok (bytes, bits) ↔
      bytes.length = bytesFor bits ∧ ∀ b ∈ (bitsOf bytes).drop bits, b = false := by
  have hlen : ((bitsOf bytes).take bits).length = bits := by
    rw [List.length_take, length_bitsOf, Nat.min_eq_left h]
  have hdrop : ((bitsOf bytes).drop bits).length = 8 * bytes.length - bits := by
    rw [List.length_drop, length_bitsOf]
  rw [parseBits_bitDump, Nat.min_eq_left h, Except.ok.injEq, Prod.mk.injEq, eq_self, and_true]
  constructor
  · intro hbytes
    have hcount := congrArg List.length hbytes
    have hbits := congrArg bitsOf hbytes
    rw [length_packRun, hlen] at hcount
    rw [bitsOf_packRun_false, hlen] at hbits
    refine ⟨hcount.symm, fun b hb => ?_⟩
    rw [← hbits, List.drop_left' hlen] at hb
    exact List.eq_of_mem_replicate hb
  · rintro ⟨hcount, hzeros⟩
    have hpad : (bitsOf bytes).drop bits = List.replicate (padding bits) false := by
      refine List.eq_replicate_iff.2 ⟨?_, hzeros⟩
      rw [hdrop, hcount]
      unfold bytesFor padding
      omega
    rw [← packRun_bitsOf false (packRun false _), bitsOf_packRun_false, hlen, ← hpad,
      List.take_append_drop, packRun_bitsOf]

/-- Of a text that is read as a dump of bits, every group gives one byte and every digit one bit, so that
there are at least as many bytes as hold the bits. A dump of what was read is read as the same bits, in as
few bytes as hold them; the bytes come back unchanged where there were no more of them and only zeros are
behind the bits. That is so wherever no group but the last has less than eight digits, whatever spaces are
around the groups, and just then the dump shows the groups of the text. -/
theorem parseBits_rendered {text : String} {bytes : List UInt8} {bits : Nat}
    (h : parseBits text = .ok (bytes, bits)) :
    let gs := groups 0 text.toList
    (bytes.length = gs.length ∧ bits = (gs.flatMap Group.chars).length ∧
      bytesFor bits ≤ bytes.length) ∧
    (∃ kept, parseBits (bitDump bytes bits) = .ok (kept, bits) ∧ kept.length = bytesFor bits ∧
      bitsOf kept = (bitsOf bytes).take bits ++ List.replicate (padding bits) false) ∧
    (parseBits (bitDump bytes bits) = .ok (bytes, bits) ↔
      bytes.length = bytesFor bits ∧ ∀ b ∈ (bitsOf bytes).drop bits, b = false) ∧
    (bitDump bytes bits = joinGroups (gs.map Group.chars) ↔ ∀ g ∈ gs.dropLast, g.chars.length = 8) ∧
    ((∀ g ∈ gs.dropLast, g.chars.length = 8) →
      bytes.length = bytesFor bits ∧ parseBits (bitDump bytes bits) = .ok (bytes, bits)) := by
  obtain ⟨bs, hbs, rfl, rfl⟩ := exists_digits h
  have hcount : (bs.map byteOfBits).length = (groups 0 text.toList).length := by
    have := congrArg List.length hbs.map_length
    simpa using this.symm
  have hle : bs.flatten.length ≤ 8 * (bs.map byteOfBits).length := by
    rw [List.length_map]
    exact hbs.length_flatten_le
  have hlen : ((bitsOf (bs.map byteOfBits)).take bs.flatten.length).length = bs.flatten.length := by
    rw [List.length_take, length_bitsOf, Nat.min_eq_left hle]
  have hback := parseBits_bitDump_iff hle
  have hfull := hbs.full_iff
  let kept := packRun false ((bitsOf (bs.map byteOfBits)).take bs.flatten.length)
  refine ⟨⟨hcount, ?_, ?_⟩, ⟨kept, ?_, ?_, ?_⟩, hback, hbs.bitDump_iff.trans hfull.symm, fun hgs => ?_⟩
  · rw [List.flatMap_def, hbs.chars_eq, ← List.map_flatten, List.length_map]
  · unfold bytesFor
    omega
  · rw [parseBits_bitDump, Nat.min_eq_left hle]
  · rw [length_packRun, hlen]
  · rw [bitsOf_packRun_false, hlen]
  · have hread : parseBits (bitDump (bs.map byteOfBits) bs.flatten.length) =
        .ok (bs.map byteOfBits, bs.flatten.length) := by
      rw [bitDump_eq, bitGroups_map_byteOfBits hbs.bounds (hfull.1 hgs),
        parseBits_joinGroups hbs.bounds]
    exact ⟨(hback.1 hread).1, hread⟩

/-- Two groups, the second one short, with more spaces than a dump has. -/
theorem parseBits_rendered_spaced :
    parseBits "  10100101   001 " = .ok ([0xA5, 0x20], 11) ∧
      (∀ g ∈ (groups 0 "  10100101   001 ".toList).dropLast, g.chars.length = 8) ∧
      bytesFor 11 = 2 ∧ parseBits (bitDump [0xA5, 0x20] 11) = .ok ([0xA5, 0x20], 11) := by
  have hread : parseBits "  10100101   001 " = .ok ([0xA5, 0x20], 11) := by rfl
  have hfull : ∀ g ∈ (groups 0 "  10100101   001 ".toList).dropLast, g.chars.length = 8 := by
    decide +kernel
  obtain ⟨hcount, hback⟩ := (parseBits_rendered hread).2.2.2.2 hfull
  exact ⟨hread, hfull, hcount.symm, hback⟩

/-- A short group in front of another one: two bits, each in a byte of its own, although one byte holds
both; a dump of them is read as that one byte. -/
theorem parseBits_short_group :
    parseBits "0 0" = .ok ([0, 0], 2) ∧ [(0 : UInt8), 0].length ≠ bytesFor 2 ∧
      bitDump [0, 0] 2 = "00" ∧ parseBits (bitDump [0, 0] 2) = .ok ([0], 2) := by
  decide +kernel

end Bitwire
