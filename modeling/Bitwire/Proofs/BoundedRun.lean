import Bitwire.Proofs.Message
import Bitwire.Proofs.Ranged
import Bitwire.Proofs.Tidy

/-!
# Runs of bytes with their length

How many bits of padding stand between the length and the bytes depends on where the run begins and on
how long the code of its length is. The writer and the reader each find out for themselves, and only if
there are bytes at all; both come to the same end.

* `Wire.byteRun`: the format of a run at a bit position.
* `exists_runCode`: it is what the code of the run puts on the wire.
* `writeBounded_exact`: what is written, when it is refused, and where the reader ends.
-/

namespace Bitwire

open Bitwire.Stream Bitwire.Wire

namespace Wire

/-- The mini format of the length of a run, as a number of 32 bits. -/
def runLength (run : List UInt8) : List Bool := miniPattern false (BitVec.ofNat 32 run.length)

/-- The format of a run of bytes that begins at a bit position: its length and, if there are any, its
bytes behind the next byte boundary. -/
def byteRun (position : Nat) (run : List UInt8) : List Bool :=
  if run = [] then runLength run
  else runLength run ++
    (List.replicate (padding (position + (runLength run).length)) false ++ bitsOf run)

theorem length_runLength_le (run : List UInt8) : (runLength run).length ≤ 65 := by
  let w : Word .u32 := BitVec.ofNat 32 run.length
  have hlen : (runLength run).length = w.miniLength := length_miniPattern w
  rw [hlen]
  exact w.miniLength_le

theorem length_byteRun_le (position : Nat) (run : List UInt8) :
    (byteRun position run).length ≤ 72 + 8 * run.length := by
  have hle := length_runLength_le run
  unfold byteRun
  split
  · omega
  · rw [List.length_append, List.length_append, List.length_replicate, length_bitsOf]
    unfold padding
    omega

/-- The padding is the same at positions that agree modulo 8. -/
theorem byteRun_congr {p q : Nat} {run : List UInt8} (h : run ≠ [] → p % 8 = q % 8) :
    byteRun p run = byteRun q run := by
  unfold byteRun
  split
  · rfl
  · rename_i h0
    have hmod := h h0
    rw [padding_congr (show (p + (runLength run).length) % 8 = (q + (runLength run).length) % 8 by
      omega)]

/-- Nothing follows the length of an empty run. -/
example (position : Nat) :
    byteRun position [] = [true, true, true, true, false, false, false, false] := rfl

theorem head_byteRun (position : Nat) (run : List UInt8) :
    runLength run <+: byteRun position run := by
  unfold byteRun
  split
  · exact List.prefix_refl _
  · exact List.prefix_append _ _

end Wire

section Runs

variable {run : List UInt8} (h : run.length < 2 ^ 32)
include h

theorem bits_miniNumber_length (position : Nat) :
    (miniNumber .network 4 false run.length).bits position = runLength run := by
  have hbits := bits_miniNumber .network (k := 4) (by decide) false (BitVec.ofNat 32 run.length) position
  rw [BitVec.toNat_ofNat, Nat.mod_eq_of_lt h] at hbits
  exact hbits

/-- The code of a run puts its format on the wire. -/
theorem exists_runCode : ∃ code, runCode .network run = .ok code ∧ code.WellFormed ∧
    ∀ position, code.bits position = byteRun position run := by
  have htidy := tidy_runCode .network run
  have hcode : runCode .network run = .ok (miniNumber .network 4 false run.length ++
      if run.isEmpty then [] else .align :: Code.ofBytes run) := if_pos (by omega)
  rw [hcode] at htidy
  refine ⟨_, hcode, htidy, fun position => ?_⟩
  rw [Code.bits_append, bits_miniNumber_length h]
  unfold byteRun
  by_cases h0 : run = []
  · rw [if_pos h0, if_pos (List.isEmpty_iff.2 h0), Code.bits_nil, List.append_nil]
  · rw [if_neg h0, if_neg (fun hempty => h0 (List.isEmpty_iff.1 hempty)), Code.bits_cons,
      Code.bits_ofBytes]
    rfl

/-- A run whose length exceeds the bound of the reader is refused behind its length. -/
theorem run_readBounded_of_lt {t : Stream} (ht : t.Valid) {limit : Nat} (hlimit : limit < run.length)
    (hhead : runLength run <+: t.bits.drop t.readPos) :
    (readBounded limit).run t = .error (.lengthOverBound run.length limit) := by
  have hdecodes := decodes_readMiniNumber .network false (k := 4) (by decide) h t.readPos
  rw [bits_miniNumber_length h] at hdecodes
  have hlength := hdecodes t ht rfl hhead
  refine run_bind_eq_error_iff.2 (.inr ⟨_, _, hlength, ?_⟩)
  rw [if_pos hlimit]
  rfl

/-- A run within the bound of the reader is read, up to where it ends. -/
theorem run_readBounded_of_le {t : Stream} (ht : t.Valid) {limit : Nat} (hlimit : run.length ≤ limit)
    (hhead : byteRun t.readPos run <+: t.bits.drop t.readPos) :
    (readBounded limit).run t = .ok (run, t.passed (byteRun t.readPos run).length) := by
  obtain ⟨code, hcode, -, hbits⟩ := exists_runCode h
  have hdecodes := decodes_readBounded .network hcode hlimit t.readPos
  rw [hbits] at hdecodes
  exact hdecodes t ht rfl hhead

end Runs

/-- A run of bytes, cut to the bound of the writer, is appended in its format at the write position,
unless the allocator refuses memory. From wherever the format is next, at a read position that agrees
with the position of the format modulo 8 if there are any bytes, the reader gets the length. It refuses
the run if the length exceeds its own bound. Otherwise it returns the bytes and ends where the format
ends, so that whatever comes next on the wire is read next. -/
theorem writeBounded_exact (src : List UInt8) (bound limit : Nat)
    (h : min src.length bound < 2 ^ 32) :
    (∀ (s : Stream) (a : Allocator), s.Reachable → s.readOnly = false →
      (∃ b, writeBounded src bound ⟨s, a⟩ = .ok (byteRun s.writePos (src.take bound)).length b ∧
        b.stream.bits = s.bits ++ byteRun s.writePos (src.take bound) ∧
        b.stream.writePos = s.writePos + (byteRun s.writePos (src.take bound)).length) ∨
      ∃ f b, writeBounded src bound ⟨s, a⟩ = .error f b ∧ f.Refusal) ∧
    (∀ (s : Stream) (a : Allocator), s.Reachable →
      s.Admits a (byteRun s.writePos (src.take bound)).length →
      ∃ b, writeBounded src bound ⟨s, a⟩ = .ok (byteRun s.writePos (src.take bound)).length b) ∧
    ∀ (t : Stream) (position : Nat) (next : List Bool), t.Reachable →
      (src.take bound ≠ [] → t.readPos % 8 = position % 8) →
      byteRun position (src.take bound) ++ next <+: t.bits.drop t.readPos →
      (limit < min src.length bound →
        (readBounded limit).run t = .error (.lengthOverBound (min src.length bound) limit)) ∧
      (min src.length bound ≤ limit →
        ∃ t', (readBounded limit).run t = .ok (src.take bound, t') ∧
          t' = t.passed (byteRun position (src.take bound)).length ∧
          next <+: t'.bits.drop t'.readPos) := by
  have hlen : (src.take bound).length = min src.length bound := by
    rw [List.length_take, Nat.min_comm]
  rw [← hlen] at h ⊢
  obtain ⟨code, hcode, hform, hbits⟩ := exists_runCode h
  have hwrite : writeBounded src bound = code.write := by
    rw [writeBounded, writeCode_eq (runCode_order · · (src.take bound)), hcode]
    rfl
  rw [hwrite]
  refine ⟨fun s a hs hw => ?_, fun s a hs hroom => ?_, fun t position next ht hmod hhead => ?_⟩
  · have hshort := length_byteRun_le s.writePos (src.take bound)
    have hwritten := code.written hform hs hw a (by rw [hbits]; omega)
    rw [hbits] at hwritten
    rcases hwritten with ⟨b, hok, hext⟩ | hrefused
    · exact .inl ⟨b, hok, hext.bits_eq, hext.writePos_eq⟩
    · exact .inr hrefused
  · rw [← hbits] at hroom ⊢
    obtain ⟨k, b, hok⟩ := code.exists_write_eq_ok hform hs.valid hroom
    have hk := (code.appends_write s a k b hs.valid hok).1
    exact ⟨b, by rw [← hk]; exact hok⟩
  · rw [← byteRun_congr hmod] at hhead ⊢
    obtain ⟨hrun, hnext⟩ := prefix_passed hhead
    refine ⟨fun hlimit => ?_, fun hlimit => ?_⟩
    · have hlength := (head_byteRun t.readPos (src.take bound)).trans hrun
      exact run_readBounded_of_lt h ht.valid hlimit hlength
    · exact ⟨_, run_readBounded_of_le h ht.valid hlimit hrun, rfl, hnext⟩

/-- Two of three bytes, written to an empty stream and read from a view with one byte more. -/
theorem writeBounded_exact_two :
    ∃ b t', writeBounded [1, 2, 3] 2 ⟨empty {}, .system⟩ = .ok 24 b ∧
      (readBounded 2).run (view {} [0xF2, 1, 2, 0x80]) = .ok ([1, 2], t') ∧ t'.readPos = 24 ∧
      (readBounded 1).run (view {} [0xF2, 1, 2, 0x80]) = .error (.lengthOverBound 2 1) := by
  have hempty : (empty {}).Reachable := .made {} .empty (a := .system) rfl
  have hview : (view {} [0xF2, 1, 2, 0x80]).Reachable :=
    .made {} (.view [0xF2, 1, 2, 0x80]) (a := .system) rfl
  have hformat : byteRun 0 [1, 2] = bitsOf [0xF2, 1, 2] := by decide +kernel
  have hhead : byteRun 0 [1, 2] ++ bitsOf [0x80] <+: (view {} [0xF2, 1, 2, 0x80]).bits.drop 0 := by
    rw [hformat, bits_view]
    exact List.prefix_refl _
  obtain ⟨-, hwritten, hread⟩ := writeBounded_exact [1, 2, 3] 2 2 (by decide)
  obtain ⟨-, -, hrefused⟩ := writeBounded_exact [1, 2, 3] 2 1 (by decide)
  have hlen : (byteRun 0 [1, 2]).length = 24 := by rw [hformat]; rfl
  obtain ⟨b, hb⟩ := hwritten _ .system hempty (admits_empty {} rfl (by
    change growTarget (byteRun 0 [1, 2]).length < _
    rw [hlen]
    decide))
  obtain ⟨t', ht', hpassed, -⟩ := (hread _ 0 _ hview (fun _ => rfl) hhead).2 (by decide)
  refine ⟨b, t', ?_, ht', ?_, (hrefused _ 0 _ hview (fun _ => rfl) hhead).1 (by decide)⟩
  · rw [← hlen]
    exact hb
  · rw [hpassed]
    exact hlen

end Bitwire
