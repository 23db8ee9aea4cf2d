import Bitwire.Proofs.Message

/-!
# Reading what someone else sent

The bytes of a view come from outside, and reads with any arguments may be performed on them. Whatever
the bytes are, each read returns or is stopped by a check: of its arguments, of the number of bits
left, or of a value that was read. No byte outside of the view is looked at, the positions stay in
order, so that the number of bits left is never negative, and nothing but the read position changes.

* `reads_readAll`: any number of reads only read.
* `ReadOp.Refuses.inside`: no check is a look outside of the buffer.
* `view_reads_safe`: reading any bytes in any way.
-/

namespace Bitwire

open Bitwire.Stream

namespace Stream

/-- Any number of reads only read. -/
theorem reads_readAll (ops : List ReadOp) : Reads (readAll ops) := by
  induction ops with
  | nil =>
    intro s answers s' hle h
    cases h
    exact ⟨s.readPos, Nat.le_refl _, hle, rfl⟩
  | cons op ops ih =>
    intro s answers s'' hle h
    obtain ⟨answer, s', hop, hrest⟩ := run_bind_eq_ok_iff.1 h
    obtain ⟨_, _, hget, hrest⟩ := run_bind_eq_ok_iff.1 hrest
    cases hget
    obtain ⟨rest, _, hops, hpure⟩ := run_bind_eq_ok_iff.1 hrest
    cases hpure
    obtain ⟨p, hp, hpw, rfl⟩ := op.reads s answer s' hle hop
    obtain ⟨q, hq, hqw, rfl⟩ := ih _ rest s'' hpw hops
    exact ⟨q, Nat.le_trans hp hq, hqw, rfl⟩

theorem bytes_view (setup : Setup) (src : List UInt8) : (view setup src).bytes = src := by
  have hall : bytesFor (8 * src.length) = src.toArray.size := by
    rw [bytesFor_mul, List.size_toArray]
  change (src.toArray.extract 0 (bytesFor (8 * src.length))).toList = src
  rw [hall, Array.extract_size]

end Stream

/-! ## Checks -/

theorem Fault.MissingBits.inside {f : Fault} (h : f.MissingBits) (index size : Nat) :
    f ≠ .outsideBuffer index size := by
  rintro rfl
  cases h

theorem Kind.Refuses.inside {k : Kind} {f : Fault} (h : k.Refuses f) (index size : Nat) :
    f ≠ .outsideBuffer index size := by
  rintro rfl
  cases k <;> simp [Refuses] at h

theorem Kind.RefusesMini.inside {k : Kind} {f : Fault} (h : k.RefusesMini f) (index size : Nat) :
    f ≠ .outsideBuffer index size := by
  rintro rfl
  cases k <;> simp [RefusesMini, Refuses] at h

theorem ReadOp.Refuses.inside {op : ReadOp} {f : Fault} (h : op.Refuses f) (index size : Nat) :
    f ≠ .outsideBuffer index size := by
  cases op with
  | value k | changed k => exact Kind.Refuses.inside h index size
  | mini k | miniChanged k => exact Kind.RefusesMini.inside h index size
  | run | bit | skip | skipBytes | align | bytes | alignedBytes | bounded | miniBytes | between
  | ranged | boundedFloat | vector | unitVector | quaternion | matrix =>
    rintro rfl
    simp [Refuses] at h

/-! ## Views -/

/-- After any reads of any bytes, the read position is not beyond the bytes. What is then read next
fails only where bits are missing or by a check of its own; if it returns, the read position has not
moved back nor beyond the bytes, nothing else has changed, and a 24-bit number has 24 bits. -/
theorem view_reads_safe (setup : Setup) (src : List UInt8) {ops : List ReadOp}
    {answers : List (Answer × Nat)} {s : Stream}
    (h : (readAll ops).run (view setup src) = .ok (answers, s)) (op : ReadOp) :
    (s.readPos ≤ s.writePos ∧ s = { view setup src with readPos := s.readPos }) ∧
      (∀ f, op.perform.run s = .error f →
        (f.MissingBits ∨ op.Refuses f) ∧ ∀ index size, f ≠ .outsideBuffer index size) ∧
      ∀ answer s', op.perform.run s = .ok (answer, s') →
        s.readPos ≤ s'.readPos ∧ s'.readPos ≤ s.writePos ∧ s' = { s with readPos := s'.readPos } ∧
          s'.bytes = src ∧
          ∀ x : U24, (answer = .value .u24 x ∨ ∃ changed, answer = .update changed .u24 x) →
            x.val.toNat ≤ 0xFFFFFF := by
  have hview := valid_view setup src
  -- the reads before have moved the read position only, so the stream is still valid
  obtain ⟨p, -, hp, rfl⟩ := reads_readAll ops _ answers s hview.readPos_le h
  refine ⟨⟨hp, rfl⟩, fun f hf => ?_, fun answer s' hok => ?_⟩
  · have hfault := op.reading.fault (hview.moveRead hp) hf
    refine ⟨hfault, fun index size => ?_⟩
    rcases hfault with hmissing | hrefused
    · exact hmissing.inside index size
    · exact hrefused.inside index size
  · obtain ⟨q, hq, hqw, rfl⟩ := op.reads _ answer s' hp hok
    exact ⟨hq, hqw, rfl, bytes_view setup src, fun x _ => x.le_max⟩

/-- A version byte that no address has, behind a flag: the flag is read and the address refused. -/
theorem view_reads_safe_unknown_version :
    ∃ s, (readAll [.bit]).run (view {} [0x83, 0x80]) = .ok ([(.flag true, 1)], s) ∧
      (ReadOp.value .socket).perform.run s = .error (.unknownVersion 7) ∧
      ReadOp.Refuses (.value .socket) (.unknownVersion 7) := by
  have hflag : (readAll [.bit]).run (view {} [0x83, 0x80]) =
      .ok ([(.flag true, 1)], { view {} [0x83, 0x80] with readPos := 1 }) := by rfl
  have hsocket : (ReadOp.value .socket).perform.run { view {} [0x83, 0x80] with readPos := 1 } =
      .error (.unknownVersion 7) := by rfl
  obtain ⟨-, hfault, -⟩ := view_reads_safe {} [0x83, 0x80] hflag (.value .socket)
  have hrefused := (hfault _ hsocket).1.resolve_left nofun
  exact ⟨_, hflag, hsocket, hrefused⟩

end Bitwire
