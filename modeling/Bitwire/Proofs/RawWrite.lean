import Bitwire.Proofs.Reachable
import Bitwire.Proofs.Stream.Admit

/-!
# Raw writes

A raw write puts bits and bytes behind the bits that are there, whatever was done to the stream
before: merging into a partly filled byte, growing, and stale bytes behind a write position that was
moved back do not show. The bytes of the stream are then its bits, packed, with zeros in the last
byte.

* `WriteOp.rawBits`: the bits of a raw write.
* `exists_rawWrite_eq_ok`: raw writes that are not refused.
* `rawWrite_refines`: raw writes append their bits.
-/

namespace Bitwire

/-- The bits of a raw write at a position: a run of bits, a bit, whole bytes, or padding. Coded
values are no raw writes. -/
def WriteOp.rawBits (position : Nat) : WriteOp → Option (List Bool)
  | run src n right => some (takenBits right n src)
  | bit b => some [b]
  | align => some (List.replicate (padding position) false)
  | bytes src => some (bitsOf src)
  | alignedBytes src => some (List.replicate (padding position) false ++ bitsOf src)
  | padTo n =>
    some (if n ≤ bytesFor position then [] else List.replicate (8 * n - position) false)
  | _ => none

/-- A run is not empty, and its source is long enough for it. -/
def WriteOp.WellFormed : WriteOp → Prop
  | run src n _ => n ≠ 0 ∧ n ≤ 8 * src.length
  | _ => True

theorem WriteOp.bits_of_rawBits {op : WriteOp} {position : Nat} {bits : List Bool}
    (h : op.rawBits position = some bits) (o : ByteOrder) : op.bits o position = bits := by
  cases op with
  | run | bit | align | bytes | alignedBytes | padTo => exact Option.some.inj h
  | bounded | value | mini | changed | changedUnknown | miniChanged | miniBytes | between | ranged
  | boundedFloat | vector | unitVector | quaternion | matrix => contradiction

namespace Stream

/-- A raw write that leaves out no bit that is looked for is not refused where there can be room for its
bits. -/
theorem exists_rawWrite_eq_ok {s : Stream} {a : Allocator} (hs : s.Valid) {op : WriteOp}
    {bits : List Bool} (hop : op.rawBits s.writePos = some bits) (hform : op.WellFormed)
    (hstray : ∀ src n right, op = .run src n right → s.setup.strict = true →
      strayByte? src n right = none)
    (h : s.Admits a bits.length) : ∃ k b, op.perform ⟨s, a⟩ = .ok k b := by
  cases op with
  | run src n right =>
    obtain rfl := Option.some.inj hop
    rw [length_takenBits right hform.2] at h
    exact ⟨n, exists_writeRun_eq_ok right hform.1 hform.2 (hstray src n right rfl) h.grants⟩
  | bit bit =>
    obtain rfl := Option.some.inj hop
    exact ⟨1, exists_writeBit_eq_ok bit h.grants⟩
  | align =>
    obtain rfl := Option.some.inj hop
    rw [List.length_replicate] at h
    exact exists_writeAlign_eq_ok h.grants
  | bytes src =>
    obtain rfl := Option.some.inj hop
    rw [length_bitsOf] at h
    exact exists_writeBytes_eq_ok src h.grants
  | alignedBytes src =>
    obtain rfl := Option.some.inj hop
    rw [List.length_append, List.length_replicate, length_bitsOf] at h
    exact exists_writeAlignedBytes_eq_ok hs src h
  | padTo n =>
    obtain rfl := Option.some.inj hop
    refine exists_padTo_eq_ok hs n fun hle => ?_
    rw [if_neg (by exact hle), List.length_replicate] at h
    exact h
  | bounded | value | mini | changed | changedUnknown | miniChanged | miniBytes | between | ranged
  | boundedFloat | vector | unitVector | quaternion | matrix => contradiction

/-! ## The effect of a raw write -/

/-- A raw write that is accepted appends its bits, returns their number and leaves the read position
where it is; the bytes are then all bits, packed, with zeros in the last byte. Unless stray bits are
looked for, a raw write is accepted where there can be room for its bits. -/
theorem rawWrite_refines {s : Stream} (hs : s.Reachable) (op : WriteOp) {bits : List Bool}
    (hop : op.rawBits s.writePos = some bits) (a : Allocator) :
    s.bits.length = s.writePos ∧
    (∀ k b, op.perform ⟨s, a⟩ = .ok k b →
      k = bits.length ∧ b.stream.bits = s.bits ++ bits ∧
        b.stream.writePos = s.writePos + bits.length ∧ b.stream.readPos = s.readPos ∧
        b.stream.bytes = packRun false (s.bits ++ bits)) ∧
    (op.WellFormed → s.setup.strict = false → s.Admits a bits.length →
      ∃ k b, op.perform ⟨s, a⟩ = .ok k b) := by
  refine ⟨hs.valid.length_bits, fun k b h => ?_, fun hform hlax hroom =>
    exists_rawWrite_eq_ok hs.valid hop hform
      (fun _ _ _ _ hstrict => absurd (hlax.symm.trans hstrict) Bool.false_ne_true) hroom⟩
  obtain ⟨hk, hext⟩ := op.appends s a k b hs.valid h
  have hbits := op.bits_of_rawBits hop s.setup.order
  dsimp only at hk hext
  rw [hbits] at hk hext
  refine ⟨hk, hext.bits_eq, hext.writePos_eq, hext.readPos_eq, ?_⟩
  rw [hext.valid.bytes_eq, hext.bits_eq]

/-- Four bits behind the first three of a byte that was full. -/
theorem rawWrite_refines_rewound :
    ∃ (s : Stream) (k : Nat) (b : Backed), s.bits = [true, false, true] ∧
      WriteOp.perform (.run [0x05] 4 true) ⟨s, .system⟩ = .ok k b ∧ k = 4 ∧
      b.stream.bits = [true, false, true] ++ [false, true, false, true] ∧
      b.stream.bytes = [0xAA] := by
  let s := filled {} [0xA5]
  have hmade : Reachable s := reachable_filled {} (by decide)
  have hroom : 3 ≤ s.capacity := Nat.le_trans (by decide) hmade.valid.writePos_le
  have hs := hmade.next (next_moveWrite rfl (Nat.zero_le 3) hroom)
  obtain ⟨-, happend, hok⟩ := rawWrite_refines hs (.run [0x05] 4 true) rfl .system
  obtain ⟨k, b, h⟩ := hok ⟨by decide, by decide⟩ rfl
    (Grants.admits ⟨rfl, by decide, .inr (by decide)⟩ rfl)
  obtain ⟨hk, hbits, -, -, hbytes⟩ := happend k b h
  have hold : (s.moveWrite 3).bits = [true, false, true] := by decide +kernel
  have hnew : takenBits true 4 [0x05] = [false, true, false, true] := by decide +kernel
  rw [hold, hnew] at hbits hbytes
  exact ⟨_, k, b, hold, h, hk, hbits, hbytes.trans (by decide +kernel)⟩

end Stream

end Bitwire
