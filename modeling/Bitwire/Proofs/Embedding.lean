import Bitwire.Proofs.Message
import Bitwire.Proofs.Transfer

/-!
# Messages inside of messages

The unread bits of a stream that are a message stay one when they are transferred to another stream:
they are read there as they would have been read before. Only alignment is in the way. A message that
pads to byte boundaries has its padding where these were, so that it has to begin at a position that
agrees modulo 8; one that does not may begin anywhere.

* `Stream.Bears`: the unread bits of a stream are a message.
* `Bears.pending`: the message is pending wherever it may begin.
* `embedded_message`: a message is read from the stream that it was transferred to.
-/

namespace Bitwire

open Bitwire.Stream

namespace Stream

/-- The unread bits of `s` are those of a message: its writes appended them to a stream, from the
position on where they begin in `s`, and ended at `ends`. -/
def Bears (s : Stream) (message : List Exchange) (ends : List Nat) : Prop :=
  ∃ (t : Stream) (a : Allocator) (b : Backed), t.Reachable ∧ t.writePos = s.readPos ∧
    writeAll (message.map (·.write)) ⟨t, a⟩ = .ok ends b ∧
    s.bits.drop s.readPos = b.stream.bits.drop t.writePos

/-- The message of a stream may begin anywhere, or anywhere that agrees modulo 8 if it aligns. -/
theorem Bears.pending {s : Stream} {message : List Exchange} {ends : List Nat}
    (h : s.Bears message ends) (start : Nat)
    (halign : (∀ x ∈ message, ¬ x.write.Aligns) ∨ s.readPos % 8 = start % 8) :
    ends.length = message.length ∧ (∀ p ∈ ends, s.readPos ≤ p) ∧
      Pending start (message.zip (ends.map fun p => start + (p - s.readPos)))
        (s.bits.drop s.readPos) := by
  obtain ⟨t, a, b, ht, hstart, hwrite, hsame⟩ := h
  rw [← hstart] at halign hsame ⊢
  obtain ⟨hlen, hle, bits, hext, hpending⟩ := pending_writeAll_at ht.valid hwrite start halign
  rw [hsame, hext.drop_writePos ht.valid]
  exact ⟨hlen, hle, hpending⟩

end Stream

/-- A message that is all that is unread of `s`, and for which `d` can have room, is transferred to `d`
and read there from where `d` ended before, up to where it ends now. The reads answer what they answer
on `s`, and each ends as many bits from the beginning. This is so if the message does not align, and
otherwise if it begins at positions that agree modulo 8. -/
theorem embedded_message {s d : Stream} (hs : s.Reachable) (hd : d.Reachable) {message : List Exchange}
    {ends : List Nat} (hmessage : s.Bears message ends) {a : Allocator} (hroom : d.Grants a s.payload)
    (halign : (∀ x ∈ message, ¬ x.write.Aligns) ∨ s.readPos % 8 = d.writePos % 8) :
    (∃ s', (readAll (message.map Exchange.read)).run s =
        .ok ((message.map Exchange.answer).zip ends, s') ∧ s'.readPos = s.writePos) ∧
      ∃ s' b t, transferPayload s ⟨d, a⟩ = .ok (s.payload, s') b ∧
        (do setReadPos d.writePos; readAll (message.map Exchange.read)).run b.stream =
          .ok ((message.map Exchange.answer).zip
            (ends.map fun p => d.writePos + (p - s.readPos)), t) ∧
        t.readPos = b.stream.writePos := by
  have hread := hs.valid.readPos_le
  have hlen : (s.bits.drop s.readPos).length = s.writePos - s.readPos := by
    rw [List.length_drop, hs.valid.length_bits]
  constructor
  · obtain ⟨hends, hle, hpending⟩ := hmessage.pending s.readPos (.inr rfl)
    have hsame : ∀ p ∈ ends, s.readPos + (p - s.readPos) = id p :=
      fun p hp => Nat.add_sub_cancel' (hle p hp)
    rw [List.map_congr_left hsame, List.map_id] at hpending
    refine ⟨_, hpending.readAll_message hends hs.valid (List.prefix_refl _), ?_⟩
    change s.readPos + (s.bits.drop s.readPos).length = s.writePos
    omega
  · obtain ⟨hends, -, hpending⟩ := hmessage.pending d.writePos halign
    obtain ⟨b, htransfer, hext⟩ :=
      exists_transfer_eq_ok hd.valid hs.valid (Nat.le_refl _) hroom
    rw [← hs.valid.take_unread (Nat.le_refl _),
      List.take_of_length_le (by unfold payload; omega)] at hext
    have hend := hext.writePos_eq
    have hbits : b.stream.bits.drop d.writePos = s.bits.drop s.readPos := by
      rw [hext.bits_eq, ← hd.valid.length_bits, List.drop_left]
    have hmove : (setReadPos d.writePos).run b.stream =
        .ok ((), { b.stream with readPos := d.writePos }) := by
      rw [run_setReadPos, if_pos (by omega)]
    have hall := hpending.readAll_message (s := { b.stream with readPos := d.writePos })
      (by rw [List.length_map, hends]) (hext.valid.moveRead (by omega)) (hbits ▸ List.prefix_refl _)
    exact ⟨_, b, _, htransfer, run_bind_eq_ok_iff.2 ⟨(), _, hmove, hall⟩, hend.symm⟩

/-- A flag and a short number from the third bit of a view on, behind three bits of another stream. -/
theorem embedded_message_shifted :
    ∃ (s d s' t : Stream) (b : Backed), s.storage = .borrowed ∧ s.readPos = 2 ∧
      d.bits = [true, false, true] ∧ transferPayload s ⟨d, .system⟩ = .ok (6, s') b ∧
      (do setReadPos 3; readAll [.bit, .mini (.int .u8)]).run b.stream =
        .ok ([(.flag true, 4), (.value (.int .u8) 5#8, 9)], t) ∧
      t.readPos = b.stream.writePos := by
  let made := filled {} [0xA5]
  have hmade : Reachable made := reachable_filled {} (by decide)
  have hcapacity : 3 ≤ made.capacity := Nat.le_trans (by decide) hmade.valid.writePos_le
  have hwriter := hmade.next (next_moveWrite rfl (Nat.zero_le 2) (by omega))
  have hd := hmade.next (next_moveWrite rfl (Nat.zero_le 3) hcapacity)
  have hview : Reachable (view {} [0xB5]) := .made {} (.view _) (a := .system) rfl
  have hs := hview.next (next_moveRead 2 (by decide))
  let message : List Exchange :=
    [⟨_, _, _, .bit true⟩, ⟨_, _, _, .mini (k := .int .u8) ⟨nofun, nofun⟩ 5#8⟩]
  have hmessage : Bears { view {} [0xB5] with readPos := 2 } message [3, 8] := by
    have hrun : (match writeAll (message.map (·.write)) ⟨made.moveWrite 2, .system⟩ with
      | .ok ends b => decide (ends = [3, 8] ∧ (view {} [0xB5]).bits.drop 2 = b.stream.bits.drop 2)
      | .error _ _ => false) = true := by decide +kernel
    generalize hwrite : writeAll (message.map (·.write)) ⟨made.moveWrite 2, .system⟩ = r at hrun
    cases r with
    | ok ends b =>
      obtain ⟨rfl, hbits⟩ := of_decide_eq_true hrun
      exact ⟨_, _, b, hwriter, rfl, hwrite, hbits⟩
    | error f b => exact absurd hrun Bool.false_ne_true
  have hfree : ∀ x ∈ message, ¬ x.write.Aligns := by
    simp [message, WriteOp.Aligns]
  obtain ⟨-, s', b, t, htransfer, hread, hend⟩ :=
    embedded_message hs hd hmessage (a := .system) ⟨rfl, by decide, .inr (by decide)⟩ (.inl hfree)
  exact ⟨_, _, s', t, b, rfl, rfl, by decide +kernel, htransfer, hread, hend⟩

end Bitwire
