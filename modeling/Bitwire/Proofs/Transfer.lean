import Bitwire.Proofs.Twin.Face

/-!
# Exact transfers

A transfer of bits that are there, to a stream that can have room for them, is not refused. It appends
them wherever they begin in the bytes of their source and wherever they end up in those of the other
stream, which may have moved to a larger buffer before. So a transfer can be cut into two, and into
single bits.

* `exists_transferBits_eq_ok`, `exists_transfer_eq_ok`: transfers that are not refused.
* `fault_of_transfer`: what can stop a transfer.
* `transfer_exact`: what a transfer does, at once, in two turns and bit by bit.
-/

namespace Bitwire.Stream

section Accepted

variable {s source : Stream} {n : Nat} {a : Allocator}

/-- Bits are moved one at a time as long as there are any and there can be room for all of them. -/
theorem exists_transferBits_eq_ok (hs : s.Valid) (hsource : source.Valid)
    (hn : n ≤ source.payload) (h : s.Admits a n) :
    ∃ b, transferBits n source ⟨s, a⟩ = .ok (source.passed n) b ∧
      s.Extends (source.buffer.bitsFrom source.readPos n) b.stream := by
  have hok : ∃ t b, transferBits n source ⟨s, a⟩ = .ok t b := by
    induction n generalizing source s a with
    | zero => exact ⟨source, ⟨s, a⟩, rfl⟩
    | succ n ih =>
      have hlt : source.readPos < source.writePos := by
        unfold payload at hn
        omega
      have hread : onSource readBit source ⟨s, a⟩ =
          .ok (source.buffer.bit source.readPos, source.passed 1) ⟨s, a⟩ :=
        onSource_eq_ok_iff.2 ⟨by rw [hsource.run_readBit, if_pos hlt], rfl⟩
      obtain ⟨⟨s₁, a₁⟩, hwrite⟩ :=
        exists_writeBit_eq_ok (source.buffer.bit source.readPos) (h.mono (m := 1) (by omega)).grants
      have hext := (appends_writeBit _ s a _ _ hs hwrite).2
      have hroom : s₁.Admits a₁ n :=
        .of_extends (by rwa [List.length_singleton, Nat.add_comm]) hext
          ((blind_writeBit _).writing.later hwrite)
      obtain ⟨t, b, hrest⟩ := ih hext.valid (hsource.passed_of_le (n := 1) (by omega))
        (by rw [payload_passed]; omega) hroom
      exact ⟨t, b, bind_eq_ok_iff.2 ⟨_, _, hread, bind_eq_ok_iff.2 ⟨1, _, hwrite, hrest⟩⟩⟩
  obtain ⟨t, b, h⟩ := hok
  obtain ⟨rfl, hext⟩ := transferBits_eq_ok h
  exact ⟨b, h, hext hs⟩

/-- Whole bytes of a source are taken and appended, the last one as far as it is asked for. -/
theorem exists_slice_eq_ok (hsource : source.Valid) (h0 : n ≠ 0)
    (hboundary : source.readPos % 8 = 0) (hn : n ≤ source.payload) (h : s.Grants a n) :
    ∃ src b, (takeSlice n).run source = .ok (src, source.passed n) ∧
      writeRun src n false ⟨s, a⟩ = .ok n b := by
  have hinside : source.readPos / 8 + bytesFor n ≤ source.buffer.size := by
    have hread := hsource.readPos_le
    have hwrite := hsource.writePos_le
    unfold payload at hn
    unfold capacity at hwrite
    unfold bytesFor
    omega
  have hslice := Buffer.bytesAt_eq source.buffer false hinside
  obtain ⟨hlen, -⟩ := Buffer.bytesAt_eq_ok _ hslice
  obtain ⟨b, hwrite⟩ := exists_writeRun_eq_ok false h0
    (by rw [hlen]; exact Buffer.le_bytesFor n) (fun _ => by simp [strayByte?]) h
  exact ⟨_, b, by rw [run_takeSlice, hslice]; rfl, hwrite⟩

/-- Bits that are there, and for which there can be room, are transferred. -/
theorem exists_transfer_eq_ok (hs : s.Valid) (hsource : source.Valid)
    (hn : n ≤ source.payload) (h : s.Grants a n) :
    ∃ b, transfer source n ⟨s, a⟩ = .ok (n, source.passed n) b ∧
      s.Extends (source.buffer.bitsFrom source.readPos n) b.stream := by
  have hok : ∃ r b, transfer source n ⟨s, a⟩ = .ok r b := by
    obtain ⟨⟨s₁, a₁⟩, hreserve⟩ := grants_iff.1 h
    obtain ⟨hext₁, hroom₁⟩ := hs.extends_of_reserve hreserve
    unfold transfer
    rw [if_neg (Nat.not_lt.2 hn)]
    -- the bits up to the byte boundary of the source, and the bytes behind it
    obtain ⟨rest, hsum⟩ : ∃ rest, min n (padding source.readPos) + rest = n :=
      ⟨n - min n (padding source.readPos), by omega⟩
    generalize hsingle : min n (padding source.readPos) = single at hsum
    obtain ⟨⟨s₂, a₂⟩, hbits, hext₂⟩ := exists_transferBits_eq_ok hext₁.valid hsource
      (show single ≤ source.payload by omega) ((hroom₁.admits a₁).mono (by omega))
    have hroom₂ : s₂.HasRoom rest := .of_extends (by rwa [Buffer.length_bitsFrom, hsum]) hext₂
    by_cases h0 : rest = 0
    · refine ⟨(n, source.passed single), ⟨s₂, a₂⟩, bind_eq_ok_iff.2 ⟨(), _, hreserve, ?_⟩⟩
      exact bind_eq_ok_iff.2 ⟨_, _, hbits, by rw [if_pos (by omega)]; rfl⟩
    · obtain ⟨src, b, htake, hwrite⟩ := exists_slice_eq_ok
        (hsource.passed_of_le (n := single) (by omega)) h0
        (by unfold padding at hsingle; unfold Stream.passed; dsimp only; omega)
        (by rw [payload_passed]; omega) (hroom₂.grants a₂)
      refine ⟨(n, (source.passed single).passed rest), b, bind_eq_ok_iff.2 ⟨(), _, hreserve, ?_⟩⟩
      rw [show n - single = rest by omega]
      refine bind_eq_ok_iff.2 ⟨_, _, hbits, ?_⟩
      rw [if_neg h0]
      exact (bind_eq_ok_iff (x := onSource (takeSlice rest) _)).2
        ⟨_, _, onSource_eq_ok_iff.2 ⟨htake, rfl⟩, bind_eq_ok_iff.2 ⟨_, b, hwrite, rfl⟩⟩
  obtain ⟨⟨k, t⟩, b, h⟩ := hok
  obtain ⟨rfl, -, rfl, hext⟩ := transfer_eq_ok h
  exact ⟨b, h, hext hs⟩

/-- Between valid streams a transfer fails only if there are too few bits, or for want of room: no byte
outside of either buffer is looked at or stored. -/
theorem fault_of_transfer (hs : s.Valid) (hsource : source.Valid) {f : Fault} {b : Backed}
    (h : transfer source n ⟨s, a⟩ = .error f b) :
    f = .transferTooMuch n source.payload ∨ f.Crowded ∨ f.Refusal := by
  by_cases hn : n ≤ source.payload
  · cases hreserve : reserve n ⟨s, a⟩ with
    | ok _ b' =>
      obtain ⟨b'', hok, -⟩ := exists_transfer_eq_ok hs hsource hn (grants_iff.2 ⟨b', hreserve⟩)
      rw [hok] at h
      contradiction
    | error e b' =>
      unfold transfer at h
      rw [if_neg (Nat.not_lt.2 hn), bind_of_error hreserve] at h
      cases h
      exact .inr (crowded_or_refusal hreserve)
  · unfold transfer at h
    rw [if_pos (Nat.lt_of_not_le hn)] at h
    cases h
    exact .inl rfl

end Accepted

/-- A transfer of `n` unread bits, for which there can be room, returns `n` and appends exactly these
bits; of its source only the read position changes, by `n`. A transfer of all unread bits leaves none.
Moving the bits one at a time, or in two transfers, comes to the same. These may ask for more than one
buffer, and are not refused either where none of those is. -/
theorem transfer_exact {s source : Stream} (hs : s.Reachable) (hsource : source.Reachable) {n : Nat}
    (hn : n ≤ source.payload) {a : Allocator} (hroom : s.Grants a n) :
    ∃ b source', transfer source n ⟨s, a⟩ = .ok (n, source') b ∧
      source' = { source with readPos := source.readPos + n } ∧
      b.stream.bits = s.bits ++ (source.bits.drop source.readPos).take n ∧
      b.stream.bytes = packRun false (s.bits ++ (source.bits.drop source.readPos).take n) ∧
      b.stream.writePos = s.writePos + n ∧ b.stream.readPos = s.readPos ∧
      (∀ t b', transferBits n source ⟨s, a⟩ = .ok t b' → t = source' ∧ b.stream.Twins b'.stream) ∧
      (∀ i j r b₁ t b₂, i + j = n → transfer source i ⟨s, a⟩ = .ok r b₁ →
        transfer r.2 j b₁ = .ok t b₂ → r.1 = i ∧ t = (j, source') ∧ b.stream.Twins b₂.stream) ∧
      (s.Admits a n → (∃ t b', transferBits n source ⟨s, a⟩ = .ok t b') ∧
        ∀ i j, i + j = n → ∃ r b₁ t b₂, transfer source i ⟨s, a⟩ = .ok r b₁ ∧
          transfer r.2 j b₁ = .ok t b₂) ∧
      (n = source.payload →
        transferPayload source ⟨s, a⟩ = .ok (n, source') b ∧ source'.payload = 0) := by
  obtain ⟨b, h, hext⟩ := exists_transfer_eq_ok hs.valid hsource.valid hn hroom
  have hsame := Twins.refl hs.valid
  refine ⟨b, source.passed n, h, rfl, ?_, ?_, ?_, hext.readPos_eq, fun t b' hbits => ?_,
    fun i j r b₁ t b₂ hij h₁ h₂ => ?_, fun hroom => ⟨?_, fun i j hij => ?_⟩, ?_⟩
  · rw [hext.bits_eq, hsource.valid.take_unread hn]
  · rw [hext.valid.bytes_eq, hext.bits_eq, hsource.valid.take_unread hn]
  · rw [hext.writePos_eq, Buffer.length_bitsFrom]
  · obtain ⟨rfl, hext'⟩ := transferBits_eq_ok hbits
    exact ⟨rfl, hsame.extends hext (hext' hs.valid)⟩
  · subst hij
    obtain ⟨i', s₁⟩ := r
    obtain ⟨j', s₂⟩ := t
    obtain ⟨rfl, -, rfl, hext₁⟩ := transfer_eq_ok h₁
    obtain ⟨rfl, -, rfl, hext₂⟩ := transfer_eq_ok h₂
    refine ⟨rfl, by rw [passed_passed], hsame.extends hext ?_⟩
    rw [Buffer.bitsFrom_add]
    have hfirst := hext₁ hs.valid
    exact hfirst.trans (hext₂ hfirst.valid)
  · obtain ⟨b', h', -⟩ := exists_transferBits_eq_ok hs.valid hsource.valid hn hroom
    exact ⟨_, b', h'⟩
  · obtain ⟨⟨s₁, a₁⟩, h₁, hext₁⟩ := exists_transfer_eq_ok hs.valid hsource.valid
      (show i ≤ source.payload by omega) (hroom.mono (m := i) (by omega)).grants
    have hroom₁ : s₁.Admits a₁ j :=
      .of_extends (by rwa [Buffer.length_bitsFrom, hij]) hext₁
        ((blind_transfer source i).writing.later h₁)
    obtain ⟨b₂, h₂, -⟩ := exists_transfer_eq_ok hext₁.valid
      (hsource.valid.passed_of_le (n := i) (by omega)) (by rw [payload_passed]; omega) hroom₁.grants
    exact ⟨_, _, _, b₂, h₁, h₂⟩
  · rintro rfl
    exact ⟨h, by rw [payload_passed, Nat.sub_self]⟩

/-- Behind three bits of a byte that was full, fifteen bits of a view from its fourth bit on. -/
theorem transfer_exact_unaligned :
    ∃ (s source : Stream) (b : Backed), s.bits = [true, false, true] ∧ source.storage = .borrowed ∧
      source.readPos = 3 ∧
      transfer source 15 ⟨s, .system⟩ = .ok (15, { source with readPos := 18 }) b ∧
      b.stream.bits = [true, false, true] ++
        [false, false, true, false, true, false, false, true, true, true, true, false, false,
          true, true] ∧
      b.stream.bytes = [0xA5, 0x3C, 0xC0] ∧ b.stream.readPos = 0 := by
  let s := filled {} [0xA5]
  have hmade : Reachable s := reachable_filled {} (by decide)
  have hcapacity : 3 ≤ s.capacity := Nat.le_trans (by decide) hmade.valid.writePos_le
  have hs := hmade.next (next_moveWrite rfl (Nat.zero_le 3) hcapacity)
  have hview : Reachable (view {} [0xA5, 0x3C, 0xF0]) := .made {} (.view _) (a := .system) rfl
  have hsource := hview.next (next_moveRead 3 (by decide))
  obtain ⟨b, source', h, rfl, hbits, hbytes, -, hread, -⟩ := transfer_exact hs hsource (n := 15)
    (by decide) (a := .system) ⟨rfl, by decide, .inr (by decide)⟩
  have hold : (s.moveWrite 3).bits = [true, false, true] := by decide +kernel
  have hnew : ((view {} [0xA5, 0x3C, 0xF0]).bits.drop 3).take 15 =
      [false, false, true, false, true, false, false, true, true, true, true, false, false, true,
        true] := by decide +kernel
  change _ = _ ++ ((view {} [0xA5, 0x3C, 0xF0]).bits.drop 3).take 15 at hbits
  change _ = packRun false (_ ++ ((view {} [0xA5, 0x3C, 0xF0]).bits.drop 3).take 15) at hbytes
  rw [hold, hnew] at hbits hbytes
  exact ⟨_, _, b, hold, rfl, rfl, h, hbits, hbytes.trans (by decide +kernel), hread⟩

end Bitwire.Stream
