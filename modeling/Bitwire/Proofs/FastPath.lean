import Bitwire.Proofs.Reachable

/-!
# Fast paths

Whole bytes at a byte boundary are copied, and single bits are stored and read on their own. In the
general way a run is merged into the buffer source byte by source byte, and gathered from it byte by
byte. Both ways lead to the same buffer, the same positions and the same requests for memory, and they
are refused together.

* `Buffer.overwrite_eq_mergeRun`, `Buffer.storeRun_one`: copied bytes and single bits in a buffer.
* `Stream.writeMerged`, `Stream.readGathered`: writes and reads in the general way alone.
* `fast_paths_exact`: on every stream the fast paths do what the general way does.
-/

namespace Bitwire

/-! ## Buffers -/

namespace Buffer

/-- At a byte boundary a whole byte is merged by overwriting one. -/
theorem mergeByte_of_aligned (buffer : Buffer) {position : Nat} (h : position % 8 = 0) (len : Nat)
    (b : UInt8) : buffer.mergeByte position len b = buffer.setByte (position / 8) b :=
  if_pos h

/-- Copying whole bytes is merging them one after the other. -/
theorem overwrite_eq_mergeRun (right : Bool) (buffer : Buffer) {position n : Nat}
    (hposition : position % 8 = 0) (hn : n % 8 = 0) (src : List UInt8) :
    buffer.overwrite (position / 8) (src.take (n / 8)) = buffer.mergeRun right position n src := by
  induction src generalizing buffer position n with
  | nil =>
    rw [List.take_nil]
    rfl
  | cons b bs ih =>
    by_cases h0 : n = 0
    · rw [h0, mergeRun_zero]
      rfl
    · have hcount : n / 8 = (n - 8) / 8 + 1 := by omega
      have hnext : position / 8 + 1 = (position + 8) / 8 := by omega
      rw [mergeRun_of_le right buffer position (by omega), mergeByte_of_aligned buffer hposition,
        hcount, List.take_succ_cons, overwrite, hnext]
      exact bind_congr fun after => ih after (by omega) (by omega)

theorem storeRun_eq_mergeRun (right : Bool) (buffer : Buffer) (position n : Nat) (src : List UInt8) :
    buffer.storeRun right position n src = buffer.mergeRun right position n src := by
  unfold storeRun
  split
  · rename_i h
    exact overwrite_eq_mergeRun right buffer h.1 h.2 src
  · rfl

/-- The only bit of a run is moved to the head of its byte. -/
theorem runBits_one {right bit : Bool} {b : UInt8} (h : partBits right 1 b = [bit]) :
    runBits right 1 b = if bit then 0x80 else 0 := by
  apply ext_byteBit
  intro j _
  rw [byteBit_runBits right (by decide) (by decide), h, byteBit_leadingBit]
  cases j with
  | zero => simp
  | succ j => simp

/-- A run of one bit is stored as this bit. -/
theorem storeRun_one {right bit : Bool} {src : List UInt8} (h : takenBits right 1 src = [bit])
    {buffer : Buffer} {position : Nat} (hroom : position < 8 * buffer.size) :
    buffer.storeRun right position 1 src = buffer.storeBit position bit := by
  cases src with
  | nil =>
    simp [takenBits] at h
  | cons b bs =>
    rw [takenBits_of_lt right (by decide)] at h
    rw [storeRun_eq_mergeRun, mergeRun_of_lt right buffer position (by decide) (by decide),
      runBits_one h, storeBit_eq_mergeByte hroom]

end Buffer

/-! ## Runs of one bit -/

/-- The byte of a run of one bit, with the bit at its low end if `right`, and else at its high end. -/
def bitByte (right bit : Bool) : UInt8 := if bit then if right then 0x01 else 0x80 else 0x00

theorem bitByte_inj {right bit bit' : Bool} (h : bitByte right bit = bitByte right bit') :
    bit = bit' := by
  revert right bit bit'
  decide

theorem packRun_one (right bit : Bool) : packRun right [bit] = [bitByte right bit] := by
  revert right bit
  decide

theorem takenBits_bitByte (right bit : Bool) : takenBits right 1 [bitByte right bit] = [bit] := by
  revert right bit
  decide

theorem strayByte?_bitByte (right bit : Bool) : strayByte? [bitByte right bit] 1 right = none := by
  revert right bit
  decide

namespace Stream

/-! ## Writes -/

/-- Appends the `n` first bits of `src` in the general way: each of its bytes is merged into the one or
two buffer bytes that it covers. -/
def writeMerged (src : List UInt8) (n : Nat) (right : Bool) : WriteM Nat :=
  if n = 0 then throw .emptyWrite
  else if 8 * src.length < n then throw (.shortSource src.length n)
  else append n (fun position buffer => buffer.mergeRun right position n src) (strayIn src n right)

theorem writeRun_eq_writeMerged (src : List UInt8) (n : Nat) (right : Bool) :
    writeRun src n right = writeMerged src n right := by
  unfold writeRun writeMerged
  simp only [Buffer.storeRun_eq_mergeRun]
  rfl

/-- Writing one bit is writing a run of one bit, down to the requests for memory. -/
theorem writeBit_eq_writeRun {s : Stream} (a : Allocator) {right bit : Bool}
    {src : List UInt8} (hbit : takenBits right 1 src = [bit])
    (hstray : s.setup.strict = true → strayByte? src 1 right = none) :
    writeBit bit ⟨s, a⟩ = writeRun src 1 right ⟨s, a⟩ := by
  have hlen : ¬ 8 * src.length < 1 := by
    cases src with
    | nil => simp [takenBits] at hbit
    | cons b bs =>
      rw [List.length_cons]
      omega
  rw [writeRun_eq right (by decide) hlen]
  unfold writeBit append
  refine bind_congr_of_ok fun _ b hreserve => ?_
  obtain ⟨hroom, -, hsetup⟩ := hasRoom_of_reserve hreserve
  have hstray : b.stream.setup.strict = true → strayByte? src 1 right = none := by rwa [hsetup]
  rw [storeChecked_eq, storeChecked_eq, strayIn_eq_none hstray, Buffer.storeRun_one hbit hroom.fits]

/-! ## Reads -/

/-- The bytes of the next `n` bits, each gathered from the one or two buffer bytes that it covers. -/
def takeGathered (n : Nat) (right : Bool) : StreamM (List UInt8) := do
  let s ← get
  let run ← s.buffer.gatherRun right s.readPos n
  set { s with readPos := s.readPos + n }
  pure run

/-- Reads `n` bits into the first bytes of `dest` in the general way. -/
def readGathered (dest : List UInt8) (n : Nat) (right : Bool) : StreamM (List UInt8) := do
  expect n
  if 8 * dest.length < n then throw (.shortDestination dest.length n)
  else
    let run ← takeGathered n right
    pure (run ++ dest.drop run.length)

namespace Valid

variable {s : Stream} (hs : s.Valid)
include hs

theorem run_takeGathered {n : Nat} (right : Bool) (h : n ≤ s.payload) :
    (takeGathered n right).run s = (takeRun n right).run s := by
  rw [run_takeRun, hs.loadRun_unread right h]
  unfold takeGathered
  simp [Buffer.gatherRun_eq s.buffer right (hs.unread_room h)]
  rfl

theorem run_readGathered (dest : List UInt8) (n : Nat) (right : Bool) :
    (readGathered dest n right).run s = (readInto dest n right).run s := by
  rw [readGathered, readInto, run_expect_bind, run_expect_bind]
  by_cases hshort : s.payload < n
  · rw [if_pos hshort, if_pos hshort]
  · rw [if_neg hshort, if_neg hshort]
    by_cases hdest : 8 * dest.length < n
    · rw [if_pos hdest, if_pos hdest]
    · rw [if_neg hdest, if_neg hdest, StateT.run_bind, StateT.run_bind,
        hs.run_takeGathered right (Nat.le_of_not_lt hshort)]

/-- A run of one bit is read wherever a bit is left. -/
theorem run_readInto_one (d : UInt8) (ds : List UInt8) (right : Bool) :
    (readInto (d :: ds) 1 right).run s =
      if s.readPos < s.writePos then
        .ok (bitByte right (s.buffer.bit s.readPos) :: ds, s.passed 1)
      else .error (.readTooMuch 1 s.payload) := by
  have hdest : ¬ 8 * (d :: ds).length < 1 := by
    rw [List.length_cons]
    omega
  have hone : s.buffer.bitsFrom s.readPos 1 = [s.buffer.bit s.readPos] := rfl
  rw [hs.run_readInto, if_neg (by decide), if_neg hdest, hone, packRun_one]
  by_cases hlt : s.readPos < s.writePos
  · have hleft : ¬ s.payload < 1 := by
      unfold payload
      omega
    rw [if_pos hlt, if_neg hleft]
    rfl
  · have hnone : s.payload < 1 := by
      unfold payload
      omega
    rw [if_neg hlt, if_pos hnone]

theorem readBit_eq_ok_iff_one (d : UInt8) (ds : List UInt8) (right bit : Bool) (s' : Stream) :
    readBit.run s = .ok (bit, s') ↔
      (readInto (d :: ds) 1 right).run s = .ok (bitByte right bit :: ds, s') := by
  rw [hs.run_readBit, hs.run_readInto_one]
  split
  · constructor
    · intro h
      cases h
      rfl
    · intro h
      obtain ⟨hdest, hs'⟩ := Prod.mk.inj (Except.ok.inj h)
      rw [bitByte_inj (List.cons.inj hdest).1, hs']
  · exact ⟨nofun, nofun⟩

theorem readBit_eq_error_iff_one (d : UInt8) (ds : List UInt8) (right : Bool) :
    (∃ f, readBit.run s = .error f) ↔ ∃ f, (readInto (d :: ds) 1 right).run s = .error f := by
  rw [hs.run_readBit, hs.run_readInto_one]
  split
  · exact ⟨nofun, nofun⟩
  · exact ⟨fun _ => ⟨_, rfl⟩, fun _ => ⟨_, rfl⟩⟩

end Valid

end Stream

open Bitwire.Stream

/-- On every stream, writing a run gives the result of merging its bytes and reading a run that of
gathering them: the stream with its whole buffer, the allocator, the destination and the fault. Writing
a bit gives the result of writing any run of this one bit, unless stray bits of its byte are looked for
and found; a byte that is the bit has none. Reading a bit gives the bit and the stream of reading a run
of one bit, and both fail on the same streams. -/
theorem fast_paths_exact {s : Stream} (hs : s.Reachable) (a : Allocator) :
    (∀ (src : List UInt8) (n : Nat) (right : Bool),
      writeRun src n right ⟨s, a⟩ = writeMerged src n right ⟨s, a⟩) ∧
    (∀ (dest : List UInt8) (n : Nat) (right : Bool),
      (readInto dest n right).run s = (readGathered dest n right).run s) ∧
    (∀ (src : List UInt8) (right bit : Bool), takenBits right 1 src = [bit] →
      (s.setup.strict = true → strayByte? src 1 right = none) →
      writeBit bit ⟨s, a⟩ = writeRun src 1 right ⟨s, a⟩) ∧
    (∀ right bit : Bool, writeBit bit ⟨s, a⟩ = writeRun [bitByte right bit] 1 right ⟨s, a⟩) ∧
    ∀ (d : UInt8) (ds : List UInt8) (right : Bool),
      (∀ (bit : Bool) (s' : Stream), readBit.run s = .ok (bit, s') ↔
        (readInto (d :: ds) 1 right).run s = .ok (bitByte right bit :: ds, s')) ∧
      ((∃ f, readBit.run s = .error f) ↔ ∃ f, (readInto (d :: ds) 1 right).run s = .error f) := by
  have hv := hs.valid
  refine ⟨fun src n right => ?_, fun dest n right => ?_, fun src right bit hbit hstray => ?_,
    fun right bit => ?_, fun d ds right => ⟨fun bit s' => ?_, ?_⟩⟩
  · rw [writeRun_eq_writeMerged]
  · exact (hv.run_readGathered dest n right).symm
  · exact writeBit_eq_writeRun a hbit hstray
  · exact writeBit_eq_writeRun a (takenBits_bitByte right bit) fun _ => strayByte?_bitByte right bit
  · exact hv.readBit_eq_ok_iff_one d ds right bit s'
  · exact hv.readBit_eq_error_iff_one d ds right

/-- The second byte of a view, gathered, and its first bit, read as a run. -/
theorem fast_paths_exact_view :
    ∃ s : Stream, s.bits.drop s.readPos = byteBits 0xBC ∧
      (readGathered [0xFF] 8 true).run s = .ok ([0xBC], s.passed 8) ∧
      (readInto [0xFF, 0xFF] 1 true).run s = .ok ([0x01, 0xFF], s.passed 1) ∧
      writeMerged [0x01] 1 true ⟨s, .system⟩ = .error .readOnly ⟨s, .system⟩ := by
  let s : Stream := { view {} [0xA5, 0xBC] with readPos := 8 }
  have hs : s.Reachable := (Reachable.made {} (.view [0xA5, 0xBC]) (a := .system) rfl).next
    (next_moveRead 8 (by decide))
  obtain ⟨hwrite, hread, -, -, hbit⟩ := fast_paths_exact hs .system
  have hbyte : s.buffer.bitsFrom s.readPos 8 = bitsOf [0xBC] := by decide +kernel
  have hfirst : s.buffer.bit s.readPos = true := by decide +kernel
  have hcopied : (readInto [0xFF] 8 true).run s = .ok ([0xBC], s.passed 8) := by
    rw [hs.valid.run_readInto, if_neg (by decide), if_neg (by decide), if_neg (by decide), hbyte,
      packRun_bitsOf]
    rfl
  have hsingle : readBit.run s = .ok (true, s.passed 1) := by
    rw [hs.valid.run_readBit, if_pos (by decide), hfirst]
  refine ⟨s, by decide +kernel, ?_, ?_, ?_⟩
  · rw [← hread]
    exact hcopied
  · exact ((hbit 0xFF [0xFF] true).1 true _).1 hsingle
  · rw [← hwrite]
    rfl

end Bitwire
