import Bitwire.Proofs.Stream.Valid

/-!
# What a read does

A read moves the read position forward, at most to the write position, and leaves everything else of
the stream as it is. It fails where bits are missing, and by its own checks; nothing outside of the
buffer is ever looked at. Readers are put together from the reads of bits, so that what holds of
those and is kept by sequences holds of every reader.

* `Stream.Reads`: an action only reads; `Stream.Passes`: it passes over unread bits.
* `Valid.run_readBit`, `Valid.run_readRun`, `Valid.run_readInto`: the reads of bits on valid streams.
* `Stream.Reading`: a reader put together from the reads of bits, with the faults of its own checks.
* `Reading.reads`, `Reading.fault`: it only reads, and how it can fail.
-/

namespace Bitwire

namespace Stream

/-- Whenever `x` succeeds, it moves the read position forward, at most to the write position, and
changes nothing else. -/
def Reads {α : Type} (x : StreamM α) : Prop :=
  ∀ (s : Stream) (v : α) (s' : Stream), s.readPos ≤ s.writePos → x.run s = .ok (v, s') →
    ∃ position, s.readPos ≤ position ∧ position ≤ s.writePos ∧ s' = { s with readPos := position }

/-- A sequence of two actions succeeds if both do. -/
theorem run_bind_eq_ok_iff {α β : Type} {x : StreamM α} {f : α → StreamM β} {s s'' : Stream}
    {w : β} :
    (x >>= f).run s = .ok (w, s'') ↔ ∃ v s', x.run s = .ok (v, s') ∧ (f v).run s' = .ok (w, s'') := by
  rw [StateT.run_bind]
  cases h : x.run s with
  | ok p =>
    constructor
    · exact fun hf => ⟨p.1, p.2, rfl, hf⟩
    · rintro ⟨v, s', ⟨rfl, rfl⟩, hf⟩
      exact hf
  | error e =>
    constructor
    · intro hf
      contradiction
    · rintro ⟨v, s', hx, -⟩
      contradiction

theorem run_bind_eq_error_iff {α β : Type} {x : StreamM α} {f : α → StreamM β} {s : Stream}
    {e : Fault} :
    (x >>= f).run s = .error e ↔
      x.run s = .error e ∨ ∃ v s', x.run s = .ok (v, s') ∧ (f v).run s' = .error e := by
  rw [StateT.run_bind]
  cases h : x.run s with
  | ok p =>
    constructor
    · exact fun hf => .inr ⟨p.1, p.2, rfl, hf⟩
    · rintro (hx | ⟨v, s', ⟨rfl, rfl⟩, hf⟩)
      · contradiction
      · exact hf
  | error e' =>
    constructor
    · rintro ⟨⟩
      exact .inl rfl
    · rintro (⟨⟨⟩⟩ | ⟨v, s', hx, -⟩)
      · rfl
      · contradiction

/-! ## Reads of bits -/

/-- `s` with its read position moved on by `n`. -/
def passed (s : Stream) (n : Nat) : Stream := { s with readPos := s.readPos + n }

@[simp] theorem payload_passed (s : Stream) (n : Nat) : (s.passed n).payload = s.payload - n :=
  Nat.sub_add_eq ..

theorem passed_passed (s : Stream) (m n : Nat) : (s.passed m).passed n = s.passed (m + n) := by
  unfold passed
  rw [Nat.add_assoc]

theorem run_expect_bind {α : Type} (n : Nat) (x : StreamM α) (s : Stream) :
    (expect n >>= fun _ => x).run s =
      if n = 0 then .error .emptyRead
      else if s.payload < n then .error (.readTooMuch n s.payload) else x.run s := by
  change ((if n = 0 then throw .emptyRead else _ : StreamM Unit) >>= fun _ => x).run s = _
  split
  · rfl
  · split <;> rfl

theorem run_takeRun (n : Nat) (right : Bool) (s : Stream) :
    (takeRun n right).run s =
      (s.buffer.loadRun right s.readPos n).map fun run => (run, s.passed n) := by
  unfold takeRun
  cases h : s.buffer.loadRun right s.readPos n <;> simp [h] <;> rfl

theorem run_readRun (n : Nat) (right : Bool) (s : Stream) :
    (readRun n right).run s =
      if n = 0 then .error .emptyRead
      else if s.payload < n then .error (.readTooMuch n s.payload)
      else (s.buffer.loadRun right s.readPos n).map fun run => (run, s.passed n) := by
  rw [readRun, run_expect_bind, run_takeRun]

theorem run_readInto (dest : List UInt8) (n : Nat) (right : Bool) (s : Stream) :
    (readInto dest n right).run s =
      if n = 0 then .error .emptyRead
      else if s.payload < n then .error (.readTooMuch n s.payload)
      else if 8 * dest.length < n then .error (.shortDestination dest.length n)
      else (s.buffer.loadRun right s.readPos n).map fun run =>
        (run ++ dest.drop run.length, s.passed n) := by
  rw [readInto, run_expect_bind]
  by_cases h : 8 * dest.length < n
  · rw [if_pos h, if_pos h]
    rfl
  · rw [if_neg h, if_neg h, StateT.run_bind, run_takeRun]
    cases s.buffer.loadRun right s.readPos n <;> rfl

theorem run_readBit (s : Stream) :
    readBit.run s =
      if s.readPos < s.writePos then
        (s.buffer.byteAt (s.readPos / 8)).map fun b =>
          (decide (b &&& (0x80 >>> UInt8.ofNat (s.readPos % 8)) ≠ 0), s.passed 1)
      else .error .endOfStream := by
  change StateT.run (if s.readPos < s.writePos then _ else throw Fault.endOfStream : StreamM Bool) s = _
  split
  · cases h : s.buffer.byteAt (s.readPos / 8) <;> simp <;> rfl
  · rfl

theorem run_skip (n : Nat) (s : Stream) :
    (skip n).run s =
      if n ≤ s.payload then .ok ((), s.passed n) else .error (.skipTooMuch n s.payload) := by
  change StateT.run (if n ≤ s.payload then _ else throw _ : StreamM Unit) s = _
  split <;> rfl

/-- Whenever `x` succeeds, it passes over unread bits. -/
def Passes {α : Type} (x : StreamM α) : Prop :=
  ∀ (s : Stream) (v : α) (s' : Stream), x.run s = .ok (v, s') → ∃ n, n ≤ s.payload ∧ s' = s.passed n

theorem Passes.reads {α : Type} {x : StreamM α} (h : Passes x) : Reads x := by
  intro s v s' hle hx
  obtain ⟨n, hn, rfl⟩ := h s v s' hx
  unfold payload at hn
  exact ⟨s.readPos + n, by omega, by omega, rfl⟩

theorem bind_eq_ok {ε α β : Type} {x : Except ε α} {f : α → Except ε β} {b : β}
    (h : x >>= f = .ok b) : ∃ a, x = .ok a ∧ f a = .ok b := by
  cases x with
  | ok a => exact ⟨a, rfl, h⟩
  | error e => contradiction

theorem map_eq_ok {ε α β : Type} {x : Except ε α} {f : α → β} {b : β} (h : x.map f = .ok b) :
    ∃ a, x = .ok a ∧ f a = b := by
  cases x with
  | ok a => exact ⟨a, rfl, Except.ok.inj h⟩
  | error e => contradiction

theorem passes_readRun (n : Nat) (right : Bool) : Passes (readRun n right) := by
  intro s v s' h
  rw [run_readRun] at h
  split at h
  · contradiction
  · split at h
    · contradiction
    · obtain ⟨run, -, hr⟩ := map_eq_ok h
      cases hr
      exact ⟨n, by omega, rfl⟩

theorem passes_readInto (dest : List UInt8) (n : Nat) (right : Bool) :
    Passes (readInto dest n right) := by
  intro s v s' h
  rw [run_readInto] at h
  split at h
  · contradiction
  · split at h
    · contradiction
    · split at h
      · contradiction
      · obtain ⟨run, -, hr⟩ := map_eq_ok h
        cases hr
        exact ⟨n, by omega, rfl⟩

theorem passes_readBit : Passes readBit := by
  intro s v s' h
  rw [run_readBit] at h
  split at h
  · rename_i hlt
    obtain ⟨b, -, hb⟩ := map_eq_ok h
    cases hb
    exact ⟨1, by unfold payload; omega, rfl⟩
  · contradiction

theorem passes_skip (n : Nat) : Passes (skip n) := by
  intro s v s' h
  change StateT.run (if n ≤ s.payload then _ else throw _ : StreamM Unit) s = _ at h
  split at h
  · cases h
    exact ⟨n, ‹_›, rfl⟩
  · contradiction

theorem reads_readAlign : Reads readAlign := by
  intro s v s' hle h
  cases h
  exact ⟨min (s.readPos + padding s.readPos) s.writePos, by omega, by omega, rfl⟩

/-! ## Reads of bits from valid streams -/

namespace Valid

variable {s : Stream} (hs : s.Valid)
include hs

theorem run_readBit :
    readBit.run s =
      if s.readPos < s.writePos then .ok (s.buffer.bit s.readPos, s.passed 1)
      else .error .endOfStream := by
  rw [Stream.run_readBit]
  by_cases h : s.readPos < s.writePos
  · have hk : s.readPos / 8 < s.buffer.size := by
      have := hs.writePos_le
      unfold capacity at this
      omega
    rw [if_pos h, if_pos h, Buffer.byteAt_eq _ hk]
    change Except.ok (decide _, s.passed 1) = _
    rw [Buffer.and_bitMask_eq_bit _ hk]
  · rw [if_neg h, if_neg h]

section Unread

variable {n : Nat} (h : n ≤ s.payload)
include h

/-- The next bits of a stream are bits of its buffer. -/
theorem take_unread : (s.bits.drop s.readPos).take n = s.buffer.bitsFrom s.readPos n := by
  rw [hs.drop_bits, Buffer.take_bitsFrom, Nat.min_eq_left (by exact h)]

/-- To pass over unread bits keeps a stream valid. -/
theorem passed_of_le : (s.passed n).Valid := by
  have hle := hs.readPos_le
  unfold payload at h
  exact hs.moveRead (by omega)

end Unread

/-- Unread bits are within the buffer. -/
theorem unread_room {n : Nat} (h : n ≤ s.payload) : s.readPos + n ≤ 8 * s.buffer.size := by
  have hread := hs.readPos_le
  have hwrite := hs.writePos_le
  unfold payload at h
  unfold capacity at hwrite
  omega

theorem loadRun_unread (right : Bool) {n : Nat} (h : n ≤ s.payload) :
    s.buffer.loadRun right s.readPos n = .ok (packRun right (s.buffer.bitsFrom s.readPos n)) :=
  Buffer.loadRun_eq s.buffer right (hs.unread_room h)

theorem run_readRun (n : Nat) (right : Bool) :
    (readRun n right).run s =
      if n = 0 then .error .emptyRead
      else if s.payload < n then .error (.readTooMuch n s.payload)
      else .ok (packRun right (s.buffer.bitsFrom s.readPos n), s.passed n) := by
  rw [Stream.run_readRun]
  by_cases h : s.payload < n
  · rw [if_pos h, if_pos h]
  · rw [if_neg h, if_neg h, hs.loadRun_unread right (Nat.le_of_not_lt h)]
    rfl

theorem run_readInto (dest : List UInt8) (n : Nat) (right : Bool) :
    (readInto dest n right).run s =
      if n = 0 then .error .emptyRead
      else if s.payload < n then .error (.readTooMuch n s.payload)
      else if 8 * dest.length < n then .error (.shortDestination dest.length n)
      else .ok (packRun right (s.buffer.bitsFrom s.readPos n) ++ dest.drop (bytesFor n),
        s.passed n) := by
  rw [Stream.run_readInto]
  by_cases h : s.payload < n
  · rw [if_pos h, if_pos h]
  · rw [if_neg h, if_neg h, hs.loadRun_unread right (Nat.le_of_not_lt h)]
    simp only [Except.map, length_packRun, Buffer.length_bitsFrom]

end Valid

/-! ## Readers -/

/-- `x` can return `v`. -/
def Returns {α : Type} (x : StreamM α) (v : α) : Prop := ∃ s s' : Stream, x.run s = .ok (v, s')

/-- Readers put together from the reads of bits. Their own checks fail with faults of `refused`; what
comes second in a sequence matters only for the values that what comes first can return. -/
inductive Reading (refused : Fault → Prop) : {α : Type} → StreamM α → Prop
  | pure {α : Type} (v : α) : Reading refused (Pure.pure v : StreamM α)
  | throw {α : Type} {f : Fault} : refused f → Reading refused (MonadExcept.throw f : StreamM α)
  | bit : Reading refused readBit
  | run {n : Nat} {right : Bool} : (n = 0 → refused .emptyRead) → Reading refused (readRun n right)
  | into {dest : List UInt8} {n : Nat} {right : Bool} : (n = 0 → refused .emptyRead) →
      (8 * dest.length < n → refused (.shortDestination dest.length n)) →
      Reading refused (readInto dest n right)
  | skip (n : Nat) : Reading refused (Stream.skip n)
  | align : Reading refused readAlign
  | bind {α β : Type} {x : StreamM α} {f : α → StreamM β} : Reading refused x →
      (∀ v, Returns x v → Reading refused (f v)) → Reading refused (x >>= f)

namespace Reading

variable {refused : Fault → Prop} {α β : Type} {x y : StreamM α}

theorem ite {c : Prop} [Decidable c] (hx : c → Reading refused x) (hy : ¬ c → Reading refused y) :
    Reading refused (if c then x else y) := by
  split
  · exact hx ‹_›
  · exact hy ‹_›

theorem map (f : α → β) (hx : Reading refused x) : Reading refused (do return f (← x)) :=
  hx.bind fun _ _ => .pure _

theorem lift (x : Except Fault α) (h : ∀ f, x = .error f → refused f) :
    Reading refused (MonadLift.monadLift x : StreamM α) := by
  cases x with
  | ok v => exact .pure v
  | error f => exact .throw (h f rfl)

/-- A reader only reads. -/
theorem reads (h : Reading refused x) : Reads x := by
  induction h with
  | pure v =>
    intro s w s' hle h
    cases h
    exact ⟨s.readPos, Nat.le_refl _, hle, rfl⟩
  | throw _ => exact nofun
  | bit => exact passes_readBit.reads
  | run _ => exact (passes_readRun _ _).reads
  | into _ _ => exact (passes_readInto _ _ _).reads
  | skip n => exact (passes_skip n).reads
  | align => exact reads_readAlign
  | bind _ _ ihx ihf =>
    intro s w s'' hle h
    obtain ⟨v, s', h1, h2⟩ := run_bind_eq_ok_iff.1 h
    obtain ⟨p, hp, hpw, rfl⟩ := ihx s v s' hle h1
    obtain ⟨q, hq, hqw, rfl⟩ := ihf v ⟨_, _, h1⟩ _ w s'' hpw h2
    exact ⟨q, Nat.le_trans hp hq, hqw, rfl⟩

end Reading

end Stream

/-- More bits are asked for than are left. -/
inductive Fault.MissingBits : Fault → Prop
  | run {n left : Nat} : left < n → MissingBits (.readTooMuch n left)
  | bit : MissingBits .endOfStream
  | skip {n left : Nat} : left < n → MissingBits (.skipTooMuch n left)

/-- On a valid stream a reader fails where bits are missing, or by its own checks. -/
theorem Stream.Reading.fault {refused : Fault → Prop} {α : Type} {x : StreamM α}
    (h : Reading refused x) {s : Stream} (hs : s.Valid) {f : Fault} (hx : x.run s = .error f) :
    f.MissingBits ∨ refused f := by
  induction h generalizing s with
  | pure v => contradiction
  | throw hf =>
    cases hx
    exact .inr hf
  | bit =>
    rw [hs.run_readBit] at hx
    split at hx
    · contradiction
    · cases hx
      exact .inl .bit
  | run h0 =>
    rw [hs.run_readRun] at hx
    split at hx
    · cases hx
      exact .inr (h0 ‹_›)
    · split at hx
      · cases hx
        exact .inl (.run ‹_›)
      · contradiction
  | into h0 hdest =>
    rw [hs.run_readInto] at hx
    split at hx
    · cases hx
      exact .inr (h0 ‹_›)
    · split at hx
      · cases hx
        exact .inl (.run ‹_›)
      · split at hx
        · cases hx
          exact .inr (hdest ‹_›)
        · contradiction
  | skip n =>
    rw [run_skip] at hx
    split at hx
    · contradiction
    · cases hx
      exact .inl (.skip (Nat.lt_of_not_le ‹_›))
  | align => contradiction
  | bind hreading _ ihx ihf =>
    rcases run_bind_eq_error_iff.1 hx with hx | ⟨v, s', hv, hf⟩
    · exact ihx hs hx
    · -- what was read before leaves a valid stream, on which the induction hypothesis holds
      obtain ⟨position, -, hle, rfl⟩ := hreading.reads s v s' hs.readPos_le hv
      exact ihf v ⟨_, _, hv⟩ (hs.moveRead hle) hf

end Bitwire
