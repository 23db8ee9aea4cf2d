import Bitwire.Proofs.Tidy
import Bitwire.Proofs.Write

/-!
# Requests for room

A write requests room, up to some position, and stores bits there; what it writes in turn may take
several such requests. Which positions were requested is not part of the state of a stream, but of the
way in which a write is put together. A write never requests room beyond its own bits.

* `Frugal`: a computation that never fails for want of memory, as readers are.
* `Stream.Asks`: the positions up to which a write requests room, one after the other.
* `Stream.Governs`, `Governs.asks`: what holds of checks, of a buffer that grows and of storing, and is
  kept by sequences, holds of every write.
* `Stream.Takes`: a write requests room for its bits only, and has appended them if it returns.
* `takes_writeBit` … `takes_padTo`, `takes_transfer`, `WriteOp.takes`: so do all writes and transfers.
-/

namespace Bitwire

/-- What an action leaves behind, whether it returns or is stopped. -/
def left {ε σ α : Type} : EStateM.Result ε σ α → σ
  | .ok _ s => s
  | .error _ s => s

/-- The fault that stopped an action, if one did. -/
def fault? {ε σ α : Type} : EStateM.Result ε σ α → Option ε
  | .ok _ _ => none
  | .error e _ => some e

section Answer

variable {ε σ α β : Type} (x : EStateM ε σ α) (g : α → β) (s : σ)

/-- Answering changes nothing. -/
theorem left_answer : left ((x >>= fun v => pure (g v)) s) = left (x s) := by
  cases h : x s with
  | ok v s' =>
    rw [bind_of_ok h]
    rfl
  | error e s' =>
    rw [bind_of_error h]
    rfl

theorem fault?_answer : fault? ((x >>= fun v => pure (g v)) s) = fault? (x s) := by
  cases h : x s with
  | ok v s' =>
    rw [bind_of_ok h]
    rfl
  | error e s' =>
    rw [bind_of_error h]
    rfl

end Answer

/-! ## Checks -/

/-- `x` fails by checks of its own only, not for want of memory. -/
def Frugal {α : Type} (x : Except Fault α) : Prop := ∀ f, x = .error f → ¬ f.Refusal

theorem frugal_ok {α : Type} (v : α) : Frugal (.ok v) := nofun

theorem frugal_error {α : Type} {f : Fault} (hf : ¬ f.Refusal) : Frugal (.error f : Except Fault α) := by
  rintro _ ⟨⟩
  exact hf

theorem Frugal.ite {α : Type} {c : Prop} [Decidable c] {x y : Except Fault α} (hx : Frugal x)
    (hy : Frugal y) : Frugal (if c then x else y) := by
  split
  · exact hx
  · exact hy

theorem Frugal.bind {α β : Type} {x : Except Fault α} {f : α → Except Fault β} (hx : Frugal x)
    (hf : ∀ v, Frugal (f v)) : Frugal (x >>= f) := by
  cases x with
  | ok v => exact hf v
  | error e => exact frugal_error (hx e rfl)

theorem Frugal.map {α β : Type} {x : Except Fault α} (f : α → β) (hx : Frugal x) :
    Frugal (x.map f) := by
  cases x with
  | ok v => exact frugal_ok (f v)
  | error e => exact frugal_error (hx e rfl)

namespace Stream

/-! ## Requests -/

/-- `x`, performed on a stream, requests room up to these positions, one after the other. Apart from
that it looks at the stream, stores bits for which it has requested room, and may be stopped by checks
of its own. -/
inductive Asks : {α : Type} → WriteM α → Backed → List Nat → Prop
  | pure {α : Type} (v : α) (b : Backed) : Asks (Pure.pure v : WriteM α) b []
  | throw {α : Type} {f : Fault} (b : Backed) : ¬ f.Refusal →
      Asks (MonadExcept.throw f : WriteM α) b []
  | reserve (n : Nat) (b : Backed) : Asks (Stream.reserve n) b [b.stream.writePos + n]
  | append {n : Nat} {store : Nat → Buffer → Except Fault Buffer} {refused : Setup → Option Fault}
      (b : Backed) : Fits n store → (∀ setup f, refused setup = some f → ¬ f.Refusal) →
      Asks (Stream.append n store refused) b [b.stream.writePos + n]
  | look {α : Type} {f : Backed → WriteM α} {b : Backed} {requests : List Nat} :
      Asks (f b) b requests → Asks (get >>= f) b requests
  | bind {α β : Type} {x : WriteM α} {f : α → WriteM β} {v : α} {b b' : Backed}
      {first rest : List Nat} : Asks x b first → x b = .ok v b' → Asks (f v) b' rest →
      Asks (x >>= f) b (first ++ rest)
  | stop {α β : Type} {x : WriteM α} {f : α → WriteM β} {e : Fault} {b b' : Backed}
      {requests : List Nat} : Asks x b requests → x b = .error e b' → Asks (x >>= f) b requests

/-- `x` requests room for `n` bits at most and, if it returns, has moved the write position by `n`. -/
def Takes {α : Type} (x : WriteM α) (b : Backed) (n : Nat) : Prop :=
  ∃ requests, Asks x b requests ∧ (∀ r ∈ requests, r ≤ b.stream.writePos + n) ∧
    ∀ v b', x b = .ok v b' →
      b'.stream.writePos = b.stream.writePos + n ∧ b'.stream.setup = b.stream.setup

/-- What holds between the state that a write finds, the fault that stops it, if one does, and the state
that it leaves: it holds of checks, of a buffer that has to grow for one of the requests in `P` or that is
refused, and of storing, and it is kept by sequences. -/
structure Governs (P : Nat → Prop) (R : Backed → Option Fault → Backed → Prop) : Prop where
  done : ∀ b, R b none b
  stopped : ∀ b f, ¬ f.Refusal → R b (some f) b
  grown : ∀ (b : Backed) (m : Nat), P m → b.stream.readOnly = false → b.stream.capacity < m →
    b.allocator.grants (growTarget m) = true → R b none (grown b (growTarget m))
  denied : ∀ (b : Backed) (m : Nat), P m → b.stream.readOnly = false → b.stream.capacity < m →
    R b (some (b.stream.denial (growTarget m))) (denied b)
  stored : ∀ (b : Backed) (n : Nat) (buffer : Buffer), b.stream.readOnly = false →
    buffer.size = b.stream.buffer.size → R b none { b with stream := b.stream.advance buffer n }
  trans : ∀ {b b' b'' : Backed} {f : Option Fault}, R b none b' → R b' f b'' → R b f b''

section Governed

variable {P : Nat → Prop} {R : Backed → Option Fault → Backed → Prop} (hR : Governs P R)
include hR

theorem Governs.reserved {n : Nat} {b : Backed} (hP : P (b.stream.writePos + n)) :
    R b (fault? (reserve n b)) (left (reserve n b)) := by
  have hall := Stream.reserved n b
  generalize reserve n b = r at hall
  cases hall with
  | fits => exact hR.done b
  | stopped hf => exact hR.stopped b _ hf.not_refusal
  | grown hw _ hfull hgranted => exact hR.grown b _ hP hw hfull hgranted
  | denied hw _ hfull => exact hR.denied b _ hP hw hfull

theorem Governs.appended {n : Nat} {store : Nat → Buffer → Except Fault Buffer}
    {refused : Setup → Option Fault} {b : Backed} (hstore : Fits n store)
    (hrefused : ∀ setup f, refused setup = some f → ¬ f.Refusal) (hP : P (b.stream.writePos + n)) :
    R b (fault? (append n store refused b)) (left (append n store refused b)) := by
  have hreserve := hR.reserved hP
  have hall := Stream.appended hstore refused b
  generalize append n store refused b = r at hall
  cases hall with
  | full hroom =>
    rw [hroom] at hreserve
    exact hreserve
  | refused hroom hf =>
    rw [hroom] at hreserve
    exact hR.trans hreserve (hR.stopped _ _ (hrefused _ _ hf))
  | done hroom _ _ hsize =>
    rw [hroom] at hreserve
    exact hR.trans hreserve (hR.stored _ n _ (hasRoom_of_reserve hroom).1.writable hsize)

/-- What governs requests and storing governs every write that is put together from them. -/
theorem Governs.asks {α : Type} {x : WriteM α} {b : Backed} {requests : List Nat}
    (h : Asks x b requests) (hP : ∀ r ∈ requests, P r) : R b (fault? (x b)) (left (x b)) := by
  induction h with
  | pure v b => exact hR.done b
  | throw b hf => exact hR.stopped b _ hf
  | reserve n b => exact hR.reserved (hP _ (List.mem_singleton_self _))
  | append b hstore hrefused => exact hR.appended hstore hrefused (hP _ (List.mem_singleton_self _))
  | look _ ih => exact ih hP
  | bind _ hrun _ ihx ihf =>
    obtain ⟨hfirst, hrest⟩ := List.forall_mem_append.1 hP
    have hx := ihx hfirst
    rw [hrun] at hx
    rw [bind_of_ok hrun]
    exact hR.trans hx (ihf hrest)
  | stop _ hrun ih =>
    have hx := ih hP
    rw [hrun] at hx
    rwa [bind_of_error hrun]

end Governed

theorem takes_pure {α : Type} (v : α) (b : Backed) : Takes (pure v : WriteM α) b 0 := by
  refine ⟨[], .pure v b, nofun, fun w b' h => ?_⟩
  cases h
  exact ⟨rfl, rfl⟩

theorem takes_throw {α : Type} {f : Fault} (hf : ¬ f.Refusal) (b : Backed) (n : Nat) :
    Takes (throw f : WriteM α) b n :=
  ⟨[], .throw b hf, nofun, fun _ _ h => absurd h throw_ne_ok⟩

theorem Takes.of_eq {α : Type} {x : WriteM α} {b : Backed} {m n : Nat} (h : Takes x b m)
    (hmn : m = n) : Takes x b n :=
  hmn ▸ h

theorem takes_look {α : Type} {f : Backed → WriteM α} {b : Backed} {n : Nat} (h : Takes (f b) b n) :
    Takes (get >>= f) b n := by
  obtain ⟨requests, hasks, hle, hok⟩ := h
  exact ⟨requests, .look hasks, hle, hok⟩

/-- Bits are stored where room was requested for them. -/
theorem takes_append {n : Nat} {store : Nat → Buffer → Except Fault Buffer}
    {refused : Setup → Option Fault} (b : Backed) (hstore : Fits n store)
    (hrefused : ∀ setup f, refused setup = some f → ¬ f.Refusal) :
    Takes (append n store refused) b n := by
  refine ⟨_, .append b hstore hrefused, fun r hr => Nat.le_of_eq (List.mem_singleton.1 hr),
    fun v b'' h => ?_⟩
  have hall := appended hstore refused b
  rw [h] at hall
  cases hall with
  | done hreserve =>
    obtain ⟨-, hpos, hsetup⟩ := hasRoom_of_reserve hreserve
    exact ⟨congrArg (· + n) hpos, hsetup⟩

/-- Room is requested for all bits before the first of them is stored. -/
theorem takes_reserved {α : Type} {n : Nat} {x : WriteM α} {b : Backed}
    (hx : ∀ b', reserve n b = .ok () b' → Takes x b' n) : Takes (reserve n >>= fun _ => x) b n := by
  cases hrun : reserve n b with
  | error e b' =>
    refine ⟨_, .stop (.reserve n b) hrun, fun r hr => Nat.le_of_eq (List.mem_singleton.1 hr),
      fun v b'' h => ?_⟩
    rw [bind_of_error hrun] at h
    contradiction
  | ok _ b' =>
    obtain ⟨-, hpos, hsetup⟩ := hasRoom_of_reserve hrun
    obtain ⟨rest, hasks, hle, hok⟩ := hx b' hrun
    rw [hpos] at hle hok
    refine ⟨_, .bind (.reserve n b) hrun hasks, fun r hr => ?_, fun v b'' h => ?_⟩
    · rcases List.mem_append.1 hr with hr | hr
      · exact Nat.le_of_eq (List.mem_singleton.1 hr)
      · exact hle r hr
    · rw [bind_of_ok hrun] at h
      obtain ⟨hpos', hsetup'⟩ := hok v b'' h
      exact ⟨hpos', hsetup'.trans hsetup⟩

/-- What comes second takes up where the first one ended. -/
theorem Takes.bind {α β : Type} {x : WriteM α} {f : α → WriteM β} {b : Backed} {m n : Nat}
    (hx : Takes x b m) (hf : ∀ v b', x b = .ok v b' →
      b'.stream.writePos = b.stream.writePos + m → b'.stream.setup = b.stream.setup →
      Takes (f v) b' n) : Takes (x >>= f) b (m + n) := by
  obtain ⟨first, hasks, hle, hok⟩ := hx
  cases hrun : x b with
  | error e b' =>
    refine ⟨first, .stop hasks hrun, fun r hr => Nat.le_trans (hle r hr) (by omega), fun w b'' h => ?_⟩
    rw [bind_of_error hrun] at h
    contradiction
  | ok v b' =>
    obtain ⟨hpos, hsetup⟩ := hok v b' hrun
    obtain ⟨rest, hasks', hle', hok'⟩ := hf v b' hrun hpos hsetup
    rw [hpos, Nat.add_assoc] at hle' hok'
    refine ⟨first ++ rest, .bind hasks hrun hasks', fun r hr => ?_, fun w b'' h => ?_⟩
    · rcases List.mem_append.1 hr with hr | hr
      · exact Nat.le_trans (hle r hr) (by omega)
      · exact hle' r hr
    · rw [bind_of_ok hrun] at h
      obtain ⟨hpos', hsetup'⟩ := hok' w b'' h
      exact ⟨hpos', hsetup'.trans hsetup⟩

/-- Two writes in a row. -/
theorem Takes.seq {x y : WriteM Nat} {b : Backed} {m n : Nat} (hx : Takes x b m)
    (hy : ∀ b', b'.stream.writePos = b.stream.writePos + m → b'.stream.setup = b.stream.setup →
      Takes y b' n) : Takes (do let i ← x; let j ← y; pure (i + j)) b (m + n) :=
  hx.bind fun _ b' _ hpos hsetup => (hy b' hpos hsetup).bind fun _ b'' _ _ _ => takes_pure _ b''

/-! ## Writes of bits and bytes -/

theorem takes_writeBit (bit : Bool) (b : Backed) : Takes (writeBit bit) b 1 :=
  takes_append b (fits_storeBit bit) nofun

/-- A run of `n` bits takes as many, unless the source is too short. -/
theorem takes_writeRun {src : List UInt8} {n k : Nat} (right : Bool) (b : Backed)
    (hk : n ≤ 8 * src.length → n = k) : Takes (writeRun src n right) b k := by
  by_cases h0 : n = 0
  · unfold writeRun
    rw [if_pos h0]
    exact takes_throw id b _
  by_cases hl : 8 * src.length < n
  · unfold writeRun
    rw [if_neg h0, if_pos hl]
    exact takes_throw id b _
  have hn := Nat.le_of_not_lt hl
  rw [writeRun_eq right h0 hl]
  refine .of_eq (takes_append b (fits_storeRun right hn) fun setup f hf => ?_) (hk hn)
  unfold strayIn at hf
  split at hf
  · obtain ⟨byte, -, rfl⟩ := Option.map_eq_some_iff.1 hf
    exact id
  · contradiction

theorem takes_writeAlign (b : Backed) : Takes writeAlign b (padding b.stream.writePos) := by
  refine takes_look ?_
  dsimp only
  split
  · rename_i h0
    rw [h0]
    exact takes_pure 0 b
  · exact takes_append b (fits_pure _) nofun

theorem takes_writeBytes (src : List UInt8) (b : Backed) :
    Takes (writeBytes src) b (bitsOf src).length := by
  unfold writeBytes
  cases src with
  | nil => exact takes_pure 0 b
  | cons x xs =>
    exact takes_writeRun true b fun _ => (length_bitsOf (x :: xs)).symm

theorem takes_writeAlignedBytes (src : List UInt8) (b : Backed) :
    Takes (writeAlignedBytes src) b (padding b.stream.writePos + (bitsOf src).length) :=
  (takes_writeAlign b).seq fun b' _ _ => takes_writeBytes src b'

theorem takes_writeZeros (bytes : Nat) (b : Backed) :
    Takes (writeZeros bytes) b (8 * (bytes - b.stream.writePos / 8)) :=
  takes_look (takes_append b (fits_zeros _) nofun)

theorem takes_padTo (bytes : Nat) (b : Backed) :
    Takes (padTo bytes) b
      (if bytes ≤ b.stream.writtenBytes then 0 else 8 * bytes - b.stream.writePos) := by
  refine takes_look ?_
  split
  · exact takes_pure 0 b
  · rename_i hlt
    unfold writtenBytes bytesFor at hlt
    have hsum : padding b.stream.writePos +
        (8 * bytes - (b.stream.writePos + padding b.stream.writePos)) =
          8 * bytes - b.stream.writePos := by
      unfold padding
      omega
    refine .of_eq ((takes_writeAlign b).seq fun b' hpos _ => ?_) hsum
    -- the write position is at a byte boundary now, and whole bytes are missing
    refine .of_eq (takes_writeZeros bytes b') ?_
    unfold padding at hpos ⊢
    omega

/-! ## Transfers -/

theorem frugal_byteAt (buffer : Buffer) (i : Nat) : Frugal (buffer.byteAt i) := by
  unfold Buffer.byteAt
  split
  · exact frugal_ok _
  · exact frugal_error id

theorem frugal_bytesAt (buffer : Buffer) (i k : Nat) : Frugal (buffer.bytesAt i k) :=
  (frugal_ok _).ite (frugal_error id)

theorem frugal_readBit (s : Stream) : Frugal (readBit.run s) := by
  rw [run_readBit]
  exact ((frugal_byteAt _ _).map _).ite (frugal_error id)

theorem frugal_takeSlice (n : Nat) (s : Stream) : Frugal ((takeSlice n).run s) := by
  rw [run_takeSlice]
  exact (frugal_bytesAt _ _ _).map _

theorem takes_onSource {α : Type} {x : StreamM α} {source : Stream} (hx : Frugal (x.run source))
    (b : Backed) : Takes (onSource x source) b 0 := by
  unfold onSource
  cases hrun : x.run source with
  | ok r => exact takes_pure r b
  | error f => exact takes_throw (hx f hrun) b 0

theorem takes_transferBits (k : Nat) (source : Stream) (b : Backed) :
    Takes (transferBits k source) b k := by
  induction k generalizing source b with
  | zero => exact takes_pure source b
  | succ k ih =>
    refine .of_eq ((takes_onSource (frugal_readBit source) b).bind fun r b' _ _ _ =>
      (takes_writeBit r.1 b').bind fun _ b'' _ _ _ => ih r.2 b'') (by omega)

/-- A transfer requests room for all its bits at once, and then again for their parts. -/
theorem takes_transfer (source : Stream) (n : Nat) (b : Backed) : Takes (transfer source n) b n := by
  unfold transfer
  by_cases hp : source.payload < n
  · rw [if_pos hp]
    exact takes_throw id b n
  rw [if_neg hp]
  refine takes_reserved fun b' _ => ?_
  have hsum : min n (padding source.readPos) + (n - min n (padding source.readPos)) = n := by omega
  refine .of_eq ((takes_transferBits _ source b').bind fun t b'' _ _ _ => ?_) hsum
  dsimp only
  split
  · rename_i h0
    rw [h0]
    exact takes_pure _ b''
  · refine .of_eq ((takes_onSource (frugal_takeSlice _ t) b'').bind fun r c _ _ _ =>
      (takes_writeRun false c fun _ => rfl).bind fun _ c' _ _ _ => takes_pure _ c') (by omega)

end Stream

open Bitwire.Stream

/-! ## Codes -/

theorem Piece.takes (p : Piece) (b : Backed) : Takes p.write b (p.bits b.stream.writePos).length := by
  cases p with
  | bit bit => exact takes_writeBit bit b
  | run src n right => exact takes_writeRun right b fun h => (length_takenBits right h).symm
  | align => exact .of_eq (takes_writeAlign b) List.length_replicate.symm

theorem Code.takes (code : Code) (b : Backed) :
    Takes code.write b (code.bits b.stream.writePos).length := by
  induction code generalizing b with
  | nil => exact takes_pure 0 b
  | cons p ps ih =>
    rw [bits_cons, List.length_append]
    exact (p.takes b).seq fun b' hpos _ => hpos ▸ ih b'

theorem Code.takes_checked {code : Except Fault Code} (h : Tidy code) (b : Backed) :
    Takes (writeChecked code) b (checkedBits b.stream.writePos code).length := by
  cases code with
  | ok code => exact code.takes b
  | error f => exact takes_throw h.not_refusal b _

theorem takes_writeCode {f : ByteOrder → Except Fault Code} (h : ∀ o, Code.Tidy (f o)) (b : Backed) :
    Takes (writeCode f) b
      (Code.checkedBits b.stream.writePos (f b.stream.setup.order)).length :=
  takes_look (Code.takes_checked (h b.stream.setup.order) b)

/-! ## Operations -/

namespace WriteOp

theorem takes_writeMiniChanged (k : Kind) (v last : k.Val) (b : Backed) :
    Takes (writeMiniChanged k v last) b
      ((miniChanged k v last).bits b.stream.setup.order b.stream.writePos).length := by
  have hmini := takes_writeCode fun o => k.tidy_mini o v
  unfold writeMiniChanged bits
  dsimp only
  by_cases hk : k = .bool
  · rw [if_pos hk, if_pos hk]
    exact hmini b
  · rw [if_neg hk, if_neg hk]
    by_cases hsame : k.same v last
    · rw [if_pos hsame, if_pos hsame]
      exact takes_writeBit false b
    · rw [if_neg hsame, if_neg hsame, List.length_cons, Nat.add_comm]
      exact (takes_writeBit true b).seq fun b' hpos hsetup => hpos ▸ hsetup ▸ hmini b'

theorem Coded.takes {op : WriteOp} {code : Except Fault Code} (h : op.Coded code) (b : Backed) :
    Takes op.perform b (op.bits b.stream.setup.order b.stream.writePos).length := by
  rw [h.perform_eq, h.bits_eq]
  exact Code.takes_checked h.tidy b

/-- A writing operation requests room for the bits that it appends, and for no others. -/
theorem takes (op : WriteOp) (b : Backed) :
    Takes op.perform b (op.bits b.stream.setup.order b.stream.writePos).length := by
  cases op with
  | run src n right => exact takes_writeRun right b fun h => (length_takenBits right h).symm
  | bit bit => exact takes_writeBit bit b
  | align => exact .of_eq (takes_writeAlign b) List.length_replicate.symm
  | bytes src => exact takes_writeBytes src b
  | alignedBytes src =>
    rw [bits, List.length_append, List.length_replicate]
    exact takes_writeAlignedBytes src b
  | padTo n =>
    refine .of_eq (takes_padTo n b) ?_
    rw [bits, writtenBytes]
    split
    · rfl
    · exact List.length_replicate.symm
  | miniChanged k v last => exact takes_writeMiniChanged k v last b
  | bounded | value | mini | changed | changedUnknown | miniBytes | between | ranged | boundedFloat | vector
  | unitVector | quaternion | matrix =>
    exact (coded rfl).takes b

end WriteOp

end Bitwire
