import Bitwire.Proofs.Reachable
import Bitwire.Proofs.Requests

/-!
# What operations request

Of all operations on a stream only writes, and requests themselves, make room. Readers, questions and moves
of the positions fail by checks of their own, on any stream, and leave the buffer where it is. So what
governs writes governs all operations, if it does not mind where the positions are.

* `Op.Asks`: the positions up to which an operation requests room.
* `frugal_read`, `frugal_position`: readers and moves of the positions never fail for want of memory.
* `Governs.op`: what governs writes governs operations.
-/

namespace Bitwire

open Bitwire.Stream

/-! ## Requests -/

/-- The positions up to which an operation requests room on a stream, one after the other. -/
inductive Op.Asks (b : Backed) : Op → List Nat → Prop
  | query (x : Query) : Asks b (.query x) []
  | position (x : PositionOp) : Asks b (.position x) []
  | read (x : ReadOp) : Asks b (.read x) []
  | reserve (n : Nat) : Asks b (.reserve n) [b.stream.writePos + n]
  | write {x : WriteOp} {requests : List Nat} : Stream.Asks x.perform b requests →
      Asks b (.write x) requests

theorem Op.exists_asks (op : Op) (b : Backed) : ∃ requests, op.Asks b requests := by
  cases op with
  | query x => exact ⟨_, .query x⟩
  | position x => exact ⟨_, .position x⟩
  | read x => exact ⟨_, .read x⟩
  | reserve n => exact ⟨_, .reserve n⟩
  | write x =>
    obtain ⟨requests, hasks, -⟩ := x.takes b
    exact ⟨requests, .write hasks⟩

/-! ## Readers and positions ask for no memory -/

theorem frugal_mapM {α β : Type} {f : α → Except Fault β} (hf : ∀ x, Frugal (f x)) (xs : List α) :
    Frugal (xs.mapM f) := by
  induction xs with
  | nil => exact frugal_ok []
  | cons x xs ih =>
    rw [List.mapM_cons]
    exact (hf x).bind fun y => ih.bind fun ys => frugal_ok (y :: ys)

theorem frugal_bitsAt (buffer : Buffer) (right : Bool) (position len : Nat) :
    Frugal (buffer.bitsAt right position len) := by
  have hcut (b : UInt8) : Frugal (if len < 8 then
      pure (if right then (b &&& highMask len) >>> UInt8.ofNat (8 - len) else b &&& highMask len)
    else pure b : Except Fault UInt8) := (frugal_ok _).ite (frugal_ok _)
  exact (frugal_byteAt buffer _).bind fun _ => .ite
    ((frugal_byteAt buffer _).bind fun _ => (frugal_ok _).bind hcut) ((frugal_ok _).bind hcut)

theorem frugal_loadRun (buffer : Buffer) (right : Bool) (position n : Nat) :
    Frugal (buffer.loadRun right position n) :=
  (frugal_bytesAt buffer _ _).ite (frugal_mapM (fun _ => frugal_bitsAt buffer right _ _) _)

namespace Stream

/-- A reader whose own checks refuse no memory is refused none, on any stream. -/
theorem Reading.frugal {refused : Fault → Prop} (hrefused : ∀ f, refused f → ¬ f.Refusal) {α : Type}
    {x : StreamM α} (h : Reading refused x) (s : Stream) : Frugal (x.run s) := by
  induction h generalizing s with
  | pure v => exact frugal_ok _
  | throw hf => exact frugal_error (hrefused _ hf)
  | bit => exact frugal_readBit s
  | run _ =>
    rw [run_readRun]
    exact (frugal_error id).ite ((frugal_error id).ite ((frugal_loadRun _ _ _ _).map _))
  | into _ _ =>
    rw [run_readInto]
    exact (frugal_error id).ite
      ((frugal_error id).ite ((frugal_error id).ite ((frugal_loadRun _ _ _ _).map _)))
  | skip n =>
    rw [run_skip]
    exact (frugal_ok _).ite (frugal_error id)
  | align => exact frugal_ok _
  | bind _ _ ihx ihf =>
    intro f hf
    rcases run_bind_eq_error_iff.1 hf with hf | ⟨v, s', hv, hf⟩
    · exact ihx s f hf
    · exact ihf v ⟨_, _, hv⟩ s' f hf

theorem refuses_frugal {k : Kind} {f : Fault} (h : k.Refuses f) : ¬ f.Refusal := by
  cases k with
  | v4 =>
    obtain ⟨n, -, rfl⟩ := h
    exact id
  | socket =>
    obtain ⟨n, -, -, rfl⟩ := h
    exact id
  | int | bool | single | double | u24 | guid => contradiction

theorem refusesMini_frugal {k : Kind} {f : Fault} (h : k.RefusesMini f) : ¬ f.Refusal := by
  cases k with
  | u24 =>
    obtain ⟨n, -, rfl⟩ := h
    exact id
  | v4 => exact refuses_frugal (k := .v4) h
  | socket => exact refuses_frugal (k := .socket) h
  | int | bool | single | double | guid => contradiction

theorem frugal_read (op : ReadOp) (s : Stream) : Frugal (op.perform.run s) := by
  refine op.reading.frugal (fun f h => ?_) s
  cases op with
  | value k | changed k => exact refuses_frugal h
  | mini k | miniChanged k => exact refusesMini_frugal h
  | run =>
    rcases h with ⟨-, rfl⟩ | ⟨-, rfl⟩
    · exact id
    · exact id
  | bounded =>
    obtain ⟨length, -, rfl⟩ := h
    exact id
  | miniBytes | between | boundedFloat =>
    obtain ⟨-, rfl⟩ := h
    exact id
  | bit | skip | skipBytes | align | bytes | alignedBytes | ranged | vector | unitVector | quaternion
  | matrix => contradiction

theorem frugal_position (x : PositionOp) (s : Stream) : Frugal (x.perform.run s) := by
  cases x with
  | reset | resetRead | resetWrite => exact frugal_ok _
  | setReadPos position =>
    rw [PositionOp.perform, run_setReadPos]
    exact (frugal_ok _).ite (frugal_error id)
  | setWritePos position =>
    rw [PositionOp.perform, run_setWritePos]
    exact (frugal_error id).ite ((frugal_ok _).ite (frugal_error id))
  | expectEnd =>
    rw [PositionOp.perform, run_expectEnd]
    exact (frugal_ok _).ite (frugal_error id)

/-! ## Operations -/

section Governed

variable {P : Nat → Prop} {R : Backed → Option Fault → Backed → Prop} (hR : Governs P R)
  (hmoved : ∀ (b : Backed) (s : Stream), s.storage = b.stream.storage →
    s.buffer.size = b.stream.buffer.size → R b none { b with stream := s })
include hR hmoved

theorem Governs.onStream {α : Type} {x : StreamM α} {b : Backed} (hfrugal : Frugal (x.run b.stream))
    (hx : ∀ v s, x.run b.stream = .ok (v, s) →
      s.storage = b.stream.storage ∧ s.buffer.size = b.stream.buffer.size) :
    R b (fault? (Stream.onStream x b)) (left (Stream.onStream x b)) := by
  unfold Stream.onStream
  cases hrun : x.run b.stream with
  | ok r =>
    obtain ⟨hstorage, hsize⟩ := hx r.1 r.2 hrun
    exact hmoved b r.2 hstorage hsize
  | error f => exact hR.stopped b f (hfrugal f hrun)

/-- What governs writes governs operations, unless it depends on the positions or the bits in the
buffer. -/
theorem Governs.op {op : Op} {b : Backed} {requests : List Nat} (h : op.Asks b requests)
    (hP : ∀ r ∈ requests, P r) : R b (fault? (op.perform b)) (left (op.perform b)) := by
  cases h with
  | query x => exact hR.done b
  | position x =>
    rw [Op.perform, fault?_answer, left_answer]
    exact hR.onStream hmoved (frugal_position x _) fun _ _ => position_keeps
  | read x =>
    refine hR.onStream hmoved (frugal_read x _) fun _ _ h => ?_
    obtain ⟨hstorage, hbuffer⟩ := read_keeps h
    exact ⟨hstorage, congrArg Array.size hbuffer⟩
  | reserve n =>
    rw [Op.perform, fault?_answer, left_answer]
    exact hR.reserved (hP _ (List.mem_singleton_self _))
  | write hasks =>
    rw [Op.perform, fault?_answer, left_answer]
    exact hR.asks hasks hP

end Governed

end Stream

end Bitwire
