import Bitwire.Proofs.Acceptance
import Bitwire.Proofs.Exchange

/-!
# Reads between writes

On one stream, reads may come between the writes that they match, as long as each comes after its
write: the stream is a queue of values. What is unread are the bits of the exchanges under way; a
write puts its bits at the end, a read takes them from the beginning, and making room does not touch
them.

* `Interleaving`: the orders in which the operations of some exchanges may be performed.
* `Stream.log`: a run of operations; `readResults`, `writeEnds`: what is seen of it; `Completes`: none of
  them fails.
* `roomFor`: the room that a run of operations needs.
* `Stream.Carries`: the unread bits are those of a queue; `Carries.write`, `Carries.read`,
  `Carries.reserve`: what an operation does to the queue.
* `Served`, `Carries.served`: what becomes of operations on a stream that carries a queue.
* `interleaving_fifo`: reads answer what was written, in order, and end where the writes ended.
-/

namespace Bitwire

open Bitwire.Stream

/-- Operations that perform the exchanges `todo`, each write before the read that matches it, and the
reads of the exchanges under way before those. Both writes and reads are in order, room is made at
any time, and the last exchanges may be left unfinished. -/
inductive Interleaving : List Exchange → List Exchange → List Op → Prop
  | stop {pending todo : List Exchange} : Interleaving pending todo []
  | write {x : Exchange} {pending todo : List Exchange} {ops : List Op} :
      Interleaving (pending ++ [x]) todo ops →
      Interleaving pending (x :: todo) (.write x.write :: ops)
  | read {x : Exchange} {pending todo : List Exchange} {ops : List Op} :
      Interleaving pending todo ops → Interleaving (x :: pending) todo (.read x.read :: ops)
  | reserve {pending todo : List Exchange} {ops : List Op} (bits : Nat) :
      Interleaving pending todo ops → Interleaving pending todo (.reserve bits :: ops)

namespace Stream

/-- What happens at each operation of a run: its answer and the stream behind it, or the fault that
ends the run. -/
def log : List Op → Backed → List (Op × Except Fault (Answer × Stream))
  | [], _ => []
  | op :: ops, b =>
    match op.perform b with
    | .ok answer b' => (op, .ok (answer, b'.stream)) :: log ops b'
    | .error f _ => [(op, .error f)]

end Stream

/-- What the reads of a run answered, and the read positions behind them. -/
def readResults : List (Op × Except Fault (Answer × Stream)) → List (Except Fault (Answer × Nat)) :=
  List.filterMap fun
    | (.read _, result) => some (result.map fun (answer, s) => (answer, s.readPos))
    | _ => none

/-- The write positions behind the writes of a run. -/
def writeEnds : List (Op × Except Fault (Answer × Stream)) → List Nat :=
  List.filterMap fun
    | (.write _, .ok (_, s)) => some s.writePos
    | _ => none

/-- Number of bits that a run of operations needs room for at a position of a stream with a host order:
those of its writes, and those that room is made for on the way. -/
def roomFor (o : ByteOrder) (position : Nat) : List Op → Nat
  | [] => 0
  | .write op :: ops =>
    (op.bits o position).length + roomFor o (position + (op.bits o position).length) ops
  | .reserve n :: ops => max n (roomFor o position ops)
  | _ :: ops => roomFor o position ops

theorem log_cons_of_ok {op : Op} {ops : List Op} {b b' : Backed} {answer : Answer}
    (h : op.perform b = .ok answer b') :
    log (op :: ops) b = (op, .ok (answer, b'.stream)) :: log ops b' := by
  rw [log, h]

theorem log_cons_of_error {op : Op} {ops : List Op} {b b' : Backed} {f : Fault}
    (h : op.perform b = .error f b') : log (op :: ops) b = [(op, .error f)] := by
  rw [log, h]

theorem error_mem_log_cons {op op' : Op} {ops : List Op} {b b' : Backed} {answer : Answer} {f : Fault}
    (h : op.perform b = .ok answer b') :
    (op', .error f) ∈ log (op :: ops) b ↔ (op', .error f) ∈ log ops b' := by
  rw [log_cons_of_ok h]
  simp

/-- All operations of a run are performed, and none fails. -/
structure Completes (ops : List Op) (b : Backed) : Prop where
  performed : (log ops b).map Prod.fst = ops
  succeeded : ∀ e ∈ log ops b, ∃ r, e.2 = .ok r

theorem Completes.nil (b : Backed) : Completes [] b := ⟨rfl, fun _ h => absurd h List.not_mem_nil⟩

theorem Completes.cons {op : Op} {ops : List Op} {b b' : Backed} {answer : Answer}
    (h : op.perform b = .ok answer b') (hrest : Completes ops b') : Completes (op :: ops) b where
  performed := by rw [log_cons_of_ok h, List.map_cons, hrest.performed]
  succeeded := by
    rw [log_cons_of_ok h]
    exact List.forall_mem_cons.2 ⟨⟨_, rfl⟩, hrest.succeeded⟩

/-- What is unread of a stream that bits were appended to. -/
theorem Stream.Extends.drop_bits {s s' : Stream} {bits : List Bool} (hs : s.Valid)
    (h : s.Extends bits s') : s'.bits.drop s'.readPos = s.bits.drop s.readPos ++ bits := by
  rw [h.bits_eq, h.readPos_eq, List.drop_append_of_le_length]
  rw [hs.length_bits]
  exact hs.readPos_le

/-! ## Steps -/

namespace Stream

/-- What is unread of a valid stream are the bits of a queue of exchanges under way. -/
structure Carries (s : Stream) (queue : List (Exchange × Nat)) : Prop where
  valid : s.Valid
  pending : Pending s.readPos queue (s.bits.drop s.readPos)

namespace Carries

variable {s : Stream} {a : Allocator} {queue : List (Exchange × Nat)} {x : Exchange}

theorem nil (hs : s.Valid) (h : s.readPos = s.writePos) : s.Carries [] := by
  have hnone : s.bits.drop s.readPos = [] := by
    rw [List.drop_eq_nil_iff, hs.length_bits, h]
  exact ⟨hs, by rw [hnone]; exact .nil⟩

/-- A write puts its exchange at the end of the queue. -/
theorem write {n : Nat} {b : Backed} (hs : s.Carries queue)
    (h : x.write.perform ⟨s, a⟩ = .ok n b) :
    b.stream.Carries (queue ++ [(x, b.stream.writePos)]) := by
  obtain ⟨-, hext⟩ := x.write.appends s a n b hs.valid h
  have hend : s.readPos + (s.bits.drop s.readPos).length = s.writePos := by
    have := hs.valid.readPos_le
    rw [List.length_drop, hs.valid.length_bits]
    omega
  have hqueue := hs.pending.snoc (x.decodes h _)
  dsimp only at hqueue hext
  rw [hend, ← hext.writePos_eq, ← hext.drop_bits hs.valid, ← hext.readPos_eq] at hqueue
  exact ⟨hext.valid, hqueue⟩

/-- A read that matches the first exchange of the queue succeeds and takes it out of the queue. -/
theorem read {position : Nat} (hs : s.Carries ((x, position) :: queue)) :
    ∃ s', x.read.perform.run s = .ok (x.answer, s') ∧ s'.readPos = position ∧
      s'.Carries queue := by
  obtain ⟨hs, hpending⟩ := hs
  generalize hbits : s.bits.drop s.readPos = bits at hpending
  cases hpending with
  | @cons _ _ _ xs bits hx hpending =>
    have hxs : xs <+: s.bits.drop s.readPos := by
      rw [hbits]
      exact List.prefix_append xs bits
    have hleft : (s.passed xs.length).bits.drop (s.passed xs.length).readPos = bits := by
      change s.bits.drop (s.readPos + xs.length) = bits
      rw [← List.drop_drop, hbits, List.drop_left]
    exact ⟨_, hx s hs rfl hxs, rfl, hs.passed hxs, by rw [hleft]; exact hpending⟩

/-- Making room changes nothing about the queue. -/
theorem reserve {n : Nat} {b : Backed} (hs : s.Carries queue)
    (h : Stream.reserve n ⟨s, a⟩ = .ok () b) : b.stream.Carries queue := by
  have hext := (hs.valid.extends_of_reserve h).1
  have hleft := hext.drop_bits hs.valid
  rw [List.append_nil] at hleft
  exact ⟨hext.valid, by rw [hleft, hext.readPos_eq]; exact hs.pending⟩

end Carries

end Stream

/-! ## Runs -/

/-- What becomes of operations on a stream that carries a queue: writes put exchanges at the end of it,
reads take them from the beginning and answer what is expected, and nothing but a write or a request for
room can be refused. -/
inductive Served : List (Exchange × Nat) → List Exchange → List Op → Backed → Prop
  | stop {queue : List (Exchange × Nat)} {todo : List Exchange} {b : Backed} : Served queue todo [] b
  | refused {queue : List (Exchange × Nat)} {todo : List Exchange} {op : Op} {ops : List Op}
      {b b' : Backed} {f : Fault} : (∃ w, op = .write w) ∨ (∃ n, op = .reserve n) →
      op.perform b = .error f b' → Served queue todo (op :: ops) b
  | write {queue : List (Exchange × Nat)} {x : Exchange} {todo : List Exchange} {ops : List Op}
      {b b' : Backed} {n : Nat} : x.write.perform b = .ok n b' →
      Served (queue ++ [(x, b'.stream.writePos)]) todo ops b' →
      Served queue (x :: todo) (.write x.write :: ops) b
  | read {queue : List (Exchange × Nat)} {x : Exchange} {todo : List Exchange} {ops : List Op}
      {b : Backed} {s : Stream} : x.read.perform.run b.stream = .ok (x.answer, s) →
      Served queue todo ops { b with stream := s } →
      Served ((x, s.readPos) :: queue) todo (.read x.read :: ops) b
  | reserve {queue : List (Exchange × Nat)} {todo : List Exchange} {ops : List Op} {b b' : Backed}
      {n : Nat} : Stream.reserve n b = .ok () b' → Served queue todo ops b' →
      Served queue todo (.reserve n :: ops) b

section Performed

variable {b b' : Backed} {f : Fault} {n : Nat}

theorem perform_write_ok {op : WriteOp} (h : op.perform b = .ok n b') :
    (Op.write op).perform b = .ok (.count n) b' := bind_of_ok h

theorem perform_read_ok {x : ReadOp} {answer : Answer} {s : Stream}
    (h : x.perform.run b.stream = .ok (answer, s)) :
    (Op.read x).perform b = .ok answer { b with stream := s } := onStream_eq_ok_iff.2 ⟨s, h, rfl⟩

theorem perform_reserve_ok (h : Stream.reserve n b = .ok () b') :
    (Op.reserve n).perform b = .ok .none b' := bind_of_ok h

end Performed

/-- The operations of an interleaving are served. -/
theorem Stream.Carries.served {pending todo : List Exchange} {ops : List Op}
    (h : Interleaving pending todo ops) {queue : List (Exchange × Nat)}
    (hqueue : queue.map Prod.fst = pending) {s : Stream} {a : Allocator} (hs : s.Carries queue) :
    Served queue todo ops ⟨s, a⟩ := by
  induction h generalizing queue s a with
  | stop => exact .stop
  | @write x pending todo ops _ ih =>
    cases hw : x.write.perform ⟨s, a⟩ with
    | error f b => exact .refused (.inl ⟨_, rfl⟩) (bind_of_error hw)
    | ok n b =>
      exact .write hw (ih (by rw [List.map_append, hqueue]; rfl) (a := b.allocator) (hs.write hw))
  | @read x pending todo ops _ ih =>
    obtain ⟨⟨y, position⟩, queue, rfl⟩ := List.exists_cons_of_ne_nil (show queue ≠ [] by
      rintro rfl
      contradiction)
    obtain ⟨rfl, hrest⟩ := List.cons.inj hqueue
    obtain ⟨s', hread, rfl, hs'⟩ := hs.read
    exact .read hread (ih hrest hs')
  | @reserve pending todo ops n _ ih =>
    cases hr : Stream.reserve n ⟨s, a⟩ with
    | error f b => exact .refused (.inr ⟨n, rfl⟩) (bind_of_error hr)
    | ok _ b => exact .reserve hr (ih hqueue (a := b.allocator) (hs.reserve hr))

namespace Served

variable {queue : List (Exchange × Nat)} {todo : List Exchange} {ops : List Op} {b : Backed}

/-- Everything that is read comes from the queue of exchanges under way or from what is still to be
written. -/
theorem readResults_prefix (h : Served queue todo ops b) :
    readResults (log ops b) <+:
      (queue.map (fun e => (e.1.answer, e.2)) ++
        (todo.map (·.answer)).zip (writeEnds (log ops b))).map .ok := by
  induction h with
  | stop => exact List.nil_prefix
  | refused hop herror =>
    rw [log_cons_of_error herror]
    obtain ⟨w, rfl⟩ | ⟨n, rfl⟩ := hop
    · exact List.nil_prefix
    · exact List.nil_prefix
  | @write queue x todo ops b b' n hw _ ih =>
    -- the write adds its exchange on one side of the expected answers and takes it on the other
    have hsnoc (ends : List Nat) :
        (queue ++ [(x, b'.stream.writePos)]).map (fun e => (e.1.answer, e.2)) ++
            (todo.map (·.answer)).zip ends =
          queue.map (fun e => (e.1.answer, e.2)) ++
            ((x :: todo).map (·.answer)).zip (b'.stream.writePos :: ends) := by
      rw [List.map_append, List.append_assoc]
      rfl
    rw [hsnoc] at ih
    rw [log_cons_of_ok (perform_write_ok hw)]
    exact ih
  | read hread _ ih =>
    rw [log_cons_of_ok (perform_read_ok hread)]
    exact (List.prefix_cons_inj _).2 ih
  | reserve hr _ ih =>
    rw [log_cons_of_ok (perform_reserve_ok hr)]
    exact ih

/-- No read is refused. -/
theorem refused_of_mem (h : Served queue todo ops b) {op : Op} {f : Fault}
    (hmem : (op, .error f) ∈ log ops b) : (∃ w, op = .write w) ∨ ∃ n, op = .reserve n := by
  induction h with
  | stop => contradiction
  | refused hop herror =>
    rw [log_cons_of_error herror] at hmem
    cases List.mem_singleton.1 hmem
    exact hop
  | write hw _ ih => exact ih ((error_mem_log_cons (perform_write_ok hw)).1 hmem)
  | read hread _ ih => exact ih ((error_mem_log_cons (perform_read_ok hread)).1 hmem)
  | reserve hr _ ih => exact ih ((error_mem_log_cons (perform_reserve_ok hr)).1 hmem)

/-- If all writes are accepted and there can be room for everything, nothing is refused. -/
theorem completes (h : Served queue todo ops b) (hs : b.stream.Valid)
    (hwrites : ∀ w, .write w ∈ ops → w.Accepted b.stream.setup)
    (hroom : b.stream.Admits b.allocator (roomFor b.stream.setup.order b.stream.writePos ops)) :
    Completes ops b := by
  induction h with
  | stop => exact .nil _
  | @refused queue todo op ops b b' f hop herror =>
    obtain ⟨w, rfl⟩ | ⟨n, rfl⟩ := hop
    · obtain ⟨n, c, hok⟩ := (hwrites w List.mem_cons_self).exists_perform_eq_ok hs
        (hroom.mono (Nat.le_add_right _ _))
      rw [perform_write_ok hok] at herror
      contradiction
    · obtain ⟨c, hok⟩ := grants_iff.1 (hroom.mono (Nat.le_max_left n _)).grants
      rw [perform_reserve_ok hok] at herror
      contradiction
  | @write queue x todo ops b b' n hw _ ih =>
    have hext := (x.write.appends b.stream b.allocator n b' hs hw).2
    have hrest := hroom.of_extends hext (x.write.writing.later hw)
    rw [← hext.writePos_eq, ← hext.evolves.setup_eq] at hrest
    refine .cons (perform_write_ok hw) (ih hext.valid (fun w hmem => ?_) hrest)
    rw [hext.evolves.setup_eq]
    exact hwrites w (List.mem_cons_of_mem _ hmem)
  | @read queue x todo ops b s hread _ ih =>
    have hvalid := (hs.read x.read.reads hread).1
    obtain ⟨position, rfl⟩ := x.read.reading.moves hread
    exact .cons (perform_read_ok hread) (ih hvalid
      (fun w hmem => hwrites w (List.mem_cons_of_mem _ hmem))
      ⟨hroom.writable, hroom.lt_limit, hroom.fits_or_affords⟩)
  | @reserve queue todo ops b b' n hr _ ih =>
    have hext := (hs.extends_of_reserve hr).1
    have hrest : b'.stream.Admits b'.allocator
        (roomFor b.stream.setup.order b.stream.writePos ops) :=
      (hroom.mono (by rw [List.length_nil, Nat.zero_add]; exact Nat.le_max_right n _)).of_extends hext
        (later_reserve hr)
    have hpos : b'.stream.writePos = b.stream.writePos := hext.writePos_eq
    rw [← hpos, ← hext.evolves.setup_eq] at hrest
    refine .cons (perform_reserve_ok hr) (ih hext.valid (fun w hmem => ?_) hrest)
    rw [hext.evolves.setup_eq]
    exact hwrites w (List.mem_cons_of_mem _ hmem)

end Served

/-- A stream is a queue of values. Where all that was written has been read, operations in any order
that has each write before the read that matches it give every read what was written, and leave the
read position where the write left the write position. No read fails; if an operation fails, it is a
write or a request for room, and the run ends there. If all writes are such that some stream with the same
setup accepts them, and the stream admits the bits that they and the requests are for, nothing fails: all
operations are performed, and each read is answered. -/
theorem interleaving_fifo {s : Stream} (hs : s.Reachable) (heq : s.readPos = s.writePos)
    {exchanges : List Exchange} {ops : List Op} (h : Interleaving [] exchanges ops) (a : Allocator) :
    readResults (log ops ⟨s, a⟩) <+:
        ((exchanges.map (·.answer)).zip (writeEnds (log ops ⟨s, a⟩))).map .ok ∧
      (∀ op f, (op, .error f) ∈ log ops ⟨s, a⟩ → (∃ w, op = .write w) ∨ ∃ n, op = .reserve n) ∧
      ((∀ w, .write w ∈ ops → w.Accepted s.setup) →
        s.Admits a (roomFor s.setup.order s.writePos ops) → Completes ops ⟨s, a⟩) := by
  have hcarries : s.Carries [] := .nil hs.valid heq
  have hserved : Served [] exchanges ops ⟨s, a⟩ := hcarries.served h rfl
  exact ⟨hserved.readResults_prefix, fun _ _ => hserved.refused_of_mem, hserved.completes hs.valid⟩

/-- A number is written while a flag is still to be read, and the buffer is exchanged between the
two. -/
theorem interleaving_fifo_grown :
    let ops : List Op := [.write (.bit true), .reserve 3000, .write (.value (.int .u16) 0x1234#16),
      .read .bit, .read (.value (.int .u16))]
    Completes ops ⟨empty {}, .system⟩ ∧
      readResults (log ops ⟨empty {}, .system⟩) =
        [.ok (.flag true, 1), .ok (.value (.int .u16) 0x1234#16, 17)] := by
  intro ops
  let flag : Exchange := ⟨_, _, _, .bit true⟩
  let number : Exchange := ⟨_, _, _, .value (.int .u16) 0x1234#16⟩
  have hs : Reachable (empty {}) := .made {} .empty (a := .system) rfl
  have hops : Interleaving [] [flag, number] ops :=
    .write (.reserve 3000 (.write (.read (.read .stop))))
  obtain ⟨hanswers, -, hcompletes⟩ := interleaving_fifo hs rfl hops .system
  have hends : writeEnds (log ops ⟨empty {}, .system⟩) = [1, 17] := by decide +kernel
  have hlength : (readResults (log ops ⟨empty {}, .system⟩)).length = 2 := by decide +kernel
  have haccepted : ∀ w, .write w ∈ ops → w.Accepted {} := by
    intro w hw
    have hw : w = .bit true ∨ w = .value (.int .u16) 0x1234#16 := by simpa [ops] using hw
    obtain rfl | rfl := hw
    · obtain ⟨b, hb⟩ := exists_writeBit_eq_ok true
        (admits_empty {} (a := .system) (n := 1) rfl (by decide)).grants
      exact ⟨empty {}, .system, 1, b, rfl, hb⟩
    · have hwire : (WriteOp.value (.int .u16) 0x1234#16).wire = some _ := rfl
      obtain ⟨b, hb⟩ := ((WriteOp.writesWire hwire).refines hs.valid .system).2
        (admits_empty {} rfl (by decide +kernel))
      exact ⟨empty {}, .system, _, b, rfl, hb⟩
  have hroom : (empty {}).Admits .system (roomFor .host 0 ops) := admits_empty {} rfl (by decide +kernel)
  rw [hends] at hanswers
  exact ⟨hcompletes haccepted hroom, hanswers.eq_of_length hlength⟩

end Bitwire
