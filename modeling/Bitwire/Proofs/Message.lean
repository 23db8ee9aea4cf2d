import Bitwire.Proofs.Alignment
import Bitwire.Proofs.Reachable

/-!
# Messages

A message is written by one operation after the other and read, from a view of its bytes, by those
that match them. Every read finds the read position where the write before it left the write position,
so that all values come back; what is left at the end is the padding of the last byte.

* `Stream.writeAll`, `Stream.readAll`: a message written and read, with the positions on the way.
* `pending_writeAll`, `Pending.readAll`: written messages are pending, and pending ones are read.
* `message_roundtrip`: what is read of a message is what was written.
-/

namespace Bitwire

open Bitwire.Stream

namespace Stream

/-- Performs writes one after the other and returns the write position after each. -/
def writeAll : List WriteOp → WriteM (List Nat)
  | [] => pure []
  | op :: ops => do
    let _ ← op.perform
    let position := (← get).stream.writePos
    let positions ← writeAll ops
    pure (position :: positions)

/-- Performs reads one after the other and returns what each answers, with the read position after
it. -/
def readAll : List ReadOp → StreamM (List (Answer × Nat))
  | [] => pure []
  | op :: ops => do
    let answer ← op.perform
    let position := (← get).readPos
    let answers ← readAll ops
    pure ((answer, position) :: answers)

theorem writeAll_cons_eq_ok {op : WriteOp} {ops : List WriteOp} {positions : List Nat}
    {b b'' : Backed} (h : writeAll (op :: ops) b = .ok positions b'') :
    ∃ n b' rest, op.perform b = .ok n b' ∧ writeAll ops b' = .ok rest b'' ∧
      positions = b'.stream.writePos :: rest := by
  obtain ⟨n, b', h1, h⟩ := bind_eq_ok_iff.1 h
  obtain ⟨rest, b₂, h2, h⟩ := (bind_eq_ok_iff (x := writeAll ops)).1 h
  obtain ⟨rfl, rfl⟩ := pure_eq_ok_iff.1 h
  exact ⟨n, b', rest, h1, h2, rfl⟩

theorem run_readAll_cons {op : ReadOp} {ops : List ReadOp} {s s' s'' : Stream} {answer : Answer}
    {answers : List (Answer × Nat)} (h : op.perform.run s = .ok (answer, s'))
    (hs : (readAll ops).run s' = .ok (answers, s'')) :
    (readAll (op :: ops)).run s = .ok ((answer, s'.readPos) :: answers, s'') := by
  have htail : (do
      let position := (← get).readPos
      let answers ← readAll ops
      pure ((answer, position) :: answers) : StreamM (List (Answer × Nat))).run s' =
        .ok ((answer, s'.readPos) :: answers, s'') :=
    run_bind_eq_ok_iff.2 ⟨s', s', rfl, run_bind_eq_ok_iff.2 ⟨answers, s'', hs, rfl⟩⟩
  exact run_bind_eq_ok_iff.2 ⟨answer, s', h, htail⟩

/-- Ends that are moved to another start lie as far behind it as behind a position in between. -/
theorem map_ends {ends : List Nat} {p q k : Nat} (hq : q = p + k) (hle : ∀ e ∈ ends, q ≤ e)
    (start : Nat) :
    ends.map (fun e => start + k + (e - q)) = ends.map fun e => start + (e - p) := by
  apply List.map_congr_left
  intro e he
  have := hle e he
  omega

/-- The bits of a message are pending from any position on, provided that it does not align or that it
was written at a position that agrees modulo 8. All ends move with it. -/
theorem pending_writeAll_at {message : List Exchange} {s : Stream} {a : Allocator}
    {positions : List Nat} {b : Backed} (hs : s.Valid)
    (h : writeAll (message.map (·.write)) ⟨s, a⟩ = .ok positions b) (start : Nat)
    (halign : (∀ x ∈ message, ¬ x.write.Aligns) ∨ s.writePos % 8 = start % 8) :
    positions.length = message.length ∧ (∀ p ∈ positions, s.writePos ≤ p) ∧
      ∃ bits, s.Extends bits b.stream ∧
        Pending start (message.zip (positions.map fun p => start + (p - s.writePos))) bits := by
  induction message generalizing s a positions start with
  | nil =>
    obtain ⟨rfl, rfl⟩ := pure_eq_ok_iff.1 h
    exact ⟨rfl, nofun, [], .refl hs, .nil⟩
  | cons x xs ih =>
    obtain ⟨n, ⟨t, a'⟩, rest, h1, h2, rfl⟩ := writeAll_cons_eq_ok h
    have hext := (x.write.appends s a n _ hs h1).2
    have hfirst : x.write.bits s.setup.order s.writePos = x.write.bits s.setup.order start :=
      x.matched.bits_congr _ (halign.imp_left fun hfree => hfree x List.mem_cons_self)
    dsimp only at hext
    rw [hfirst] at hext
    have hpos := hext.writePos_eq
    generalize hys : x.write.bits s.setup.order start = ys at hext hpos
    obtain ⟨hlen, hle, bits, hext', hpending⟩ := ih hext.valid h2 (start + ys.length)
      (halign.imp (fun hfree y hy => hfree y (List.mem_cons_of_mem x hy)) fun h => by omega)
    rw [map_ends hpos hle start] at hpending
    refine ⟨congrArg Nat.succ hlen, ?_, ys ++ bits, hext.trans hext', ?_⟩
    · intro p hp
      rcases List.mem_cons.1 hp with rfl | hp
      · exact Nat.le.intro hpos.symm
      · exact Nat.le_trans (Nat.le.intro hpos.symm) (hle p hp)
    · have hread := x.decodes h1 start
      rw [hys] at hread
      rw [List.map_cons, hpos, Nat.add_sub_cancel_left]
      exact .cons hread hpending

/-- What a message appends is pending. -/
theorem pending_writeAll {message : List Exchange} {s : Stream} {a : Allocator}
    {positions : List Nat} {b : Backed} (hs : s.Valid)
    (h : writeAll (message.map (·.write)) ⟨s, a⟩ = .ok positions b) :
    positions.length = message.length ∧ ∃ bits, s.Extends bits b.stream ∧
      Pending s.writePos (message.zip positions) bits := by
  obtain ⟨hlen, hle, bits, hext, hpending⟩ := pending_writeAll_at hs h s.writePos (.inr rfl)
  have hsame : ∀ p ∈ positions, s.writePos + (p - s.writePos) = id p :=
    fun p hp => Nat.add_sub_cancel' (hle p hp)
  rw [List.map_congr_left hsame, List.map_id] at hpending
  exact ⟨hlen, bits, hext, hpending⟩

end Stream

/-- Pending exchanges are read one after the other. -/
theorem Pending.readAll {queue : List (Exchange × Nat)} {bits : List Bool} {s : Stream}
    (h : Pending s.readPos queue bits) (hs : s.Valid) (hbits : bits <+: s.bits.drop s.readPos) :
    (readAll (queue.map fun e => e.1.read)).run s =
      .ok (queue.map fun e => (e.1.answer, e.2), s.passed bits.length) := by
  generalize hp : s.readPos = position at h
  induction h generalizing s with
  | nil => rfl
  | @cons position x queue xs bits hx _ ih =>
    obtain ⟨hxs, hrest⟩ := prefix_passed hbits
    have hfirst := hx s hs hp hxs
    have htail := ih (hs.passed hxs) hrest (by rw [← hp]; rfl)
    have hall := run_readAll_cons hfirst htail
    rw [List.map_cons, List.map_cons, hall, ← hp, List.length_append, passed_passed]
    rfl

/-- A pending message is read by the reads that match it, each up to its end. -/
theorem Pending.readAll_message {message : List Exchange} {ends : List Nat} {bits : List Bool}
    {s : Stream} (hlen : ends.length = message.length)
    (h : Pending s.readPos (message.zip ends) bits) (hs : s.Valid)
    (hbits : bits <+: s.bits.drop s.readPos) :
    (Stream.readAll (message.map (·.read))).run s =
      .ok ((message.map (·.answer)).zip ends, s.passed bits.length) := by
  have hread := h.readAll hs hbits
  have hreads : (message.zip ends).map (fun e => e.1.read) = message.map (·.read) := by
    change (message.zip ends).map (Exchange.read ∘ Prod.fst) = _
    rw [← List.map_map, List.map_fst_zip (by omega)]
  have hanswers : (message.zip ends).map (fun e => (e.1.answer, e.2)) =
      (message.map (·.answer)).zip ends := List.zip_map_left.symm
  rwa [hreads, hanswers] at hread

/-! ## Round trip -/

/-- The bits of a view are those of its bytes. -/
theorem bits_view (setup : Setup) (src : List UInt8) : (view setup src).bits = bitsOf src := by
  unfold Stream.bits view
  dsimp only
  rw [List.take_of_length_le (by rw [length_bitsOf])]

/-- A message that was accepted on a fresh stream is read from its bytes: every read answers what was
written and ends where the write ended. Fewer than eight bits are left then, and they are zero. The
writer and the reader may be set up in different ways. -/
theorem message_roundtrip {s : Stream} (hs : s.Reachable) (h0 : s.writePos = 0)
    (message : List Exchange) {a : Allocator} {positions : List Nat} {b : Backed}
    (h : writeAll (message.map (·.write)) ⟨s, a⟩ = .ok positions b) (setup : Setup) :
    positions.length = message.length ∧
      ∃ t, (readAll (message.map (·.read))).run (view setup b.stream.bytes) =
          .ok ((message.map (·.answer)).zip positions, t) ∧
        t.payload < 8 ∧ ∀ bit ∈ t.bits.drop t.readPos, bit = false := by
  obtain ⟨hlen, bits, hext, hpending⟩ := pending_writeAll hs.valid h
  have hempty : s.bits = [] := by
    rw [← List.length_eq_zero_iff, hs.valid.length_bits, h0]
  have hview : (view setup b.stream.bytes).bits =
      bits ++ List.replicate (padding b.stream.writePos) false := by
    rw [bits_view, hext.valid.bitsOf_bytes, hext.bits_eq, hempty, List.nil_append]
  rw [h0] at hpending
  have hread := hpending.readAll_message (s := view setup b.stream.bytes) hlen (valid_view _ _) (by
    change bits <+: (view setup b.stream.bytes).bits.drop 0
    rw [hview]
    exact List.prefix_append _ _)
  have hrest : (view setup b.stream.bytes).bits.drop (0 + bits.length) =
      List.replicate (padding b.stream.writePos) false := by
    rw [hview, Nat.zero_add, List.drop_left]
  refine ⟨hlen, _, hread, ?_, ?_⟩
  · have hall := (valid_view setup b.stream.bytes).length_bits
    rw [hview, List.length_append, List.length_replicate] at hall
    change (view setup b.stream.bytes).writePos - (0 + bits.length) < 8
    unfold padding at hall
    omega
  · intro bit hbit
    change bit ∈ (view setup b.stream.bytes).bits.drop (0 + bits.length) at hbit
    rw [hrest] at hbit
    exact List.eq_of_mem_replicate hbit

/-- A flag and a number behind it, written by a little-endian host and read by a big-endian one. -/
theorem message_roundtrip_flag_number :
    ∃ (b : Backed) (t : Stream),
      writeAll [.bit true, .value (.int .u16) 0x1234#16] ⟨empty { order := .little }, .system⟩ =
        .ok [1, 17] b ∧
      (readAll [.bit, .value (.int .u16)]).run (view { order := .big } b.stream.bytes) =
        .ok ([(.flag true, 1), (.value (.int .u16) 0x1234#16, 17)], t) ∧ t.payload < 8 := by
  let message : List Exchange :=
    [⟨_, _, _, .bit true⟩, ⟨_, _, _, .value (.int .u16) 0x1234#16⟩]
  have hs : Reachable (empty { order := .little }) := .made _ .empty (a := .system) rfl
  obtain ⟨b, h⟩ : ∃ b, writeAll (message.map (·.write)) ⟨empty { order := .little }, .system⟩ =
      .ok [1, 17] b := by
    have hrun : (match writeAll (message.map (·.write)) ⟨empty { order := .little }, .system⟩ with
      | .ok positions _ => decide (positions = [1, 17])
      | .error _ _ => false) = true := by decide +kernel
    generalize writeAll (message.map (·.write)) ⟨empty { order := .little }, .system⟩ = r at hrun ⊢
    cases r with
    | ok positions b => exact ⟨b, by rw [of_decide_eq_true hrun]⟩
    | error f b => contradiction
  obtain ⟨-, t, hread, hleft, -⟩ := message_roundtrip hs rfl message h { order := .big }
  exact ⟨b, t, h, hread, hleft⟩

end Bitwire
