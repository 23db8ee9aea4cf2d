import Bitwire.Proofs.Decode.Kind
import Bitwire.Proofs.Decode.Range

/-!
# Writes and the reads that match them

A write and a read match if the read gets out of the bits of the write what was written. This is so
for all exact codecs: floating-point numbers at full width, everything else also in shorter codes.
Writes whose reads are still to come wait in a queue; their bits are what is unread of the stream.

* `Matched`, `Exchange`: a write, the read that matches it, and the answer of the read.
* `Exchange.decodes`: the read gets the answer out of the bits of the write.
* `Pending`: a queue of exchanges over the bits that are still to be read.
-/

namespace Bitwire

open Bitwire.Stream

/-- What a read answers about the bits that a write appended. -/
inductive Matched : WriteOp → ReadOp → Answer → Prop
  /-- The bits of the last source byte that are not sent have to be zero. -/
  | run {src dest : List UInt8} {n : Nat} {right : Bool} :
      CleanRun right n src → n ≤ 8 * dest.length →
      Matched (.run src n right) (.run dest n right)
        (.bytes (src.take (bytesFor n) ++ dest.drop (bytesFor n)))
  | bit (b : Bool) : Matched (.bit b) .bit (.flag b)
  | align : Matched .align .align .none
  | bytes (src : List UInt8) : Matched (.bytes src) (.bytes src.length) (.bytes src)
  | alignedBytes (src : List UInt8) :
      Matched (.alignedBytes src) (.alignedBytes src.length) (.bytes src)
  /-- The writer cuts the bytes to its bound, and the reader's bound lets them through. -/
  | bounded {src : List UInt8} {bound limit : Nat} : (src.take bound).length ≤ limit →
      Matched (.bounded src bound) (.bounded limit) (.bytes (src.take bound))
  | value (k : Kind) (v : k.Val) : Matched (.value k v) (.value k) (.value k (k.received v))
  | mini {k : Kind} : k.Exact → ∀ v : k.Val, Matched (.mini k v) (.mini k) (.value k (k.received v))
  | miniBytes {src dest : List UInt8} (signed : Bool) : dest.length = src.length →
      Matched (.miniBytes signed src) (.miniBytes signed dest) (.bytes src)
  | between (t : IntType) (w min max : Word t) (outside : Bool) :
      Matched (.between t w min max outside) (.between t min max outside) (.value (.int t) w)
  | ranged (t : IntType) (r : Span t) (w : Word t) (outside : Bool) :
      Matched (.ranged t r w outside) (.ranged t r outside) (.value (.int t) w)

/-- A write and the read that matches it. -/
structure Exchange where
  write : WriteOp
  read : ReadOp
  answer : Answer
  matched : Matched write read answer

/-! ## Reading what was written -/

/-- A write that was accepted is read back by what matches it, wherever its bits begin. -/
theorem Matched.decodes {write : WriteOp} {read : ReadOp} {answer : Answer}
    (hm : Matched write read answer) {s : Stream} {a : Allocator} {n : Nat} {b : Backed}
    (h : write.perform ⟨s, a⟩ = .ok n b) (position : Nat) :
    Decodes read.perform position (write.bits s.setup.order position) answer := by
  cases hm with
  | run hclean hdest =>
    obtain ⟨h0, hn⟩ := bounds_of_writeRun h
    exact (decodes_readInto_taken _ position _ h0 hn hclean _ hdest).map Answer.bytes
  | bit b => exact (decodes_readBit b position).map Answer.flag
  | align => exact (decodes_readAlign position List.length_replicate).map fun _ => Answer.none
  | bytes src => exact (decodes_readBytes position src).map Answer.bytes
  | alignedBytes src =>
    exact (decodes_readAlignedBytes position List.length_replicate src).map Answer.bytes
  | @bounded src bound limit hlimit =>
    obtain ⟨c, hc⟩ := writeCode_eq_ok (f := fun o => runCode o (src.take bound)) h
    rw [WriteOp.bits, hc]
    exact (decodes_readBounded _ hc hlimit position).map Answer.bytes
  | value k v => exact (k.decodes_read _ v position).map (Answer.value k)
  | @mini k hk v =>
    obtain ⟨c, hc⟩ := writeCode_eq_ok (f := fun o => k.mini o v) h
    rw [WriteOp.bits, hc]
    exact (k.decodes_readMini _ hk v hc position).map (Answer.value k)
  | @miniBytes src dest signed hlen =>
    obtain ⟨c, hc⟩ := writeChecked_eq_ok (Bitwire.miniBytes signed src) h
    rw [WriteOp.bits, hc]
    exact (decodes_readMiniBytes _ hc hlen position).map Answer.bytes
  | between t w min max outside =>
    obtain ⟨c, hc⟩ := writeCode_eq_ok
      (f := fun o => Span.check min max >>= fun r => r.code o w outside) h
    rw [WriteOp.bits, hc]
    exact (decodes_readBetween _ hc position).map (Answer.value (.int t))
  | ranged t r w outside =>
    obtain ⟨c, hc⟩ := writeCode_eq_ok (f := fun o => r.code o w outside) h
    rw [WriteOp.bits, hc]
    exact (r.decodes_read _ hc position).map (Answer.value (.int t))

theorem Exchange.decodes (x : Exchange) {s : Stream} {a : Allocator} {n : Nat} {b : Backed}
    (h : x.write.perform ⟨s, a⟩ = .ok n b) (position : Nat) :
    Decodes x.read.perform position (x.write.bits s.setup.order position) x.answer :=
  x.matched.decodes h position

/-! ## Exchanges under way -/

/-- From a position on, `bits` are those of a queue of exchanges whose reads are still to come, each
with the position behind its bits. -/
inductive Pending : Nat → List (Exchange × Nat) → List Bool → Prop
  | nil {position : Nat} : Pending position [] []
  | cons {position : Nat} {x : Exchange} {queue : List (Exchange × Nat)} {xs bits : List Bool} :
      Decodes x.read.perform position xs x.answer → Pending (position + xs.length) queue bits →
      Pending position ((x, position + xs.length) :: queue) (xs ++ bits)

/-- A write puts its exchange at the end of the queue. -/
theorem Pending.snoc {position : Nat} {queue : List (Exchange × Nat)} {bits ys : List Bool}
    {x : Exchange} (h : Pending position queue bits)
    (hx : Decodes x.read.perform (position + bits.length) ys x.answer) :
    Pending position (queue ++ [(x, position + bits.length + ys.length)]) (bits ++ ys) := by
  induction h with
  | nil =>
    have := Pending.cons (by simpa using hx) .nil
    simpa using this
  | @cons position y queue xs bits hy _ ih =>
    rw [List.length_append, ← Nat.add_assoc] at hx ⊢
    rw [List.append_assoc]
    exact .cons hy (ih hx)

end Bitwire
