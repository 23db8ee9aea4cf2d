import Bitwire.Proofs.Stream.Append
import Bitwire.Session.Op

/-!
# What a write appends

The bits that a writing operation appends are determined by the operation, the host order of the
stream and, where it aligns, the write position. `WriteOp.bits` lists them, so that what was written
can be talked about without a stream.

* `Code.bits`, `Code.checkedBits`: the bits of a code.
* `WriteOp.bits`: the bits of a writing operation.
* `WriteOp.appends`: every writing operation appends its bits.
-/

namespace Bitwire

open Bitwire.Stream

/-! ## Codes -/

/-- The bits of a piece at a position. -/
def Piece.bits (position : Nat) : Piece → List Bool
  | bit b => [b]
  | run src n right => takenBits right n src
  | align => List.replicate (padding position) false

namespace Code

/-- The bits of a code at a position. -/
def bits (position : Nat) : Code → List Bool
  | [] => []
  | p :: ps => p.bits position ++ bits (position + (p.bits position).length) ps

/-- The bits of a code, none where its value was refused. -/
def checkedBits (position : Nat) : Except Fault Code → List Bool
  | .ok code => code.bits position
  | .error _ => []

@[simp] theorem bits_nil (position : Nat) : bits position [] = [] := rfl

theorem bits_cons (position : Nat) (p : Piece) (ps : Code) :
    bits position (p :: ps) =
      p.bits position ++ bits (position + (p.bits position).length) ps := rfl

theorem bits_append (position : Nat) (xs ys : Code) :
    bits position (xs ++ ys) =
      bits position xs ++ bits (position + (bits position xs).length) ys := by
  induction xs generalizing position with
  | nil => rfl
  | cons p ps ih =>
    rw [List.cons_append, bits_cons, bits_cons, ih, List.append_assoc, List.length_append,
      Nat.add_assoc]

theorem bits_ofBytes (position : Nat) (src : List UInt8) : bits position (ofBytes src) = bitsOf src := by
  cases src with
  | nil => rfl
  | cons b bs =>
    have := takenBits_bytes true (b :: bs) (b :: bs).length
    rw [List.take_length] at this
    simpa [ofBytes, bits_cons, Piece.bits] using this

end Code

theorem Piece.appends (p : Piece) : Appends p.write fun _ position => p.bits position := by
  cases p with
  | bit b => exact appends_writeBit b
  | run src n right => exact appends_writeRun src n right
  | align => exact appends_writeAlign

theorem Code.appends_write (code : Code) :
    Appends code.write fun _ position => code.bits position := by
  induction code with
  | nil => exact appends_pure_zero
  | cons p ps ih => exact p.appends.seq ih

theorem Code.appends_writeChecked (code : Except Fault Code) :
    Appends (writeChecked code) fun _ position => checkedBits position code := by
  cases code with
  | ok code => exact code.appends_write
  | error f => exact appends_throw f _

theorem appends_writeCode (f : ByteOrder → Except Fault Code) :
    Appends (writeCode f) fun o position => Code.checkedBits position (f o) :=
  fun s => Code.appends_writeChecked (f s.setup.order) s

/-- What is written was not refused. -/
theorem writeChecked_eq_ok (code : Except Fault Code) {n : Nat} {b b' : Backed}
    (h : Code.writeChecked code b = .ok n b') : ∃ c, code = .ok c := by
  cases code with
  | ok c => exact ⟨c, rfl⟩
  | error f => exact absurd h throw_ne_ok

/-- What a codec appends was not refused. -/
theorem writeCode_eq_ok {f : ByteOrder → Except Fault Code} {s : Stream} {a : Allocator} {n : Nat}
    {b : Backed} (h : writeCode f ⟨s, a⟩ = .ok n b) : ∃ c, f s.setup.order = .ok c :=
  writeChecked_eq_ok (f s.setup.order) (b := ⟨s, a⟩) h

/-! ## Operations -/

namespace WriteOp

/-- The bits that an operation appends at a position of a stream with a host order. -/
def bits (o : ByteOrder) (position : Nat) : WriteOp → List Bool
  | run src n right => takenBits right n src
  | bit b => [b]
  | align => List.replicate (padding position) false
  | bytes src => bitsOf src
  | alignedBytes src => List.replicate (padding position) false ++ bitsOf src
  | bounded src bound => Code.checkedBits position (runCode o (src.take bound))
  | padTo n => if n ≤ bytesFor position then [] else List.replicate (8 * n - position) false
  | value k v => (k.code o v).bits position
  | mini k v => Code.checkedBits position (k.mini o v)
  | changed k v last => (k.changedCode o v last).bits position
  | changedUnknown k v => (k.unknownCode o v).bits position
  | miniChanged k v last =>
    if k = .bool then Code.checkedBits position (k.mini o v)
    else if k.same v last then [false]
    else true :: Code.checkedBits (position + 1) (k.mini o v)
  | miniBytes signed src => Code.checkedBits position (Bitwire.miniBytes signed src)
  | between _ w min max outside =>
    Code.checkedBits position (Span.check min max >>= fun r => r.code o w outside)
  | ranged _ r w outside => Code.checkedBits position (r.code o w outside)
  | boundedFloat x min max => Code.checkedBits position (Bitwire.boundedFloat o x min max)
  | vector p v => ((v.map p.widen).code o).bits position
  | unitVector p v => Code.checkedBits position ((v.map p.widen).unitCode o)
  | quaternion p q => Code.checkedBits position ((q.map p.widen).code o)
  | matrix p m =>
    Code.checkedBits position ((Matrix.quaternion (Triple.map (Triple.map p.widen) m)).code o)

theorem appends_writeMiniChanged (k : Kind) (v last : k.Val) :
    Appends (writeMiniChanged k v last) fun o position => (miniChanged k v last).bits o position := by
  unfold writeMiniChanged bits
  by_cases hk : k = .bool
  · simp only [if_pos hk]
    exact appends_writeCode _
  · simp only [if_neg hk]
    by_cases hsame : k.same v last
    · simp only [if_pos hsame]
      exact appends_writeBit false
    · simp only [if_neg hsame]
      exact (appends_writeBit true).seq (appends_writeCode _)

/-- Every writing operation appends its bits and returns their number. -/
theorem appends (op : WriteOp) : Appends op.perform fun o position => op.bits o position := by
  cases op with
  | run src n right => exact appends_writeRun src n right
  | bit b => exact appends_writeBit b
  | align => exact appends_writeAlign
  | bytes src => exact appends_writeBytes src
  | alignedBytes src => exact appends_writeAlignedBytes src
  | padTo n => exact appends_padTo n
  | miniChanged k v last => exact appends_writeMiniChanged k v last
  | miniBytes signed src => exact Code.appends_writeChecked _
  | bounded src bound => exact appends_writeCode fun o => runCode o (src.take bound)
  | value k v => exact appends_writeCode fun o => .ok (k.code o v)
  | mini k v => exact appends_writeCode fun o => k.mini o v
  | changed k v last => exact appends_writeCode fun o => .ok (k.changedCode o v last)
  | changedUnknown k v => exact appends_writeCode fun o => .ok (k.unknownCode o v)
  | between _ w min max outside =>
    exact appends_writeCode fun o => Span.check min max >>= fun r => r.code o w outside
  | ranged _ r w outside => exact appends_writeCode fun o => r.code o w outside
  | boundedFloat x min max => exact appends_writeCode fun o => Bitwire.boundedFloat o x min max
  | vector p v => exact appends_writeCode fun o => .ok ((v.map p.widen).code o)
  | unitVector p v => exact appends_writeCode fun o => (v.map p.widen).unitCode o
  | quaternion p q => exact appends_writeCode fun o => (q.map p.widen).code o
  | matrix p m =>
    exact appends_writeCode fun o => (Matrix.quaternion (Triple.map (Triple.map p.widen) m)).code o

end WriteOp

end Bitwire
