import Bitwire.Codec.Mini

/-!
# Ranged codes

A number known to lie between two bounds is written as its offset from the lower one, with as many
bits as the largest offset needs: its bytes from the least significant one up, the last one with
only its low bits. If numbers outside of the bounds are allowed, a bit says whether the number is
one of them; it is then in its mini code.

* `leadingZeros`: by halving the window in which the leading one bit lies.
* `Span`: two bounds in order, with the width `Span.bits` of its offsets.
* `Span.code`, `Span.read`: the code and the way back; `Stream.writeBetween` and
  `Stream.readBetween` take the bounds themselves.
-/

namespace Bitwire

/-! ## Leading zeros -/

/-- The search for the leading one bit of a number: what is left of it, the number of leading zeros
that it has if nothing is left, and half the width of the window it lies in. -/
structure Window where
  rest : Nat
  count : Nat
  half : Nat
deriving DecidableEq, Repr

namespace Window

/-- Goes on to the upper half of the window, if it has a one bit, and else to the lower half. -/
def narrow (w : Window) : Window :=
  let upper := w.rest >>> w.half
  if upper ≠ 0 then ⟨upper, w.count - w.half, w.half / 2⟩ else { w with half := w.half / 2 }

/-- The count for a window of two bits. -/
def close (w : Window) : Nat :=
  if w.rest >>> 1 ≠ 0 then w.count - 2 else w.count - w.rest

theorem half_narrow (w : Window) : w.narrow.half = w.half / 2 := by
  unfold narrow; dsimp only; split <;> rfl

/-- The number of leading zeros. -/
def search (w : Window) : Nat := if 2 ≤ w.half then search w.narrow else w.close
termination_by w.half
decreasing_by rw [half_narrow]; omega

end Window

/-- The number of leading zeros of the low `width` bits of a number. -/
def leadingZeros (x width : Nat) : Nat := Window.search ⟨x % (1 <<< width), width, width / 2⟩

/-- The number of leading zeros in a width that integers have (`leading_zero_count`). -/
def countLeadingZeros (x : UInt64) (width : Nat) : Except Fault Nat :=
  if width = 8 ∨ width = 16 ∨ width = 32 ∨ width = 64 then pure (leadingZeros x.toNat width)
  else throw (.unsupportedWidth width)

/-! ## Spans -/

/-- Bounds for a number (`IntegerRange`). -/
structure Span (t : IntType) where
  min : Word t
  max : Word t
  le : min.value ≤ max.value
deriving DecidableEq

namespace Span

variable {t : IntType}

/-- The span between two bounds, which have to be in order (`ensure_range`). -/
def check (min max : Word t) : Except Fault (Span t) :=
  if h : min.value ≤ max.value then pure ⟨min, max, h⟩
  else throw (.invertedRange min.value max.value)

/-- Number of bits of an offset (`required_bits`). -/
def bits (r : Span t) : Nat := t.bits - leadingZeros (r.max - r.min).toNat t.bits

/-- Whether a number lies between the bounds (`contains`). -/
def contains (r : Span t) (w : Word t) : Bool :=
  r.min.value ≤ w.value ∧ w.value ≤ r.max.value

/-- The span as text. -/
def describe (r : Span t) : String :=
  s!"IntegerRange \x7b min: {r.min.value}, max: {r.max.value}, required_bits: {r.bits} \x7d"

/-- The code of a number as its offset. -/
def offsetCode (o : ByteOrder) (r : Span t) (w : Word t) : Code :=
  if r.bits = 0 then []
  else [.run (o.reorder .little (Word.image o (w - r.min))) r.bits true]

/-- The code of a number, which has to lie between the bounds unless others are allowed: what
`write_ranged` appends. -/
def code (o : ByteOrder) (r : Span t) (w : Word t) (outside : Bool) : Except Fault Code :=
  if outside then
    if r.contains w then pure (.bit false :: r.offsetCode o w)
    else pure (.bit true :: miniNumber o t.bytes t.signed w.toNat)
  else if r.contains w then pure (r.offsetCode o w)
  else throw (.outsideRange w.value r.min.value r.max.value)

/-- Reads the offset of a number. -/
def readOffset (r : Span t) : StreamM (Word t) := do
  if r.bits = 0 then pure r.min
  else
    let image ← Stream.readInto (List.replicate t.bytes 0) r.bits true
    let o ← Stream.order
    pure (r.min + Word.ofImage t o (ByteOrder.little.reorder o image))

/-- Reads a number (`read_ranged`). -/
def read (r : Span t) (outside : Bool) : StreamM (Word t) := do
  let escaped ← if outside then Stream.readBit else pure false
  if escaped then return BitVec.ofNat t.bits (← readMiniNumber t.bytes t.signed)
  else r.readOffset

end Span

/-- Number of bits of an offset between two bounds, which have to be in order (`len_integer_range`). -/
def offsetBits {t : IntType} (min max : Word t) : Except Fault Nat := do
  let r ← Span.check min max
  pure r.bits

namespace Stream

variable {t : IntType}

/-- Appends a number by its offset in a span (`write_ranged`). -/
def writeRanged (r : Span t) (w : Word t) (outside : Bool) : WriteM Nat :=
  writeCode fun o => r.code o w outside

/-- Appends a number with bounds that have to be in order (`write_integer_range`). -/
def writeBetween (w min max : Word t) (outside : Bool) : WriteM Nat :=
  writeCode fun o => do
    let r ← Span.check min max
    r.code o w outside

/-- Reads a number with bounds that have to be in order (`read_integer_range`). -/
def readBetween (min max : Word t) (outside : Bool) : StreamM (Word t) := do
  let r ← Span.check min max
  r.read outside

end Stream

end Bitwire
