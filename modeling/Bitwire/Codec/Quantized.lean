import Bitwire.Codec.Mini
import Bitwire.Ieee.Arith

/-!
# Numbers between bounds

A floating-point number between two bounds is mapped linearly to a 16-bit number, in single
precision, and written as the mini code of that; the numbers that can come back are
`(max - min) / 65535` apart. A number outside of the bounds counts as the nearer bound.

* `boundedSteps`, `ofBoundedSteps`: the map and the way back.
* `boundedFloat`, `readBoundedFloat`: the code and the way back.
-/

namespace Bitwire

/-- `65535` -/
def Single.steps : Single := ⟨0x477FFF00⟩

/-- The 16-bit number that stands for a number between two bounds. -/
def boundedSteps (x min max : Single) : Nat :=
  ((Single.steps * (x - min) / (max - min)).clamp (.zero .single) Single.steps).floor 0xFFFF

/-- The number between two bounds that a 16-bit number stands for. -/
def ofBoundedSteps (n : Nat) (min max : Single) : Single :=
  Binary.clamp (min + (max - min) * (Single.ofNat n / Single.steps)) min max

/-- The code of a number between two bounds; the nearer bound stands for a number outside. -/
def boundedFloat (o : ByteOrder) (x min max : Single) : Except Fault Code :=
  if min.lt max then pure (miniNumber o 2 false (boundedSteps x min max))
  else throw (.emptyInterval min max)

/-- Reads a number between two bounds (`read_float_range`). -/
def readBoundedFloat (min max : Single) : StreamM Single := do
  if min.lt max then
    let n ← readMiniNumber 2 false
    pure (ofBoundedSteps n min max)
  else throw (.emptyInterval min max)

/-- The code of a number in `[-1, 1]`. -/
def unitFloat (o : ByteOrder) (x : Single) : Code :=
  miniNumber o 2 false (boundedSteps x (-Single.one) Single.one)

/-- Reads a number in `[-1, 1]`. -/
def readUnitFloat : StreamM Single := readBoundedFloat (-Single.one) Single.one

/-- Appends a number between two bounds (`write_float_range`). -/
def Stream.writeBoundedFloat (x min max : Single) : WriteM Nat :=
  writeCode fun o => boundedFloat o x min max

end Bitwire
