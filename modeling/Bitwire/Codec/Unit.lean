import Bitwire.Codec.Mini
import Bitwire.Ieee.Arith

/-!
# Mini codes of floating-point numbers

A number in `[-1, 1]` is mapped linearly to an unsigned integer, of 16 bits in single and of 32 bits
in double precision, and the integer is written in its mini code. A little outside of the interval
the number counts as its nearer end; from `1.01` on it is refused.
-/

namespace Bitwire

namespace Single

/-- `1.01` -/
def unitLimit : Single := ⟨0x3F8147AE⟩

/-- `32767.5`, half the largest 16-bit number. -/
def unitScale : Single := ⟨0x46FFFF00⟩

/-- The 16-bit number that stands for a number in `[-1, 1]`. -/
def toUnitSteps (x : Single) : Nat :=
  Binary.floor (round ((x.clamp (-one) one + one) * unitScale)) 0xFFFF

/-- The number that a 16-bit number stands for. -/
def ofUnitSteps (n : Nat) : Single := ofNat n / unitScale - one

/-- The mini code (`encode_mini` of single precision). -/
def mini (o : ByteOrder) (x : Single) : Except Fault Code :=
  if (-unitLimit).lt x && x.lt unitLimit then pure (miniNumber o 2 false x.toUnitSteps)
  else throw (.notCompressible x)

/-- Reads a mini code (`decode_mini`). -/
def readMini : StreamM Single := do
  let n ← readMiniNumber 2 false
  pure (ofUnitSteps n)

end Single

namespace Double

/-- `1.01` -/
def unitLimit : Double := ⟨0x3FF028F5C28F5C29⟩

/-- `2147483648`, half the number of 32-bit numbers. -/
def unitScale : Double := ⟨0x41E0000000000000⟩

/-- `4294967295`, the largest 32-bit number. -/
def unitTop : Double := ⟨0x41EFFFFFFFE00000⟩

/-- The 32-bit number that stands for a number in `[-1, 1]`. -/
def toUnitSteps (x : Double) : Nat :=
  Binary.floor ((round ((x.clamp (-one) one + one) * unitScale)).min unitTop) 0xFFFFFFFF

/-- The number that a 32-bit number stands for. -/
def ofUnitSteps (n : Nat) : Double := ofNat n / unitScale - one

/-- The mini code (`encode_mini` of double precision). -/
def mini (o : ByteOrder) (x : Double) : Except Fault Code :=
  if (-unitLimit).lt x && x.lt unitLimit then pure (miniNumber o 4 false x.toUnitSteps)
  else throw (.notCompressible x)

/-- Reads a mini code (`decode_mini`). -/
def readMini : StreamM Double := do
  let n ← readMiniNumber 4 false
  pure (ofUnitSteps n)

end Double

end Bitwire
