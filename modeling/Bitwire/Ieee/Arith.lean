import Bitwire.Ieee.Basic

/-!
# Floating-point arithmetic

Each operation rounds to nearest in the precision of its operands, with ties to even, as the
arithmetic unit does. A result that is not a number is fixed by two rules: the first operand that is
not a number, made quiet, is the result, and an operation that is invalid on its numbers gives
`Binary.invalid`. Conversions between the precisions keep the sign and the leading fraction bits of
a not-a-number.
-/

namespace Bitwire

namespace Binary

variable {p : Precision}

/-- The result of an operation on two operands, given what the arithmetic unit computes. -/
def settle (x y r : Binary p) : Binary p :=
  if x.isNaN then x.quiet else if y.isNaN then y.quiet else if r.isNaN then invalid p else r

end Binary

namespace Double

/-- The number as the arithmetic unit holds it. -/
def toFloat (x : Double) : Float := Float.ofBits (UInt64.ofBitVec x.pattern)

/-- The pattern of a number that the arithmetic unit holds. -/
def ofFloat (f : Float) : Double := ⟨f.toBits.toBitVec⟩

/-- `1` -/
def one : Double := ⟨0x3FF0000000000000⟩

/-- `2` -/
def two : Double := ⟨0x4000000000000000⟩

/-- A natural number below `2 ^ 53`. -/
def ofNat (n : Nat) : Double := ofFloat (Float.ofNat n)

def add (x y : Double) : Double := Binary.settle x y (ofFloat (x.toFloat + y.toFloat))

def sub (x y : Double) : Double := Binary.settle x y (ofFloat (x.toFloat - y.toFloat))

def mul (x y : Double) : Double := Binary.settle x y (ofFloat (x.toFloat * y.toFloat))

def div (x y : Double) : Double := Binary.settle x y (ofFloat (x.toFloat / y.toFloat))

def sqrt (x : Double) : Double := Binary.settle x x (ofFloat x.toFloat.sqrt)

/-- The nearest whole number, halves away from zero. -/
def round (x : Double) : Double := Binary.settle x x (ofFloat x.toFloat.round)

instance : Add Double := ⟨add⟩
instance : Sub Double := ⟨sub⟩
instance : Mul Double := ⟨mul⟩
instance : Div Double := ⟨div⟩
instance : Neg Double := ⟨Binary.neg⟩

end Double

namespace Single

/-- The number as the arithmetic unit holds it. -/
def toFloat (x : Single) : Float32 := Float32.ofBits (UInt32.ofBitVec x.pattern)

/-- The pattern of a number that the arithmetic unit holds. -/
def ofFloat (f : Float32) : Single := ⟨f.toBits.toBitVec⟩

/-- `1` -/
def one : Single := ⟨0x3F800000⟩

/-- A natural number below `2 ^ 24`. -/
def ofNat (n : Nat) : Single := ofFloat (Float32.ofNat n)

def add (x y : Single) : Single := Binary.settle x y (ofFloat (x.toFloat + y.toFloat))

def sub (x y : Single) : Single := Binary.settle x y (ofFloat (x.toFloat - y.toFloat))

def mul (x y : Single) : Single := Binary.settle x y (ofFloat (x.toFloat * y.toFloat))

def div (x y : Single) : Single := Binary.settle x y (ofFloat (x.toFloat / y.toFloat))

/-- The nearest whole number, halves away from zero. -/
def round (x : Single) : Single := Binary.settle x x (ofFloat x.toFloat.round)

instance : Add Single := ⟨add⟩
instance : Sub Single := ⟨sub⟩
instance : Mul Single := ⟨mul⟩
instance : Div Single := ⟨div⟩
instance : Neg Single := ⟨Binary.neg⟩

/-- The same number in double precision. -/
def widen (x : Single) : Double :=
  if x.isNaN then
    (Binary.ofParts .double x.negative
      (Binary.infiniteSize .double + x.fractionField <<< 29)).quiet
  else .ofFloat x.toFloat.toFloat

end Single

/-- The nearest number in single precision. -/
def Double.narrow (x : Double) : Single :=
  if x.isNaN then
    (Binary.ofParts .single x.negative
      (Binary.infiniteSize .single + x.fractionField >>> 29)).quiet
  else .ofFloat x.toFloat.toFloat32

end Bitwire
