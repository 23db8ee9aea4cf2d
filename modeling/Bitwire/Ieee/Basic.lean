/-!
# Binary floating-point numbers as bit patterns

A floating-point number is its interchange pattern: a sign, an exponent field and a fraction field.
Nothing is lost that way: two zeros and all the not-a-numbers keep their own patterns, while the
comparisons below are the arithmetical ones, in which a not-a-number is unordered and the zeros are
equal.

* `Binary`: a pattern of a given precision; `Single` and `Double` are the two precisions.
* `Binary.lt`, `Binary.le`, `Binary.same`: comparisons, through the integer `Binary.rank`.
* `Binary.floor`: the cut toward zero into `[0, bound]`.
-/

namespace Bitwire

/-- The two interchange formats. -/
inductive Precision
  | single
  | double
deriving DecidableEq, Repr

namespace Precision

/-- Width of a pattern. -/
@[reducible] def bits : Precision → Nat
  | .single => 32
  | .double => 64

/-- What the sign bit is worth in a pattern. -/
def signUnit : Precision → Nat
  | .single => 0x80000000
  | .double => 0x8000000000000000

/-- What a unit of the exponent field is worth in a pattern; the fraction field is below it. -/
def exponentUnit : Precision → Nat
  | .single => 0x800000
  | .double => 0x10000000000000

/-- Largest value of the exponent field: infinities and not-a-numbers. -/
def topExponent : Precision → Nat
  | .single => 255
  | .double => 2047

/-- The power of two that a unit of the subnormal fraction stands for. -/
def leastPower : Precision → Int
  | .single => -149
  | .double => -1074

end Precision

/-- A floating-point number, as its pattern. -/
structure Binary (p : Precision) where
  pattern : BitVec p.bits
deriving DecidableEq

/-- A number of 32 bits. -/
abbrev Single := Binary .single

/-- A number of 64 bits. -/
abbrev Double := Binary .double

namespace Binary

variable {p : Precision}

/-- Whether the sign bit is set. -/
def negative (x : Binary p) : Bool := p.signUnit ≤ x.pattern.toNat

/-- The pattern without its sign, as a number; it grows with the absolute value. -/
def size (x : Binary p) : Nat := x.pattern.toNat % p.signUnit

/-- The exponent field. -/
def exponentField (x : Binary p) : Nat := x.size / p.exponentUnit

/-- The fraction field. -/
def fractionField (x : Binary p) : Nat := x.size % p.exponentUnit

/-- The `size` of the infinities. -/
def infiniteSize (p : Precision) : Nat := p.topExponent * p.exponentUnit

/-- Not a number: beyond the infinities. -/
def isNaN (x : Binary p) : Bool := infiniteSize p < x.size

/-- Whether the number is one of the infinities. -/
def isInfinite (x : Binary p) : Bool := x.size = infiniteSize p

/-- Place of a number in the order of the numbers; the zeros share theirs. -/
def rank (x : Binary p) : Int := if x.negative then -(x.size : Int) else x.size

/-- Less, as numbers. -/
def lt (x y : Binary p) : Bool := !x.isNaN && !y.isNaN && decide (x.rank < y.rank)

/-- Less or equal, as numbers. -/
def le (x y : Binary p) : Bool := !x.isNaN && !y.isNaN && decide (x.rank ≤ y.rank)

/-- Equal, as numbers. -/
def same (x y : Binary p) : Bool := !x.isNaN && !y.isNaN && decide (x.rank = y.rank)

/-- The pattern with the given sign and remaining bits. -/
def ofParts (p : Precision) (negative : Bool) (size : Nat) : Binary p :=
  ⟨BitVec.ofNat _ ((if negative then p.signUnit else 0) + size)⟩

/-- The number with the sign of `y`. -/
def withSignOf (x y : Binary p) : Binary p := ofParts p y.negative x.size

/-- The number without its sign. -/
def abs (x : Binary p) : Binary p := ofParts p false x.size

/-- The number with its sign changed. -/
def neg (x : Binary p) : Binary p := ofParts p (!x.negative) x.size

/-- The zero without a sign. -/
def zero (p : Precision) : Binary p := ofParts p false 0

/-- The not-a-number with its quiet bit set, the leading bit of the fraction. -/
def quiet (x : Binary p) : Binary p := ⟨x.pattern ||| BitVec.ofNat _ (p.exponentUnit / 2)⟩

/-- What an invalid operation on numbers gives: the quiet not-a-number with a sign and no other
fraction bit. -/
def invalid (p : Precision) : Binary p :=
  ofParts p true (infiniteSize p + p.exponentUnit / 2)

/-- The larger number; a not-a-number gives way to the other operand. -/
def max (x y : Binary p) : Binary p := if x.isNaN then y else if x.lt y then y else x

/-- The smaller number; a not-a-number gives way to the other operand. -/
def min (x y : Binary p) : Binary p := if x.isNaN then y else if y.lt x then y else x

/-- The number brought into `[low, high]`; a not-a-number stays. -/
def clamp (x low high : Binary p) : Binary p :=
  let x := if x.lt low then low else x
  if high.lt x then high else x

/-- The absolute value of a finite number as `m · 2 ^ q`. -/
def parts (x : Binary p) : Nat × Int :=
  if x.exponentField = 0 then (x.fractionField, p.leastPower)
  else (p.exponentUnit + x.fractionField, p.leastPower + (x.exponentField - 1))

/-- The number cut toward zero and brought into `[0, bound]`; a not-a-number gives zero. -/
def floor (x : Binary p) (bound : Nat) : Nat :=
  if x.isNaN || x.negative then 0
  else if x.isInfinite then bound
  else
    let (m, q) := x.parts
    Nat.min bound (m <<< q.toNat >>> (-q).toNat)

end Binary

end Bitwire
