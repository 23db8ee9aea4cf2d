import Bitwire.Decimal.Shortest
import Bitwire.Ieee.Basic

/-!
# Floating-point numbers as text

Two spellings of the shortest decimal that rounds to a number. `Binary.plain` never writes an
exponent and writes whole numbers without a point. `Binary.tagged` always shows that the number is
no integer, by a point or an exponent, and takes the exponent outside `[1e-4, 1e16)`.
-/

namespace Bitwire

namespace Binary

variable {p : Precision}

/-- The reals that round to a finite number. -/
def interval (x : Binary p) : Interval :=
  let (m, q) := x.parts
  ⟨m, q, x.fractionField = 0 && 1 < x.exponentField⟩

/-- The shortest decimal of the absolute value of a finite number. -/
def decimal (x : Binary p) : Decimal := if x.size = 0 then ⟨0, 0⟩ else shortest x.interval

/-- Writes a number whose finite absolute values are spelled by `spell`. -/
def spelled (spell : Decimal → String) (x : Binary p) : String :=
  if x.isNaN then "NaN"
  else (if x.negative then "-" else "") ++ if x.isInfinite then "inf" else spell x.decimal

/-- Without an exponent; whole numbers without a point. -/
def plain (x : Binary p) : String := spelled (·.positional "") x

/-- With a point or an exponent. -/
def tagged (x : Binary p) : String :=
  spelled (fun d =>
    if -4 ≤ d.magnitude ∧ d.magnitude < 16 then d.positional ".0" else d.scientific) x

end Binary

end Bitwire
