/-!
# Shortest decimal forms

The reals that a binary floating-point number stands for are those nearer to it than to its
neighbours. `shortest` picks the decimal with the fewest digits among them and, of those with that
many digits, the one nearest to the number; of two equally near ones it takes the larger.

* `Interval`: a number `m · 2 ^ q` with the reals that round to it.
* `Decimal`: a coefficient and a power of ten, with its positional and its exponent spelling.
* `shortest`: the search for the coarsest power of ten that has a multiple in the interval.
-/

namespace Bitwire

/-- The number `coefficient · 10 ^ exponent`. -/
structure Decimal where
  coefficient : Nat
  exponent : Int
deriving DecidableEq, Repr

namespace Decimal

/-- The digits of the coefficient. -/
def digits (d : Decimal) : List Char := Nat.toDigits 10 d.coefficient

/-- The power of ten of the leading digit. -/
def magnitude (d : Decimal) : Int := (d.digits.length : Int) - 1 + d.exponent

/-- A run of zeros. -/
def zeros (n : Nat) : List Char := List.replicate n '0'

/-- The digits before and after the decimal point when no exponent is written. -/
def split (d : Decimal) : List Char × List Char :=
  let ds := d.digits
  let places := (-d.exponent).toNat
  if 0 ≤ d.exponent then (ds ++ zeros d.exponent.toNat, [])
  else if places < ds.length then ds.splitAt (ds.length - places)
  else (['0'], zeros (places - ds.length) ++ ds)

/-- Positional spelling; `empty` is what stands for a fraction without digits. -/
def positional (d : Decimal) (empty : String) : String :=
  let (whole, fraction) := d.split
  String.ofList whole ++ (if fraction.isEmpty then empty else "." ++ String.ofList fraction)

/-- Exponent spelling: one digit, the others after a point, and the power of ten. -/
def scientific (d : Decimal) : String :=
  let mantissa := match d.digits with
    | [] => []
    | [c] => [c]
    | c :: cs => c :: '.' :: cs
  String.ofList mantissa ++ "e" ++ toString d.magnitude

end Decimal

/-- The number `m · 2 ^ q` and the reals that round to it: half a unit above, and below half a unit
or, where the spacing changes, a quarter. The ends belong to it when `m` is even. -/
structure Interval where
  m : Nat
  q : Int
  quarterBelow : Bool

namespace Interval

/-- `x` quarters of a unit of the number, measured in steps of `10 ^ k`, as a fraction. -/
def inSteps (i : Interval) (x : Nat) (k : Int) : Nat × Nat :=
  let p := i.q - 2
  (x <<< p.toNat * Nat.pow 10 (-k).toNat, 1 <<< (-p).toNat * Nat.pow 10 k.toNat)

/-- The multiple of `10 ^ k` nearest to the number, if one of its two neighbours on that grid
rounds to it. -/
def nearestOn (i : Interval) (k : Int) : Option Nat :=
  let (v, d) := i.inSteps (4 * i.m) k
  let (low, _) := i.inSteps (4 * i.m - if i.quarterBelow then 1 else 2) k
  let (high, _) := i.inSteps (4 * i.m + 2) k
  let below := v / d
  let closed := i.m % 2 = 0
  let downFits := low < below * d ∨ (closed ∧ low = below * d)
  let upFits := (below + 1) * d < high ∨ (closed ∧ (below + 1) * d = high)
  if upFits ∧ (¬ downFits ∨ d ≤ 2 * (v - below * d)) then some (below + 1)
  else if downFits then some below
  else none

/-- The first hit on the grids `10 ^ k`, `10 ^ (k - 1)`, … -/
def search (i : Interval) : Nat → Int → Decimal
  | 0, k => ⟨0, k⟩
  | steps + 1, k =>
    match i.nearestOn k with
    | some c => ⟨c, k⟩
    | none => i.search steps (k - 1)

/-- A power of ten above the number. -/
def ceiling (i : Interval) : Int := (i.q + i.m.log2 + 1) * 30103 / 100000 + 1

end Interval

/-- The shortest decimal that rounds to the number. -/
def shortest (i : Interval) : Decimal := i.search 24 i.ceiling

end Bitwire
