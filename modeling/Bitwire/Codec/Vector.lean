import Bitwire.Codec.Kind
import Bitwire.Codec.Quantized

/-!
# Vectors

A vector is sent as its magnitude, at full width, and its direction, one 16-bit number for each
component; of a short vector only the magnitude is sent, and the zero vector comes back. A vector
with components in `[-1, 1]` is sent without its magnitude. The arithmetic is in double precision.

* `Triple.code`, `Triple.read`: vectors.
* `Triple.unitCode`, `Triple.readUnit`: vectors with components in `[-1, 1]`.
-/

namespace Bitwire

/-! ## Precision -/

/-- The same number in double precision (`widen`). -/
def Precision.widen : (p : Precision) → Binary p → Double
  | .single, x => Single.widen x
  | .double, x => x

/-- The nearest number of a precision (`narrow`). -/
def Precision.narrow : (p : Precision) → Double → Binary p
  | .single, x => Double.narrow x
  | .double, x => x

/-! ## Components -/

/-- Vectors up to this magnitude are written as the zero vector (`MIN_MAGNITUDE`). -/
def minMagnitude : Single := ⟨0x3727C5AC⟩

/-- Three components. -/
structure Triple (α : Type) where
  x : α
  y : α
  z : α

/-- No component is far from `[-1, 1]` (`ensure_unit_components`). -/
def expectUnit (components : List Double) : Except Fault Unit :=
  if components.all fun c => (-Double.unitLimit).le c && c.le Double.unitLimit then pure ()
  else throw (.notNormalized components)

namespace Triple

variable {α β : Type}

/-- Applies a function to each component. -/
def map (f : α → β) (v : Triple α) : Triple β := ⟨f v.x, f v.y, f v.z⟩

/-- The components in order. -/
def toList (v : Triple α) : List α := [v.x, v.y, v.z]

/-- Reads three components, one after the other. -/
def readEach (x : StreamM α) : StreamM (Triple α) := do
  let a ← x
  let b ← x
  let c ← x
  pure ⟨a, b, c⟩

/-- The magnitude of a vector. -/
def magnitude (v : Triple Double) : Double := (v.x * v.x + v.y * v.y + v.z * v.z).sqrt

/-- The code of a vector: its magnitude and, unless it is short, its direction. -/
def code (o : ByteOrder) (v : Triple Double) : Code :=
  let m := v.magnitude
  .append (numberCode o 4 m.narrow.pattern.toNat)
    (if minMagnitude.lt m.narrow then v.toList.flatMap fun c => unitFloat o (c / m).narrow else [])

/-- Reads a vector (`read_vector`). -/
def read (p : Precision) : StreamM (Triple (Binary p)) := do
  let m ← Kind.read .single
  if minMagnitude.lt m then
    readEach (do return p.narrow ((← readUnitFloat) * m : Single).widen)
  else pure (map p.narrow ⟨.zero .double, .zero .double, .zero .double⟩)

/-- The code of a vector with components in `[-1, 1]`. -/
def unitCode (o : ByteOrder) (v : Triple Double) : Except Fault Code := do
  expectUnit v.toList
  pure (v.toList.flatMap fun c => unitFloat o c.narrow)

/-- Reads a vector with components in `[-1, 1]` (`read_norm_vector`). -/
def readUnit (p : Precision) : StreamM (Triple (Binary p)) :=
  readEach (do return p.narrow (← readUnitFloat).widen)

end Triple

namespace Stream

/-- Appends a vector (`write_vector`). -/
def writeVector (p : Precision) (v : Triple (Binary p)) : WriteM Nat :=
  writeCode fun o => pure ((v.map p.widen).code o)

/-- Appends a vector with components in `[-1, 1]` (`write_norm_vector`). -/
def writeUnitVector (p : Precision) (v : Triple (Binary p)) : WriteM Nat :=
  writeCode fun o => (v.map p.widen).unitCode o

end Stream

end Bitwire
