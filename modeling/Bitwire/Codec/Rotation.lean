import Bitwire.Codec.Vector

/-!
# Rotations

A unit quaternion is sent as four signs and the absolute values of `x`, `y` and `z`, a 16-bit number
each; the absolute value of `w` is what they leave to one. A rotation matrix is sent as the unit
quaternion of the same rotation.

* `Quaternion.code`, `Quaternion.read`: unit quaternions.
* `Matrix.quaternion`, `Quaternion.matrix`: from a matrix to a quaternion and back.
-/

namespace Bitwire

/-- `65535` -/
def Double.steps : Double := ⟨0x40EFFFE000000000⟩

/-- Four components, the first one real. -/
structure Quaternion (α : Type) where
  w : α
  x : α
  y : α
  z : α

/-- Three rows. -/
abbrev Matrix (α : Type) := Triple (Triple α)

namespace Quaternion

variable {α β : Type}

/-- Applies a function to each component. -/
def map (f : α → β) (q : Quaternion α) : Quaternion β := ⟨f q.w, f q.x, f q.y, f q.z⟩

/-- The components in order. -/
def toList (q : Quaternion α) : List α := [q.w, q.x, q.y, q.z]

/-- The 16-bit number that stands for an absolute value in `[0, 1]`. -/
def absSteps (c : Double) : Nat :=
  Binary.floor (Binary.min ((c.abs : Double) * Double.steps) Double.steps) 0xFFFF

/-- The code of a unit quaternion. -/
def code (o : ByteOrder) (q : Quaternion Double) : Except Fault Code := do
  expectUnit q.toList
  pure (q.toList.map (fun c => .bit (c.lt (.zero .double))) ++
    [q.x, q.y, q.z].flatMap fun c => miniNumber o 2 false (absSteps c))

/-- Reads an absolute value and gives it a sign. -/
def readSigned (negative : Bool) : StreamM Double := do
  let n ← readMiniNumber 2 false
  let c := Double.ofNat n / Double.steps
  pure (if negative then -c else c)

/-- The absolute value of `w` that the other components leave, or zero. -/
def realPart (x y z : Double) : Double :=
  Double.sqrt (Binary.max (Double.one - x * x - y * y - z * z) (.zero .double))

/-- Reads a unit quaternion. -/
def read : StreamM (Quaternion Double) := do
  let negative ← Stream.readBit
  let signs ← Triple.readEach Stream.readBit
  let x ← readSigned signs.x
  let y ← readSigned signs.y
  let z ← readSigned signs.z
  let w := realPart x y z
  pure ⟨if negative then -w else w, x, y, z⟩

/-- The rotation matrix of a unit quaternion. -/
def matrix (q : Quaternion Double) : Matrix Double :=
  let ww := q.w * q.w
  let xx := q.x * q.x
  let yy := q.y * q.y
  let zz := q.z * q.z
  let xy := q.x * q.y
  let zw := q.z * q.w
  let xz := q.x * q.z
  let yw := q.y * q.w
  let yz := q.y * q.z
  let xw := q.x * q.w
  let two := Double.two
  ⟨⟨xx - yy - zz + ww, two * (xy - zw), two * (xz + yw)⟩,
    ⟨two * (xy + zw), -xx + yy - zz + ww, two * (yz - xw)⟩,
    ⟨two * (xz - yw), two * (yz + xw), -xx - yy + zz + ww⟩⟩

end Quaternion

namespace Matrix

/-- Half the square root of a sum, or zero if it is negative or not a number (`half_root`). -/
def halfRoot (sum : Double) : Double := Double.sqrt (Binary.max sum (.zero .double)) / Double.two

/-- The unit quaternion of a rotation matrix. -/
def quaternion (m : Matrix Double) : Quaternion Double :=
  let one := Double.one
  let x := halfRoot (one + m.x.x - m.y.y - m.z.z)
  let y := halfRoot (one - m.x.x + m.y.y - m.z.z)
  let z := halfRoot (one - m.x.x - m.y.y + m.z.z)
  { w := halfRoot (one + m.x.x + m.y.y + m.z.z)
    x := x.withSignOf (m.z.y - m.y.z)
    y := y.withSignOf (m.x.z - m.z.x)
    z := z.withSignOf (m.y.x - m.x.y) }

end Matrix

namespace Stream

/-- Appends a unit quaternion (`write_norm_quat`). -/
def writeQuaternion (p : Precision) (q : Quaternion (Binary p)) : WriteM Nat :=
  writeCode fun o => (q.map p.widen).code o

/-- Appends a rotation matrix (`write_orth_matrix`). -/
def writeMatrix (p : Precision) (m : Matrix (Binary p)) : WriteM Nat :=
  writeCode fun o => (Matrix.quaternion (Triple.map (Triple.map p.widen) m)).code o

/-- Reads a unit quaternion (`read_norm_quat`). -/
def readQuaternion (p : Precision) : StreamM (Quaternion (Binary p)) := do
  let q ← Quaternion.read
  pure (q.map p.narrow)

/-- Reads a rotation matrix (`read_orth_matrix`). -/
def readMatrix (p : Precision) : StreamM (Matrix (Binary p)) := do
  let q ← Quaternion.read
  pure (Triple.map (Triple.map p.narrow) q.matrix)

end Stream

end Bitwire
