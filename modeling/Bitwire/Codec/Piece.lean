import Bitwire.Stream.Write

/-!
# Codes as data

What a codec appends is a value of its own: a list of pieces, each a single bit, a run of bits from
source bytes, or the padding to a byte boundary. A codec computes this list from a value alone;
only `Code.write` touches a stream.
-/

namespace Bitwire

/-- One append to a stream. -/
inductive Piece
  | bit (b : Bool)
  /-- The first `n` bits of `src`, as in `Stream.writeRun`. -/
  | run (src : List UInt8) (n : Nat) (right : Bool)
  /-- Zeros up to the next byte boundary. -/
  | align
deriving DecidableEq, Repr

/-- What is appended for a value. -/
abbrev Code := List Piece

/-- Appends a piece and returns the number of its bits. -/
def Piece.write : Piece → WriteM Nat
  | bit b => Stream.writeBit b
  | run src n right => Stream.writeRun src n right
  | align => Stream.writeAlign

namespace Code

/-- Appends the pieces of a code one after the other and returns the number of bits. -/
def write : Code → WriteM Nat
  | [] => pure 0
  | p :: ps => do
    let a ← p.write
    let b ← write ps
    pure (a + b)

/-- Appends a code unless its value was refused. -/
def writeChecked : Except Fault Code → WriteM Nat
  | .ok code => code.write
  | .error f => throw f

/-- Whole bytes. -/
def ofBytes (src : List UInt8) : Code :=
  if src.isEmpty then [] else [.run src (8 * src.length) true]

end Code

/-- Appends the code that `f` gives for the host order of the stream. -/
def Stream.writeCode (f : ByteOrder → Except Fault Code) : WriteM Nat := do
  let o := (← get).stream.setup.order
  Code.writeChecked (f o)

end Bitwire
