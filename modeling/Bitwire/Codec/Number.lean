import Bitwire.Codec.Piece
import Bitwire.Stream.Read

/-!
# Full-width numbers

A number of `k` bytes is laid out in memory as its host would, brought into network order and
written with all its bits. Reading takes the same steps back, so that the bits on the wire do not
depend on the order of either host.
-/

namespace Bitwire

/-- The full-width code of a number of `k` bytes (`write_int`). -/
def numberCode (o : ByteOrder) (k n : Nat) : Code :=
  [.run (o.reorder .network (o.bytes k n)) (8 * k) true]

/-- Reads a full-width number of `k` bytes (`read_int`). -/
def readNumber (k : Nat) : StreamM Nat := do
  let image ← Stream.readRun (8 * k) true
  let o ← Stream.order
  pure (o.number (ByteOrder.network.reorder o image))

end Bitwire
