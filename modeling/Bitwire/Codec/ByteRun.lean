import Bitwire.Codec.Mini

/-!
# Runs of bytes with their length

A run of bytes is sent as its length, in the mini code of a 32-bit number, and its bytes behind the
next byte boundary. An empty run is its length alone: neither side aligns. The writer cuts a run to
its bound; the reader refuses a length above its own.
-/

namespace Bitwire

/-- The code of a run of bytes. -/
def runCode (o : ByteOrder) (src : List UInt8) : Except Fault Code :=
  if src.length ≤ 0xFFFFFFFF then
    pure (miniNumber o 4 false src.length ++
      if src.isEmpty then [] else .align :: Code.ofBytes src)
  else throw (.lengthTooWide src.length)

namespace Stream

/-- Appends a run of bytes, cut to at most `bound` of them (`write_bounded_bytes`). -/
def writeBounded (src : List UInt8) (bound : Nat) : WriteM Nat :=
  writeCode fun o => runCode o (src.take bound)

/-- Reads a run of bytes, of which there may be at most `bound` (`read_bounded_bytes`). -/
def readBounded (bound : Nat) : StreamM (List UInt8) := do
  let length ← readMiniNumber 4 false
  if bound < length then throw (.lengthOverBound length bound)
  else if length = 0 then pure []
  else readAlignedBytes length

end Stream

end Bitwire
