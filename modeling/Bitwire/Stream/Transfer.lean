import Bitwire.Stream.Read
import Bitwire.Stream.Write

/-!
# Moving bits from one stream to another

The unread bits of a source stream are appended to another stream. Bits go one at a time until the
read position of the source is at a byte boundary; the rest are whole source bytes and go as one
run.
-/

namespace Bitwire.Stream

/-- Runs an action on another stream and returns that stream afterwards. -/
def onSource {α : Type} (x : StreamM α) (source : Stream) : WriteM (α × Stream) :=
  match x.run source with
  | .ok r => pure r
  | .error f => throw f

/-- Moves `k` bits one at a time: the loop of `write_stream`. -/
def transferBits : Nat → Stream → WriteM Stream
  | 0, source => pure source
  | k + 1, source => do
    let (bit, source) ← onSource readBit source
    let _ ← writeBit bit
    transferBits k source

/-- Moves the next `n` bits of `source`, which is returned with its read position behind them
(`write_stream`). -/
def transfer (source : Stream) (n : Nat) : WriteM (Nat × Stream) := do
  if source.payload < n then throw (.transferTooMuch n source.payload)
  else
    reserve n
    let single := min n (padding source.readPos)
    let source ← transferBits single source
    let rest := n - single
    if rest = 0 then pure (n, source)
    else
      let (src, source) ← onSource (do
        let s ← get
        let src ← s.buffer.bytesAt (s.readPos / 8) (bytesFor rest)
        set { s with readPos := s.readPos + rest }
        pure src) source
      let _ ← writeRun src rest false
      pure (n, source)

/-- Moves all unread bits of `source` (`write_stream_payload`). -/
def transferPayload (source : Stream) : WriteM (Nat × Stream) :=
  transfer source source.payload

end Bitwire.Stream
