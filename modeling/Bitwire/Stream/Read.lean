import Bitwire.Stream.Basic

/-!
# Reading bits

A read takes bits from the read position on and moves it past them; nothing else of the stream
changes. A run of bits fills whole bytes and, where it ends within a byte, the low or the high bits
of the last one, whose other bits are zero.

* `takeRun`: the bytes of a run; `expect`: what has to hold before a run is read.
* `readBit`, `readRun`, `readInto`, `readBytes`, `readAlign`, `readAlignedBytes`, `skip`: reads.
-/

namespace Bitwire

namespace Buffer

/-- The `len ≤ 8` bits from a position on, at the low end of a byte if `right` and else at its high
end. -/
def bitsAt (buffer : Buffer) (right : Bool) (position len : Nat) : Except Fault UInt8 := do
  let i := position / 8
  let offset := position % 8
  let first := (← buffer.byteAt i) <<< UInt8.ofNat offset
  let b ←
    if offset ≠ 0 ∧ 8 - offset < len then do
      pure (first ||| (← buffer.byteAt (i + 1)) >>> UInt8.ofNat (8 - offset))
    else pure first
  if len < 8 then
    let b := b &&& highMask len
    pure (if right then b >>> UInt8.ofNat (8 - len) else b)
  else pure b

/-- The bytes of a run of `n` bits, gathered bit by bit from the one or two bytes that each
covers. -/
def gatherRun (buffer : Buffer) (right : Bool) (position n : Nat) : Except Fault (List UInt8) :=
  (List.range (bytesFor n)).mapM fun i =>
    buffer.bitsAt right (position + 8 * i) (min 8 (n - 8 * i))

/-- The bytes of a run of `n` bits. -/
def loadRun (buffer : Buffer) (right : Bool) (position n : Nat) : Except Fault (List UInt8) :=
  if position % 8 = 0 ∧ n % 8 = 0 then buffer.bytesAt (position / 8) (n / 8)
  else buffer.gatherRun right position n

end Buffer

namespace Stream

/-- A run is not empty and does not go past the written bits: the first checks of `read_bits`. -/
def expect (n : Nat) : StreamM Unit := do
  let s ← get
  if n = 0 then throw .emptyRead
  else if s.payload < n then throw (.readTooMuch n s.payload)
  else pure ()

/-- The bytes of the next `n` bits: the copying in `read_bits`. -/
def takeRun (n : Nat) (right : Bool) : StreamM (List UInt8) := do
  let s ← get
  let run ← s.buffer.loadRun right s.readPos n
  set { s with readPos := s.readPos + n }
  pure run

/-- Reads `n` bits into as few bytes as hold them (`read_bits`). -/
def readRun (n : Nat) (right : Bool) : StreamM (List UInt8) := do
  expect n
  takeRun n right

/-- Reads `n` bits into the first bytes of `dest` (`read_bits`). -/
def readInto (dest : List UInt8) (n : Nat) (right : Bool) : StreamM (List UInt8) := do
  expect n
  if 8 * dest.length < n then throw (.shortDestination dest.length n)
  else
    let run ← takeRun n right
    pure (run ++ dest.drop run.length)

/-- Reads one bit (`read_bit`). -/
def readBit : StreamM Bool := do
  let s ← get
  if s.readPos < s.writePos then
    let b ← s.buffer.byteAt (s.readPos / 8)
    set { s with readPos := s.readPos + 1 }
    pure (b &&& (0x80 >>> UInt8.ofNat (s.readPos % 8)) ≠ 0)
  else throw .endOfStream

/-- Passes over `n` bits (`skip_bits`). -/
def skip (n : Nat) : StreamM Unit := do
  let s ← get
  if n ≤ s.payload then set { s with readPos := s.readPos + n }
  else throw (.skipTooMuch n s.payload)

/-- Passes over whole bytes (`skip_read_bytes`). -/
def skipBytes (bytes : Nat) : StreamM Unit := skip (8 * bytes)

/-- Passes over the bits up to the next byte boundary, as far as there are any (`align_read`). -/
def readAlign : StreamM Unit :=
  modify fun s => { s with readPos := min (s.readPos + padding s.readPos) s.writePos }

/-- Reads whole bytes (`read_bytes`). -/
def readBytes (bytes : Nat) : StreamM (List UInt8) :=
  if bytes = 0 then pure [] else readRun (8 * bytes) true

/-- Reads whole bytes from behind the next byte boundary (`read_aligned_bytes`). -/
def readAlignedBytes (bytes : Nat) : StreamM (List UInt8) := do
  readAlign
  readBytes bytes

end Stream

end Bitwire
