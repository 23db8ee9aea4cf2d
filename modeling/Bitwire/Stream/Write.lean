import Bitwire.Stream.Basic

/-!
# Writing bits

Every write first makes room and then stores its bits behind the bits already there. Room is made in
one step: a buffer that is too small gets twice the size needed or, beyond `growthStep`, that much
more than needed.

A run of bits is taken from whole source bytes and, where it ends within a byte, from the low or the
high bits of the last one. At a byte boundary whole bytes are copied (`Buffer.overwrite`); otherwise
each source byte is merged into the one or two buffer bytes it covers (`Buffer.mergeRun`). A byte outside
of the buffer cannot be stored; that there is room for all bytes is what the first step is for.

* `reserve`: making room (`reserve_bits`).
* `append`: making room for bits and storing them there.
* `writeBit`, `writeRun`, `writeBytes`, `writeAlign`, `writeAlignedBytes`, `padTo`: writes; each
  returns the number of bits it appended.
-/

namespace Bitwire

/-! ## Storing -/

/-- The bits that a source byte gives to a run, moved to the high end of the byte: all of them, or
the `len` low or high ones. -/
def runBits (right : Bool) (len : Nat) (b : UInt8) : UInt8 :=
  if len < 8 then
    (if right then b <<< UInt8.ofNat (8 - len) else b) &&& highMask len
  else b

namespace Buffer

/-- Merges the `len` high bits of a byte into the buffer at a bit position. A buffer byte that they
begin is overwritten; one that already holds written bits is added to. -/
def mergeByte (buffer : Buffer) (position len : Nat) (b : UInt8) : Except Fault Buffer := do
  let i := position / 8
  let offset := position % 8
  if offset = 0 then buffer.setByte i b
  else
    let buffer ← buffer.changeByte i (· ||| b >>> UInt8.ofNat offset)
    if 8 - offset < len then buffer.setByte (i + 1) (b <<< UInt8.ofNat (8 - offset))
    else pure buffer

/-- Merges a run of `n` bits into the buffer, one source byte after the other. -/
def mergeRun (right : Bool) (buffer : Buffer) (position n : Nat) :
    List UInt8 → Except Fault Buffer
  | [] => pure buffer
  | b :: bs =>
    if n = 0 then pure buffer
    else do
      let len := min n 8
      let buffer ← buffer.mergeByte position len (runBits right len b)
      mergeRun right buffer (position + len) (n - len) bs

/-- Stores a run of `n` bits at a bit position. -/
def storeRun (right : Bool) (buffer : Buffer) (position n : Nat) (src : List UInt8) :
    Except Fault Buffer :=
  if position % 8 = 0 ∧ n % 8 = 0 then buffer.overwrite (position / 8) (src.take (n / 8))
  else buffer.mergeRun right position n src

/-- Stores a single bit at a bit position. -/
def storeBit (buffer : Buffer) (position : Nat) (bit : Bool) : Except Fault Buffer :=
  let i := position / 8
  let offset := position % 8
  if offset = 0 then buffer.setByte i (if bit then 0x80 else 0)
  else if bit then buffer.changeByte i (· ||| 0x80 >>> UInt8.ofNat offset)
  else pure buffer

end Buffer

/-- Whether a bit that a run does not take is set in its last, right-aligned source byte. -/
def strayByte? (src : List UInt8) (n : Nat) (right : Bool) : Option UInt8 :=
  if right ∧ n % 8 ≠ 0 then
    src[n / 8]?.filter fun b => b >>> UInt8.ofNat (n % 8) ≠ 0
  else none

/-! ## Making room -/

namespace Stream

/-- Number of bits that a buffer is to have when `required` bits do not fit. -/
def growBits (required : Nat) : Nat :=
  if 8 * growthStep < required then required + 8 * growthStep else 2 * required

/-- Size in bytes of the buffer that is asked for when `required` bits do not fit. -/
def growTarget (required : Nat) : Nat := bytesFor (growBits required)

/-- Gives the stream a buffer of its own. -/
def moveTo (buffer : Buffer) : StreamM Unit := modify ({ · with storage := .owned, buffer })

/-- Moves the stream to a larger buffer of the allocator, or enlarges the one it owns: the last step of
`reserve_bits`. -/
def grow (bytes : Nat) : WriteM Unit := do
  let s := (← get).stream
  let buffer ←
    if s.storage = .owned then askAllocator (Allocator.reallocate s.buffer bytes)
    else do
      let fresh ← askAllocator (Allocator.allocate bytes)
      MonadExcept.ofExcept (fresh.overwrite 0 s.bytes)
  onStream (moveTo buffer)

/-- Makes room for so many more bits (`reserve_bits`). The size of a larger buffer in bits is a 64-bit
number, too. -/
def reserve (more : Nat) : WriteM Unit := do
  let s := (← get).stream
  let required := s.writePos + more
  if s.readOnly then throw .readOnly
  else if positionLimit ≤ required then throw (.positionOverflow s.writePos more)
  else if required ≤ s.capacity then pure ()
  else if positionLimit ≤ growBits required then throw .additionOverflow
  else grow (growTarget required)

/-! ## Writes -/

/-- Stores `n` bits at the write position and moves it behind them. -/
def storeBits (n : Nat) (store : Nat → Buffer → Except Fault Buffer) : StreamM Unit := do
  let s ← get
  let buffer ← store s.writePos s.buffer
  set { s with buffer, writePos := s.writePos + n }

/-- Stores `n` bits at the write position, unless the setup of the stream is against it. -/
def storeChecked (n : Nat) (store : Nat → Buffer → Except Fault Buffer)
    (refused : Setup → Option Fault) : WriteM Nat := do
  match refused (← get).stream.setup with
  | some f => throw f
  | none =>
    onStream (storeBits n store)
    pure n

/-- Makes room for `n` bits and stores them there, unless the setup of the stream is against it. -/
def append (n : Nat) (store : Nat → Buffer → Except Fault Buffer)
    (refused : Setup → Option Fault := fun _ => none) : WriteM Nat := do
  reserve n
  storeChecked n store refused

/-- Appends the `n` first bits of `src` (`write_bits`); the bits of an incomplete last byte are its low
ones if `right`, and else its high ones. -/
def writeRun (src : List UInt8) (n : Nat) (right : Bool) : WriteM Nat :=
  if n = 0 then throw .emptyWrite
  else if 8 * src.length < n then throw (.shortSource src.length n)
  else
    append n (fun position buffer => buffer.storeRun right position n src) fun setup =>
      if setup.strict then (strayByte? src n right).map .strayBits else none

/-- Appends one bit (`write_bit_one`, `write_bit_zero`). -/
def writeBit (bit : Bool) : WriteM Nat :=
  append 1 fun position buffer => buffer.storeBit position bit

/-- Appends zeros up to the next byte boundary (`align_write`). They are there already: the bits behind
the write position in its byte are zero. -/
def writeAlign : WriteM Nat := do
  let n := padding (← get).stream.writePos
  if n = 0 then pure 0 else append n fun _ buffer => pure buffer

/-- Appends whole bytes (`write_bytes`). -/
def writeBytes (src : List UInt8) : WriteM Nat :=
  if src.isEmpty then pure 0 else writeRun src (8 * src.length) true

/-- Appends whole bytes behind the next byte boundary (`write_aligned_bytes`). -/
def writeAlignedBytes (src : List UInt8) : WriteM Nat := do
  let a ← writeAlign
  let b ← writeBytes src
  pure (a + b)

/-- Appends zero bytes to whole bytes until there are `bytes` bytes. -/
def writeZeros (bytes : Nat) : WriteM Nat := do
  let missing := bytes - (← get).stream.writePos / 8
  append (8 * missing) fun position buffer =>
    buffer.overwrite (position / 8) (List.replicate missing 0)

/-- Appends zero bytes, behind the next byte boundary, until the stream has `bytes` bytes
(`pad_zero_to`). -/
def padTo (bytes : Nat) : WriteM Nat := do
  if bytes ≤ (← get).stream.writtenBytes then pure 0
  else
    let a ← writeAlign
    let b ← writeZeros bytes
    pure (a + b)

end Stream

end Bitwire
