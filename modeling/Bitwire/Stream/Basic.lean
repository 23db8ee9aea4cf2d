import Bitwire.Allocator
import Bitwire.Bits
import Bitwire.ByteOrder

/-!
# Bit streams

A stream is a buffer addressed by bits, with a position where the next bit is written and one where
the next bit is read. Short messages live in a buffer of fixed size inside the stream; a longer one
moves to a buffer of an allocator, which then belongs to the stream. A view shows bytes that belong
to someone else; it is read-only.

A fault ends the use of a stream: what an operation that fails has read or moved is not looked at any
more, and `onStream` leaves the stream as it was before such an operation. Only what the allocator has
counted is looked at behind a fault, and which buffers are there to be given back.

* `Stream.bits`: what a stream holds, as a list of bits. The operations are described through it.
* `StreamM`: actions on a stream alone; `WriteM`: actions that may turn to the allocator.
* `Stream.empty`, `Stream.withCapacity`, `Stream.ofBytes`, `Stream.view`, `Stream.clone`: where
  streams come from; `Stream.release`: how they end (`drop`).
-/

namespace Bitwire

/-- Where the bytes of a stream live (`StorageKind`). -/
inductive Storage
  /-- Inside the stream. -/
  | inline
  /-- In a buffer of the allocator, to be given back. -/
  | owned
  /-- With someone else. -/
  | borrowed
deriving DecidableEq, Repr

/-- Size in bytes of the buffer inside a stream (`INLINE_BYTES`). -/
def inlineBytes : Nat := 256

/-- Beyond this many bytes a buffer grows by this many bytes instead of doubling
(`GROWTH_STEP_BYTES`). -/
def growthStep : Nat := 0x100000

/-- Positions stay below this number: they are 64-bit numbers. -/
def positionLimit : Nat := 0x10000000000000000

/-- What a stream is set up with (`StreamConfig`). -/
structure Setup where
  /-- The host order in which codecs lay numbers out before they are written. -/
  order : ByteOrder := .host
  /-- Whether a right-aligned source byte must be free of stray bits. -/
  strict : Bool := false
deriving DecidableEq, Repr

/-- A buffer with a write position and a read position, both in bits (`BitStream`). -/
structure Stream where
  setup : Setup
  storage : Storage
  buffer : Buffer
  writePos : Nat
  readPos : Nat
deriving DecidableEq

/-- A stream and the allocator that backs it. -/
structure Backed where
  stream : Stream
  allocator : Allocator

/-- Actions on a stream alone. -/
abbrev StreamM := StateT Stream (Except Fault)

/-- Actions on a stream that may turn to its allocator. What happened before the action that fails
stays. -/
abbrev WriteM := EStateM Fault Backed

namespace Stream

/-- Number of bits the buffer has room for (`capacity_bits`). -/
def capacity (s : Stream) : Nat := 8 * s.buffer.size

/-- Number of bytes touched by the written bits (`written_bytes`). -/
def writtenBytes (s : Stream) : Nat := bytesFor s.writePos

/-- Number of bits still to be read (`payload_bits`). -/
def payload (s : Stream) : Nat := s.writePos - s.readPos

/-- Whether writes are refused (`is_read_only`). -/
def readOnly (s : Stream) : Bool := s.storage = .borrowed

/-- The bytes touched by the written bits (`as_bytes`). -/
def bytes (s : Stream) : List UInt8 := (s.buffer.extract 0 s.writtenBytes).toList

/-- The written bits. -/
def bits (s : Stream) : List Bool := (bitsOf s.buffer.toList).take s.writePos

/-- The order that a stream assumes for its host (`byte_order`). -/
def order : StreamM ByteOrder := return (← get).setup.order

/-- Does something to the stream alone. If that fails, the stream is as it was before: nothing that
follows a fault looks at what the action had done until then. -/
def onStream {α : Type} (x : StreamM α) : WriteM α := fun b =>
  match x.run b.stream with
  | .ok (a, stream) => .ok a { b with stream }
  | .error f => .error f b

/-- Has the allocator do something. -/
def askAllocator {α : Type} (x : AllocM α) : WriteM α := fun b =>
  match x b.allocator with
  | .ok a allocator => .ok a { b with allocator }
  | .error f allocator => .error f { b with allocator }

/-! ## Beginning and end -/

/-- An empty stream with its buffer inside (`new_in`). -/
def empty (setup : Setup) : Stream := ⟨setup, .inline, .zeros inlineBytes, 0, 0⟩

/-- An empty stream with room for so many bytes (`with_capacity_in`). -/
def withCapacity (setup : Setup) (bytes : Nat) : AllocM Stream :=
  if bytes ≤ inlineBytes then pure (empty setup)
  else return ⟨setup, .owned, ← Allocator.allocate bytes, 0, 0⟩

/-- A writable stream that holds a copy of the bytes (`from_bytes_in`). -/
def ofBytes (setup : Setup) (src : List UInt8) : AllocM Stream := do
  let s ← withCapacity setup src.length
  let buffer ← MonadExcept.ofExcept (s.buffer.overwrite 0 src)
  return { s with buffer, writePos := 8 * src.length }

/-- A read-only stream over the bytes (`view_in`). -/
def view (setup : Setup) (src : List UInt8) : Stream :=
  ⟨setup, .borrowed, src.toArray, 8 * src.length, 0⟩

/-- A stream over the bytes or over a copy of them (`wrap_in`). -/
def wrap (setup : Setup) (src : List UInt8) (copy : Bool) : AllocM Stream :=
  if copy then ofBytes setup src else pure (view setup src)

/-- A copy of a stream; it gets a buffer of its own where the stream owns one (`clone`). -/
def clone (s : Stream) : AllocM Stream :=
  match s.storage with
  | .owned => do
    let fresh ← Allocator.allocate s.buffer.size
    let buffer ← MonadExcept.ofExcept (fresh.overwrite 0 s.buffer.toList)
    return { s with buffer }
  | _ => pure s

/-- The end of a stream: a buffer it owns goes back to the allocator (`drop`). -/
def release (s : Stream) : AllocM Unit :=
  match s.storage with
  | .owned => Allocator.release
  | _ => pure ()

/-! ## Positions -/

/-- Both positions go back to the beginning; the buffer stays as it is (`reset`). -/
def reset : StreamM Unit := modify ({ · with writePos := 0, readPos := 0 })

/-- The read position goes back to the beginning (`reset_read`). -/
def resetRead : StreamM Unit := modify ({ · with readPos := 0 })

/-- The write position, and with it the read position, goes back to the beginning (`reset_write`). -/
def resetWrite : StreamM Unit := reset

/-- Moves the read position, at most to the write position (`set_read_bit_pos`). -/
def setReadPos (position : Nat) : StreamM Unit := do
  let s ← get
  if position ≤ s.writePos then set { s with readPos := position }
  else throw (.readPositionBeyond position s.writePos)

/-- Moves the write position, at least to the read position and at most to the capacity
(`set_write_bit_pos`). The bits behind it in its byte are cleared. -/
def setWritePos (position : Nat) : StreamM Unit := do
  let s ← get
  if s.readOnly then throw .readOnly
  else if s.readPos ≤ position ∧ position ≤ s.capacity then
    let buffer ←
      if position % 8 = 0 then pure s.buffer
      else s.buffer.changeByte (position / 8) (· &&& highMask (position % 8))
    set { s with buffer, writePos := position }
  else throw (.writePositionOutside position s.readPos s.capacity)

/-- Fails if there are bits left to read (`assert_consumed`). -/
def expectEnd : StreamM Unit := do
  let s ← get
  if s.payload = 0 then pure () else throw (.unreadBits s.payload)

end Stream

end Bitwire
