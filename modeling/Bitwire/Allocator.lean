import Bitwire.Fault

/-!
# Buffers and where they come from

A buffer is a byte array that an allocator hands out filled with zeros, grows and takes back. Looking at a
byte outside of a buffer, and storing one there, is a fault.

Whether a request is granted is up to the memory of the machine, which may refuse any of them: a large one
or a small one, and one that it would have granted before. A counting allocator shows how often it was
asked; a request is counted before it can be refused.

* `Buffer.setByte`, `Buffer.changeByte`, `Buffer.overwrite`: stores.
* `Memory`: which requests are granted.
* `Allocator.allocate`, `Allocator.reallocate`, `Allocator.release`: the methods of `BufferAlloc`, for
  `SystemAlloc` and `CountingAlloc`.
-/

namespace Bitwire

/-- The bytes of a stream, used or not. -/
abbrev Buffer := Array UInt8

namespace Buffer

/-- A buffer of zeros. -/
def zeros (bytes : Nat) : Buffer := Array.replicate bytes 0

/-- Cuts a buffer off or fills it up with zeros. -/
def resize (buffer : Buffer) (bytes : Nat) : Buffer :=
  buffer.take bytes ++ zeros (bytes - buffer.size)

/-- The byte at an index. -/
def byteAt (buffer : Buffer) (i : Nat) : Except Fault UInt8 :=
  if h : i < buffer.size then pure buffer[i] else throw (.outsideBuffer i buffer.size)

/-- The `k` bytes from index `i` on. -/
def bytesAt (buffer : Buffer) (i k : Nat) : Except Fault (List UInt8) :=
  if i + k ≤ buffer.size then pure (buffer.extract i (i + k)).toList
  else throw (.outsideBuffer (i + k) buffer.size)

/-- Puts a byte at an index. -/
def setByte (buffer : Buffer) (i : Nat) (b : UInt8) : Except Fault Buffer :=
  if h : i < buffer.size then pure (buffer.set i b) else throw (.outsideBuffer i buffer.size)

/-- Changes the byte at an index. -/
def changeByte (buffer : Buffer) (i : Nat) (f : UInt8 → UInt8) : Except Fault Buffer := do
  buffer.setByte i (f (← buffer.byteAt i))

/-- Replaces the bytes from index `i` on. -/
def overwrite (buffer : Buffer) (i : Nat) : List UInt8 → Except Fault Buffer
  | [] => pure buffer
  | b :: bs => do overwrite (← buffer.setByte i b) (i + 1) bs

end Buffer

/-- How often an allocator was asked for a buffer, for a larger one, and to take one back. -/
structure Counters where
  allocations : Nat := 0
  reallocations : Nat := 0
  releases : Nat := 0
deriving DecidableEq, Repr

namespace Counters

/-- Buffers handed out and not yet taken back (`live`). -/
def live (c : Counters) : Nat := c.allocations - c.releases

/-- How often a buffer was asked for. -/
def requests (c : Counters) : Nat := c.allocations + c.reallocations

end Counters

/-- No machine has this many bytes: the addresses of the widest have 57 bits. -/
def Memory.limit : Nat := 0x200000000000000

/-- What a machine answers to the requests for memory. -/
structure Memory where
  /-- Whether a request is granted, given how many there were before it and the number of bytes. -/
  grants (requests bytes : Nat) : Bool
  lt_limit {requests bytes : Nat} : grants requests bytes = true → bytes < Memory.limit

/-- A machine that never runs short of memory. -/
def Memory.ample : Memory where
  grants _ bytes := bytes < Memory.limit
  lt_limit := of_decide_eq_true

/-- A source of buffers. -/
structure Allocator where
  memory : Memory
  counters : Counters
  /-- Whether the counters can be seen. -/
  shown : Bool

/-- Actions of an allocator. What they counted stays counted when they fail. -/
abbrev AllocM := EStateM Fault Allocator

namespace Allocator

/-- The allocator of the system (`SystemAlloc`), before the first request. -/
def system (memory : Memory := .ample) : Allocator := ⟨memory, {}, false⟩

/-- An allocator that counts (`CountingAlloc`), and what it has counted. -/
def counting (counters : Counters) (memory : Memory := .ample) : Allocator := ⟨memory, counters, true⟩

/-- The counters of a counting allocator. -/
def counters? (a : Allocator) : Option Counters := if a.shown then some a.counters else none

/-- Whether the next request is granted if it is for so many bytes. -/
def grants (a : Allocator) (bytes : Nat) : Bool := a.memory.grants a.counters.requests bytes

/-- Counts a call. -/
def tally (f : Counters → Counters) (a : Allocator) : Allocator := { a with counters := f a.counters }

/-- Counts a request and puts it to the memory; `refusal` is the fault if that refuses it. -/
def request (bytes : Nat) (f : Counters → Counters) (refusal : Fault) : AllocM Unit := do
  let granted := (← get).grants bytes
  modify (·.tally f)
  if granted then pure () else throw refusal

/-- Hands out a buffer of zeros (`allocate`). -/
def allocate (bytes : Nat) : AllocM Buffer := do
  request bytes (fun c => { c with allocations := c.allocations + 1 }) (.cannotAllocate bytes)
  pure (.zeros bytes)

/-- Gives a buffer another size; its first bytes are kept and new ones are zero (`reallocate`). -/
def reallocate (buffer : Buffer) (bytes : Nat) : AllocM Buffer := do
  request bytes (fun c => { c with reallocations := c.reallocations + 1 })
    (.cannotGrow buffer.size bytes)
  pure (buffer.resize bytes)

/-- Takes a buffer back (`release`). -/
def release : AllocM Unit :=
  modify (·.tally fun c => { c with releases := c.releases + 1 })

end Allocator

end Bitwire
