import Bitwire.Allocator

/-!
# Buffers side by side

A shelf has a few places for buffers and an allocator that hands them out. Its steps ask the
allocator directly, or store a single byte.
-/

namespace Bitwire

/-- Number of places on a shelf. -/
def placeCount : Nat := 4

/-- Buffers and their allocator. -/
structure Shelf where
  allocator : Allocator
  buffers : Vector Buffer placeCount

/-- A request to the allocator, or a byte to be stored. -/
inductive BufferStep
  /-- The buffer that was there is forgotten, not given back. -/
  | allocate (bytes : Nat)
  | reallocate (bytes : Nat)
  | release
  | store (index : Nat) (byte : UInt8)

/-- What a step leaves behind. -/
structure BufferReport where
  bytes : List UInt8
  counters : Option Counters

/-- What a step makes of a buffer. -/
def BufferStep.perform (buffer : Buffer) : BufferStep → AllocM Buffer
  | allocate bytes => Allocator.allocate bytes
  | reallocate bytes => Allocator.reallocate buffer bytes
  | release => do
    Allocator.release
    pure #[]
  | store index byte => MonadExcept.ofExcept (buffer.setByte index byte)

namespace Shelf

/-- Empty buffers. -/
def start (allocator : Allocator) : Shelf := ⟨allocator, Vector.replicate placeCount #[]⟩

/-- Performs steps up to the first fault. -/
def steps : List (Fin placeCount × BufferStep) → Shelf → List (Except Fault BufferReport)
  | [], _ => []
  | (place, x) :: xs, shelf =>
    match x.perform shelf.buffers[place] shelf.allocator with
    | .ok buffer allocator =>
      .ok ⟨buffer.toList, allocator.counters?⟩ ::
        steps xs ⟨allocator, shelf.buffers.set place buffer⟩
    | .error f _ => [.error f]

/-- Steps from empty buffers. -/
def run (allocator : Allocator) (xs : List (Fin placeCount × BufferStep)) :
    List (Except Fault BufferReport) :=
  steps xs (start allocator)

end Shelf

end Bitwire
