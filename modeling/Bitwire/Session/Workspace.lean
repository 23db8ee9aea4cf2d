import Bitwire.Session.Op
import Bitwire.Stream.Transfer

/-!
# Streams side by side

A workspace has some number of slots for streams that share one allocator. Its steps make streams, copy
and drop them, perform an operation on one of them, or move bits from one to another.

The first fault ends a session, and its report is the fault. No step behind it is performed, and where
the positions of the streams are then is not asked any more: of an operation that fails only what it
did with the allocator stays (`Stream.onStream`). The streams that are left are dropped, so that every
buffer they own goes back to the allocator.

* `Workspace`, `Step`, `Step.perform`: the state, its steps and what they do.
* `Report`: what a step answers, with a snapshot of the stream it was about.
* `Workspace.run`: a whole session.
-/

namespace Bitwire

/-- Number of slots, where nothing else is said. -/
def slotCount : Nat := 8

/-- A place for a stream. -/
abbrev Slot (count : Nat := slotCount) := Fin count

/-- Streams that share an allocator. -/
structure Workspace (count : Nat := slotCount) where
  allocator : Allocator
  slots : Vector (Option Stream) count

/-- Actions on a workspace. What happened before a fault stays. -/
abbrev WorkspaceM (count : Nat) := EStateM Fault (Workspace count)

/-- Where a new stream comes from. -/
inductive Origin
  | empty
  | withCapacity (bytes : Nat)
  | ofBytes (src : List UInt8)
  | view (src : List UInt8)
  | wrap (src : List UInt8) (copy : Bool)

/-- A step of a session. -/
inductive Step (count : Nat := slotCount)
  | create (slot : Slot count) (setup : Setup) (origin : Origin)
  | clone (slot source : Slot count)
  | drop (slot : Slot count)
  /-- Asks for the counters of the allocator. -/
  | counters
  | act (slot : Slot count) (op : Op)
  /-- Moves so many bits, or all that are unread, from `source`. -/
  | transfer (slot source : Slot count) (bits : Option Nat)

/-- What can be seen of a stream after a step. -/
structure Snapshot where
  writePos : Nat
  readPos : Nat
  capacity : Nat
  storage : Storage
  bytes : List UInt8
deriving DecidableEq, Repr

/-- What a step answers. -/
structure Report where
  answer : Answer
  state : Option Snapshot

/-- What can be seen of a stream. -/
def Stream.snapshot (s : Stream) : Snapshot :=
  ⟨s.writePos, s.readPos, s.capacity, s.storage, s.bytes⟩

/-- A new stream. -/
def Origin.make (setup : Setup) : Origin → AllocM Stream
  | empty => pure (.empty setup)
  | withCapacity bytes => Stream.withCapacity setup bytes
  | ofBytes src => Stream.ofBytes setup src
  | view src => pure (.view setup src)
  | wrap src copy => Stream.wrap setup src copy

variable {count : Nat}

namespace Workspace

/-- Empty slots. -/
def start (allocator : Allocator) : Workspace count := ⟨allocator, Vector.replicate count none⟩

/-- Puts a stream, or nothing, into a slot. -/
def put (w : Workspace count) (slot : Slot count) (s : Option Stream) : Workspace count :=
  { w with slots := w.slots.set slot s }

/-- Has the allocator do something. -/
def askAllocator {α : Type} (x : AllocM α) : WorkspaceM count α := fun w =>
  match x w.allocator with
  | .ok a allocator => .ok a { w with allocator }
  | .error f allocator => .error f { w with allocator }

/-- The stream in a slot. -/
def streamAt (slot : Slot count) : WorkspaceM count Stream := do
  match (← get).slots[slot] with
  | some s => pure s
  | none => throw (.emptySlot slot)

/-- Takes a stream out of a slot for as long as something is done to it. -/
def onSlot {α : Type} (slot : Slot count) (x : WriteM α) : WorkspaceM count α := do
  let s ← streamAt slot
  fun w =>
    let w := w.put slot none
    match x ⟨s, w.allocator⟩ with
    | .ok a b => .ok a { w.put slot (some b.stream) with allocator := b.allocator }
    | .error f b => .error f { w.put slot (some b.stream) with allocator := b.allocator }

/-- Empties a slot; the stream in it ends. -/
def drop (slot : Slot count) : WorkspaceM count Unit := do
  match (← get).slots[slot] with
  | some s =>
    askAllocator s.release
    modify (·.put slot none)
  | none => pure ()

/-- Fills a slot in place of what it held. -/
def replace (slot : Slot count) (s : Stream) : WorkspaceM count Unit := do
  drop slot
  modify (·.put slot (some s))

/-- The report of a step about the stream in a slot. -/
def report (slot : Slot count) (answer : Answer) : WorkspaceM count Report :=
  return ⟨answer, some (← streamAt slot).snapshot⟩

end Workspace

open Workspace in
/-- What a step does, and what it answers. A new stream is made before the old one in its slot
ends. -/
def Step.perform : Step count → WorkspaceM count Report
  | create slot setup origin => do
    let s ← askAllocator (origin.make setup)
    replace slot s
    report slot .none
  | clone slot source => do
    let s ← streamAt source
    let s ← askAllocator s.clone
    replace slot s
    report slot .none
  | drop slot => do
    Workspace.drop slot
    return ⟨.none, none⟩
  | counters => return ⟨.counters (← get).allocator.counters?, none⟩
  | act slot op => do
    let answer ← onSlot slot op.perform
    report slot answer
  | transfer slot source bits => do
    let other ← streamAt source
    let (n, other) ← onSlot slot (Stream.transfer other (bits.getD other.payload))
    modify (·.put source (some other))
    report slot (.moved n other.readPos)

namespace Workspace

/-- Empties all slots. -/
def finish : WorkspaceM count Unit := (List.finRange count).forM drop

/-- Performs steps up to the first fault; a step whose arguments were refused is such a fault. -/
def steps : List (Except Fault (Step count)) → Workspace count →
    List (Except Fault Report) × Workspace count
  | [], w => ([], w)
  | .error f :: _, w => ([.error f], w)
  | .ok x :: xs, w =>
    match x.perform w with
    | .ok r w =>
      let (rs, w) := steps xs w
      (.ok r :: rs, w)
    | .error f w => ([.error f], w)

/-- A session from empty slots to empty slots: the reports and, at the end, the counters. -/
def run (allocator : Allocator) (xs : List (Except Fault (Step count))) :
    List (Except Fault Report) × Option Counters :=
  let (rs, w) := steps xs (start allocator)
  let w := match finish.run w with
    | .ok _ w => w
    | .error _ w => w
  (rs, w.allocator.counters?)

end Workspace

end Bitwire
