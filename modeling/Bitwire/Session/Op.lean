import Bitwire.Codec.ByteRun
import Bitwire.Codec.Range
import Bitwire.Codec.Rotation
import Bitwire.Stream.Text

/-!
# Operations on a stream

Everything that can be done with a stream, as data: raw bits and bytes, coded values, positions and
questions. `Op.perform` says what an operation does and what it answers; nothing else of a stream
can be seen or changed.
-/

namespace Bitwire

/-- Questions about a stream (`BitStream`), which leave it as it is. -/
inductive Query
  | facts
  | bytes
  | describe
  | describeLines
  | bitDump
  | hexDump
deriving DecidableEq, Repr

/-- Operations that move the positions of a stream (`BitStream`). -/
inductive PositionOp
  | reset
  | resetRead
  | resetWrite
  | setReadPos (position : Nat)
  | setWritePos (position : Nat)
  /-- Fails unless everything was read. -/
  | expectEnd
deriving DecidableEq, Repr

/-- Operations that read from a stream: `BitRead`, and `ValueRead`, `MiniRead`, `RangeRead` and
`FloatRead` over it. -/
inductive ReadOp
  | run (dest : List UInt8) (n : Nat) (right : Bool)
  | bit
  | skip (n : Nat)
  | skipBytes (bytes : Nat)
  | align
  | bytes (n : Nat)
  | alignedBytes (n : Nat)
  | bounded (bound : Nat)
  | value (k : Kind)
  | mini (k : Kind)
  | changed (k : Kind) (dest : k.Val)
  | miniChanged (k : Kind) (dest : k.Val)
  | miniBytes (signed : Bool) (dest : List UInt8)
  | between (t : IntType) (min max : Word t) (outside : Bool)
  | ranged (t : IntType) (r : Span t) (outside : Bool)
  | boundedFloat (min max : Single)
  | vector (p : Precision)
  | unitVector (p : Precision)
  | quaternion (p : Precision)
  | matrix (p : Precision)

/-- Operations that append to a stream: `BitWrite`, and `ValueWrite`, `MiniWrite`, `RangeWrite` and
`FloatWrite` over it. -/
inductive WriteOp
  | run (src : List UInt8) (n : Nat) (right : Bool)
  | bit (b : Bool)
  | align
  | bytes (src : List UInt8)
  | alignedBytes (src : List UInt8)
  | bounded (src : List UInt8) (bound : Nat)
  | padTo (bytes : Nat)
  | value (k : Kind) (v : k.Val)
  | mini (k : Kind) (v : k.Val)
  | changed (k : Kind) (v last : k.Val)
  | changedUnknown (k : Kind) (v : k.Val)
  | miniChanged (k : Kind) (v last : k.Val)
  | miniBytes (signed : Bool) (src : List UInt8)
  | between (t : IntType) (w min max : Word t) (outside : Bool)
  | ranged (t : IntType) (r : Span t) (w : Word t) (outside : Bool)
  | boundedFloat (x min max : Single)
  | vector (p : Precision) (v : Triple (Binary p))
  | unitVector (p : Precision) (v : Triple (Binary p))
  | quaternion (p : Precision) (q : Quaternion (Binary p))
  | matrix (p : Precision) (m : Matrix (Binary p))

/-- An operation on a stream. -/
inductive Op
  | query (x : Query)
  | position (x : PositionOp)
  | read (x : ReadOp)
  | reserve (bits : Nat)
  | write (x : WriteOp)

/-- What a stream says about itself. -/
structure Facts where
  payload : Nat
  bytes : Nat
  readOnly : Bool
  order : ByteOrder
deriving DecidableEq, Repr

/-- What an operation answers. -/
inductive Answer
  | none
  | count (n : Nat)
  | flag (b : Bool)
  | bytes (bs : List UInt8)
  | text (s : String)
  | value (k : Kind) (v : k.Val)
  | update (changed : Bool) (k : Kind) (v : k.Val)
  | floats (p : Precision) (xs : List (Binary p))
  | facts (f : Facts)
  | counters (c : Option Counters)
  /-- The number of bits moved, and the read position of their source afterwards. -/
  | moved (bits position : Nat)

namespace Stream

/-- Asks a stream. -/
def ask (s : Stream) : Query → Answer
  | .facts => .facts ⟨s.payload, s.writtenBytes, s.readOnly, s.setup.order⟩
  | .bytes => .bytes s.bytes
  | .describe => .text s.describe
  | .describeLines => .text s.describeLines
  | .bitDump => .text (bitDump s.bytes s.writePos)
  | .hexDump => .text (hexDump s.bytes s.writePos)

end Stream

/-- What an operation on the positions does. -/
def PositionOp.perform : PositionOp → StreamM Unit
  | reset => Stream.reset
  | resetRead => Stream.resetRead
  | resetWrite => Stream.resetWrite
  | setReadPos n => Stream.setReadPos n
  | setWritePos n => Stream.setWritePos n
  | expectEnd => Stream.expectEnd

/-- What a reading operation does. -/
def ReadOp.perform : ReadOp → StreamM Answer
  | run dest n right => return .bytes (← Stream.readInto dest n right)
  | bit => return .flag (← Stream.readBit)
  | skip n => do Stream.skip n; return .none
  | skipBytes n => do Stream.skipBytes n; return .none
  | align => do Stream.readAlign; return .none
  | bytes n => return .bytes (← Stream.readBytes n)
  | alignedBytes n => return .bytes (← Stream.readAlignedBytes n)
  | bounded bound => return .bytes (← Stream.readBounded bound)
  | value k => return .value k (← k.read)
  | mini k => return .value k (← k.readMini)
  | changed k dest => do
    let (c, v) ← k.readChanged dest
    return .update c k v
  | miniChanged k dest => do
    let (c, v) ← k.readMiniChanged dest
    return .update c k v
  | miniBytes signed dest => return .bytes (← readMiniInto signed dest)
  | between t min max outside => return .value (.int t) (← Stream.readBetween min max outside)
  | ranged t r outside => return .value (.int t) (← r.read outside)
  | boundedFloat min max => return .value .single (← readBoundedFloat min max)
  | vector p => return .floats p (← Triple.read p).toList
  | unitVector p => return .floats p (← Triple.readUnit p).toList
  | quaternion p => return .floats p (← Stream.readQuaternion p).toList
  | matrix p => return .floats p ((← Stream.readMatrix p).toList.flatMap Triple.toList)

/-- What a writing operation does; it returns the number of bits it appended. -/
def WriteOp.perform : WriteOp → WriteM Nat
  | run src n right => Stream.writeRun src n right
  | bit b => Stream.writeBit b
  | align => Stream.writeAlign
  | bytes src => Stream.writeBytes src
  | alignedBytes src => Stream.writeAlignedBytes src
  | bounded src bound => Stream.writeBounded src bound
  | padTo n => Stream.padTo n
  | value k v => Stream.write k v
  | mini k v => Stream.writeMini k v
  | changed k v last => Stream.writeChanged k v last
  | changedUnknown k v => Stream.writeChangedUnknown k v
  | miniChanged k v last => Stream.writeMiniChanged k v last
  | miniBytes signed src => Stream.writeMiniBytes signed src
  | between _ w min max outside => Stream.writeBetween w min max outside
  | ranged _ r w outside => Stream.writeRanged r w outside
  | boundedFloat x min max => Stream.writeBoundedFloat x min max
  | vector p v => Stream.writeVector p v
  | unitVector p v => Stream.writeUnitVector p v
  | quaternion p q => Stream.writeQuaternion p q
  | matrix p m => Stream.writeMatrix p m

/-- What an operation does, and what it answers. -/
def Op.perform : Op → WriteM Answer
  | query q => return (← get).stream.ask q
  | position x => do
    Stream.onStream x.perform
    return .none
  | read x => Stream.onStream x.perform
  | reserve n => do
    Stream.reserve n
    return .none
  | write x => return .count (← x.perform)

end Bitwire
