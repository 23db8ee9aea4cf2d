import Bitwire.Codec.Address
import Bitwire.Codec.Unit

/-!
# The kinds of values on the wire

The set of kinds is closed. Each kind has a full-width code, which loses nothing but flow and scope
of an address, and a mini code. A value can also be sent as a change: a zero bit says that it equals
the last one, and a one bit comes before a new value. A boolean is its own change flag.

* `Kind`, `Kind.Val`: kinds and their values; `Kind.same`: equality as a change sees it.
* `Kind.code`, `Kind.mini`: codes; `Kind.read`, `Kind.readMini`: the way back.
* `Kind.changedCode`, `Kind.unknownCode`, `Stream.writeMiniChanged`: changes;
  `Kind.readChanged`, `Kind.readMiniChanged`: the way back.
-/

namespace Bitwire

/-- A kind of value. -/
inductive Kind
  | int (t : IntType)
  | bool
  | single
  | double
  | u24
  | guid
  | v4
  | socket
deriving DecidableEq, Repr

namespace Kind

/-- The values of a kind. -/
@[reducible] def Val : Kind → Type
  | int t => Word t
  | bool => Bool
  | single => Single
  | double => Double
  | u24 => U24
  | guid => Guid
  | v4 => SocketV4
  | socket => Socket

/-- Whether a value counts as unchanged: equality, as numbers where the kind is floating-point. -/
def same : (k : Kind) → k.Val → k.Val → Bool
  | int _, a, b => a == b
  | bool, a, b => a == b
  | single, a, b => Binary.same a b
  | double, a, b => Binary.same a b
  | u24, a, b => a == b
  | guid, a, b => a == b
  | v4, a, b => a == b
  | socket, a, b => a == b

/-! ## Full-width codes -/

/-- The full-width code of a value (`encode`). -/
def code (o : ByteOrder) : (k : Kind) → k.Val → Code
  | int t, w => numberCode o t.bytes w.toNat
  | bool, b => [.bit b]
  | single, x => numberCode o 4 x.pattern.toNat
  | double, x => numberCode o 8 x.pattern.toNat
  | u24, x => U24.code o x
  | guid, g => numberCode o 8 g.val.toNat
  | v4, a => SocketV4.code o a
  | socket, a => Socket.code o a

/-- Reads a full-width code (`decode`). -/
def read : (k : Kind) → StreamM k.Val
  | int t => return BitVec.ofNat t.bits (← readNumber t.bytes)
  | bool => Stream.readBit
  | single => return ⟨BitVec.ofNat 32 (← readNumber 4)⟩
  | double => return ⟨BitVec.ofNat 64 (← readNumber 8)⟩
  | u24 => U24.read
  | guid => return ⟨BitVec.ofNat 64 (← readNumber 8)⟩
  | v4 => SocketV4.read
  | socket => Socket.read

/-! ## Mini codes -/

/-- The mini code of a value; floating-point numbers far from `[-1, 1]` have none (`encode_mini`). -/
def mini (o : ByteOrder) : (k : Kind) → k.Val → Except Fault Code
  | int t, w => pure (miniNumber o t.bytes t.signed w.toNat)
  | bool, b => pure [.bit b]
  | single, x => Single.mini o x
  | double, x => Double.mini o x
  | u24, x => pure (U24.mini o x)
  | guid, g => pure (miniNumber o 8 false g.val.toNat)
  | v4, a => pure (SocketV4.mini o a)
  | socket, a => pure (Socket.mini o a)

/-- Reads a mini code (`decode_mini`). -/
def readMini : (k : Kind) → StreamM k.Val
  | int t => return BitVec.ofNat t.bits (← readMiniNumber t.bytes t.signed)
  | bool => Stream.readBit
  | single => Single.readMini
  | double => Double.readMini
  | u24 => U24.readMini
  | guid => return ⟨BitVec.ofNat 64 (← readMiniNumber 8 false)⟩
  | v4 => SocketV4.readMini
  | socket => Socket.readMini

/-! ## Changes -/

/-- The code of a value that counts as changed (`encode_changed_unknown`). -/
def unknownCode (o : ByteOrder) (k : Kind) (v : k.Val) : Code :=
  if k = bool then code o k v else .bit true :: code o k v

/-- The code of a value where the reader knows the last one (`encode_changed`). -/
def changedCode (o : ByteOrder) (k : Kind) (v last : k.Val) : Code :=
  if k ≠ bool ∧ k.same v last then [.bit false] else unknownCode o k v

/-- Reads a flag and, if it is set, a value by `x`; the answer says whether there was one. -/
def readFlagged {α : Type} (x : StreamM α) (dest : α) : StreamM (Bool × α) := do
  if ← Stream.readBit then
    let v ← x
    pure (true, v)
  else pure (false, dest)

/-- Reads a boolean in place of a change; the answer says whether it differs from the last one. -/
def readToggled (dest : Bool) : StreamM (Bool × Bool) := do
  let b ← Stream.readBit
  pure (dest != b, b)

/-- Reads a change of `dest`: whether it was updated, and its value afterwards (`decode_changed`). -/
def readChanged (k : Kind) (dest : k.Val) : StreamM (Bool × k.Val) :=
  match k with
  | bool => readToggled dest
  | k => readFlagged k.read dest

/-- Reads a change of `dest` whose value is in its mini code (`decode_mini_changed`). -/
def readMiniChanged (k : Kind) (dest : k.Val) : StreamM (Bool × k.Val) :=
  match k with
  | bool => readToggled dest
  | k => readFlagged k.readMini dest

end Kind

namespace Stream

/-- Appends the full-width code of a value (`write_value`). -/
def write (k : Kind) (v : k.Val) : WriteM Nat := writeCode fun o => pure (k.code o v)

/-- Appends the mini code of a value (`write_mini`). -/
def writeMini (k : Kind) (v : k.Val) : WriteM Nat := writeCode fun o => k.mini o v

/-- Appends a value as a change of the last one (`write_changed`). -/
def writeChanged (k : Kind) (v last : k.Val) : WriteM Nat :=
  writeCode fun o => pure (k.changedCode o v last)

/-- Appends a value as changed (`write_changed_unknown`). -/
def writeChangedUnknown (k : Kind) (v : k.Val) : WriteM Nat :=
  writeCode fun o => pure (k.unknownCode o v)

/-- Appends a value in its mini code as a change of the last one (`write_mini_changed`). The flag is
there already when a value turns out to have no mini code. -/
def writeMiniChanged (k : Kind) (v last : k.Val) : WriteM Nat :=
  if k = .bool then writeMini k v
  else if k.same v last then writeBit false
  else do
    let a ← writeBit true
    let b ← writeMini k v
    pure (a + b)

end Stream

end Bitwire
