import Mathlib.Data.Nat.Size
import Bitwire.Session.Op

/-!
# The format on the wire

What the exact codecs put on the wire, described by the values alone: no host order, no position and no
memory image takes part. Full-width patterns go from their most significant bit down, 24-bit numbers
and everything shortened byte by byte from the least significant byte up.

* `Wire.pattern`, `Wire.lowBytes`: the bits of a pattern, and its bytes.
* `Wire.mini`, `Wire.miniPattern`: the mini format.
* `Kind.wire`, `Kind.miniWire`: the formats of values.
* `Span.wire`: the format of a number between bounds.
* `WriteOp.wire`: the bits of an operation that writes by an exact codec.
-/

namespace Bitwire

namespace Wire

/-- The bits of a pattern, most significant first. -/
def pattern {n : Nat} (w : BitVec n) : List Bool := (List.range n).map w.getMsbD

/-- The bits of bytes in a row. -/
def bytes (bs : List (BitVec 8)) : List Bool := bs.flatMap pattern

/-- The `k` low bytes of a pattern, least significant first. -/
def lowBytes {n : Nat} (k : Nat) (w : BitVec n) : List (BitVec 8) :=
  (List.range k).map fun i => w.extractLsb' (8 * i) 8

/-- The byte that unsigned and signed numbers are padded with. -/
def pad (signed : Bool) : BitVec 8 := if signed then 0xFF else 0x00

/-- The mini format of bytes, given from the most significant one down: a one bit for each byte of
padding at their head, the lowest byte excepted. If only the lowest byte is left, it is a one bit and
its low nibble where its high nibble is padding, and a zero bit and all its bits otherwise. Else a
zero bit is followed by the bytes left, least significant first. -/
def mini (signed : Bool) (bs : List (BitVec 8)) : List Bool :=
  let lead := (bs.dropLast.takeWhile (· == pad signed)).length
  List.replicate lead true ++
    match bs.drop lead with
    | [b] =>
      if b.extractLsb' 4 4 = (pad signed).extractLsb' 4 4 then true :: pattern (b.extractLsb' 0 4)
      else false :: pattern b
    | rest => false :: bytes rest.reverse

/-- The mini format of a pattern of whole bytes. -/
def miniPattern {n : Nat} (signed : Bool) (w : BitVec n) : List Bool :=
  mini signed (lowBytes (n / 8) w).reverse

end Wire

open Wire

/-! ## Values -/

/-- The byte 4, the complemented octets of the host, and the port. -/
def SocketV4.wire (a : SocketV4) : List Bool := pattern 4#8 ++ pattern (~~~ a.host) ++ pattern a.port

/-- The byte 6, the octets of the host, and the port. -/
def SocketV6.wire (a : SocketV6) : List Bool := pattern 6#8 ++ pattern a.host ++ pattern a.port

/-- The mini formats of the version, the complemented host, and the port. -/
def SocketV4.miniWire (a : SocketV4) : List Bool :=
  miniPattern false 4#8 ++ miniPattern false (~~~ a.host) ++ miniPattern false a.port

/-- The mini formats of the version, both halves of the host, and the port. -/
def SocketV6.miniWire (a : SocketV6) : List Bool :=
  miniPattern false 6#8 ++ miniPattern false (a.host.extractLsb' 64 64) ++
    miniPattern false (a.host.extractLsb' 0 64) ++ miniPattern false a.port

namespace Kind

/-- The full-width format of a value. -/
def wire : (k : Kind) → k.Val → List Bool
  | int _, w => pattern w
  | bool, b => [b]
  | single, x => pattern x.pattern
  | double, x => pattern x.pattern
  | u24, x => bytes (lowBytes 3 x.val)
  | guid, g => pattern g.val
  | v4, a => a.wire
  | socket, .v4 a => a.wire
  | socket, .v6 a => a.wire

/-- The mini format of a value of an exact kind. -/
def miniWire : (k : Kind) → k.Val → Option (List Bool)
  | int t, w => some (miniPattern t.signed w)
  | bool, b => some [b]
  | single, _ => none
  | double, _ => none
  | u24, x => some (miniPattern false x.val)
  | guid, g => some (miniPattern false g.val)
  | v4, a => some a.miniWire
  | socket, .v4 a => some a.miniWire
  | socket, .v6 a => some a.miniWire

/-- The format of a value that counts as changed. -/
def unknownWire (k : Kind) (v : k.Val) : List Bool :=
  if k = bool then k.wire v else true :: k.wire v

end Kind

/-! ## Numbers between bounds -/

namespace Span

variable {t : IntType} (r : Span t) (w : Word t)

/-- The offset of a number from the lower bound, as a pattern of as many bits as the largest offset
needs. -/
def offset : BitVec (r.max.value - r.min.value).toNat.size :=
  .ofNat _ (w.value - r.min.value).toNat

/-- The whole bytes of the offset, least significant first, and the bits left over at its head. -/
def offsetWire : List Bool :=
  let n := (r.max.value - r.min.value).toNat.size
  bytes (lowBytes (n / 8) (r.offset w)) ++ pattern ((r.offset w).extractLsb' (8 * (n / 8)) (n % 8))

/-- The format of a number between the bounds. Where others are allowed, a bit says whether the number
is one of them, which is then in the mini format. -/
def wire (outside : Bool) : Option (List Bool) :=
  if r.min.value ≤ w.value ∧ w.value ≤ r.max.value then
    some (if outside then false :: r.offsetWire w else r.offsetWire w)
  else if outside then some (true :: miniPattern t.signed w)
  else none

end Span

/-! ## Operations -/

/-- The bits on the wire of an operation that writes by an exact codec. Other operations have none, as
have values that the codec refuses. -/
def WriteOp.wire : WriteOp → Option (List Bool)
  | value k v => some (k.wire v)
  | mini k v => k.miniWire v
  | changed k v last =>
    some (if k ≠ .bool ∧ k.same v last then [false] else k.unknownWire v)
  | changedUnknown k v => some (k.unknownWire v)
  | miniChanged k v last =>
    if k = .bool then k.miniWire v
    else if k.same v last then some [false]
    else (k.miniWire v).map (true :: ·)
  | miniBytes signed src =>
    if src = [] then none else some (Wire.mini signed (src.map (·.toBitVec)).reverse)
  | between _ w min max outside =>
    if h : min.value ≤ max.value then Span.wire ⟨min, max, h⟩ w outside else none
  | ranged _ r w outside => r.wire w outside
  | _ => none

end Bitwire
