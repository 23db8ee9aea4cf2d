import Bitwire.Codec.Number
import Bitwire.Word

/-!
# Mini codes

Most numbers that are sent are small, so that many of their leading bytes are `0x00`, or `0xFF` if
they are negative. The mini code goes through the bytes from the most significant one down. A byte
equal to the padding byte costs a single one bit. At the first other byte a zero bit is written, and
this byte with all lower ones follows, least significant first. If only the lowest byte is left, it
is written as a one bit and its low nibble when its high nibble is padding, and as a zero bit and
all its bits otherwise.

* `miniFrom`, `miniBytes`, `miniNumber`: the code of byte strings and numbers.
* `readMiniInto`, `readMiniNumber`: the way back.
* `Word.miniLength`: the length of the code of a word.
-/

namespace Bitwire

/-- The byte that the mini code expects at the head of a number. -/
def padByte (signed : Bool) : UInt8 := if signed then 0xFF else 0x00

/-! ## Writing -/

/-- The mini code of a byte string, given from its most significant byte down: the loop of
`write_mini_bytes`. -/
def miniFrom (pad : UInt8) : List UInt8 → Code
  | [] => []
  | [b] =>
    if b &&& 0xF0 = pad &&& 0xF0 then [.bit true, .run [b &&& 0x0F] 4 true]
    else [.bit false, .run [b] 8 true]
  | b :: next :: bs =>
    if b = pad then .bit true :: miniFrom pad (next :: bs)
    else [.bit false, .run (b :: next :: bs).reverse (8 * (bs.length + 2)) true]

/-- The mini code of a byte string, given from its least significant byte up (`write_mini_bytes`). -/
def miniBytes (signed : Bool) (bytes : List UInt8) : Except Fault Code :=
  if bytes.isEmpty then throw .emptyCompression
  else pure (miniFrom (padByte signed) bytes.reverse)

/-- The mini code of a number of `k` bytes (`write_mini_int`). -/
def miniNumber (o : ByteOrder) (k : Nat) (signed : Bool) (n : Nat) : Code :=
  miniFrom (padByte signed) (o.reorder .little (o.bytes k n)).reverse

/-- Appends the mini code of a byte string, given from its least significant byte up
(`write_mini_bytes`). -/
def Stream.writeMiniBytes (signed : Bool) (src : List UInt8) : WriteM Nat :=
  Code.writeChecked (miniBytes signed src)

/-! ## Reading -/

/-- Reads a byte string into `dest`, both given from the most significant byte down: the loop of
`read_mini_bytes`. -/
def readMiniFrom (pad : UInt8) : List UInt8 → StreamM (List UInt8)
  | [] => pure []
  | [d] => do
    if ← Stream.readBit then
      let nibble ← Stream.readInto [0] 4 true
      pure (nibble.map (· ||| pad &&& 0xF0))
    else Stream.readInto [d] 8 true
  | d :: next :: ds => do
    if ← Stream.readBit then
      let rest ← readMiniFrom pad (next :: ds)
      pure (pad :: rest)
    else
      let all ← Stream.readInto (d :: next :: ds).reverse (8 * (ds.length + 2)) true
      pure all.reverse

/-- Reads a byte string into `dest`, both given from the least significant byte up
(`read_mini_bytes`). -/
def readMiniInto (signed : Bool) (dest : List UInt8) : StreamM (List UInt8) :=
  if dest.isEmpty then throw .emptyDecompression
  else do
    let bytes ← readMiniFrom (padByte signed) dest.reverse
    pure bytes.reverse

/-- Reads a number of `k` bytes (`read_mini_int`). -/
def readMiniNumber (k : Nat) (signed : Bool) : StreamM Nat := do
  let image ← readMiniInto signed (List.replicate k 0)
  let o ← Stream.order
  pure (o.number (ByteOrder.little.reorder o image))

/-! ## Length -/

/-- Number of bits of the mini code of a byte string, given from its most significant byte down. -/
def miniLengthFrom (pad : UInt8) : List UInt8 → Nat
  | [] => 0
  | [b] => if b &&& 0xF0 = pad &&& 0xF0 then 5 else 9
  | b :: next :: bs =>
    if b = pad then 1 + miniLengthFrom pad (next :: bs) else 1 + 8 * (bs.length + 2)

/-- Number of bits of the mini code of a word (`len_mini`). -/
def Word.miniLength {t : IntType} (w : Word t) : Nat :=
  miniLengthFrom (padByte t.signed) (w.image .little).reverse

end Bitwire
