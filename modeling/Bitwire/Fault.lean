import Bitwire.Ieee.Text

/-!
# Contract violations

Everything that can go wrong is a violation of the contract between the writer and the reader of a
message, or a refused request for memory. `Fault` has one constructor for each cause, with what its
wording needs; `Fault.message` is that wording.
-/

namespace Bitwire

/-- Why an operation stopped. -/
inductive Fault
  /-- A write to a stream that only shows the bytes of someone else. -/
  | readOnly
  /-- The positions of a stream are 64-bit numbers. -/
  | positionOverflow (position more : Nat)
  /-- So are the sizes of buffers in bits. -/
  | additionOverflow
  /-- A run of no bits is asked to be written. -/
  | emptyWrite
  | shortSource (bytes bits : Nat)
  /-- A bit that a right-aligned last byte does not contribute is set. -/
  | strayBits (byte : UInt8)
  /-- A run of no bits is asked to be read. -/
  | emptyRead
  | readTooMuch (bits left : Nat)
  | shortDestination (bytes bits : Nat)
  /-- A single bit is read where no bit is left. -/
  | endOfStream
  | skipTooMuch (bits left : Nat)
  | readPositionBeyond (position limit : Nat)
  | writePositionOutside (position low high : Nat)
  | transferTooMuch (bits left : Nat)
  /-- A message was not read to its end. -/
  | unreadBits (bits : Nat)
  /-- A byte outside the buffer is looked at or stored. -/
  | outsideBuffer (index size : Nat)
  /-- The length of a byte run is no 32-bit number. -/
  | lengthTooWide (length : Nat)
  | lengthOverBound (length bound : Nat)
  /-- The mini code of no bytes. -/
  | emptyCompression
  | emptyDecompression
  | notCompressible {p : Precision} (value : Binary p)
  | unsupportedWidth (width : Nat)
  | invertedRange (min max : Int)
  | outsideRange (value min max : Int)
  | emptyInterval (min max : Single)
  | notNormalized (components : List Double)
  /-- A value that is no 24-bit number. -/
  | tooWide (value : Nat)
  /-- The version byte of an address is not that of the address family read. -/
  | notV4 (tag : Nat)
  | unknownVersion (tag : Nat)
  | cannotAllocate (bytes : Nat)
  | cannotGrow (old new : Nat)
  /-- A step names a slot that holds no stream. -/
  | emptySlot (slot : Nat)
deriving DecidableEq

namespace Fault

/-- Lowercase hexadecimal digits. -/
def hexDigits (n : Nat) : String := String.ofList (Nat.toDigits 16 n)

/-- The eight binary digits of a byte. -/
def binaryDigits (b : UInt8) : String :=
  let ds := Nat.toDigits 2 b.toNat
  String.ofList (List.replicate (8 - ds.length) '0' ++ ds)

/-- The report of two numbers that were to be equal. -/
def unequal (why : String) (left right : Nat) : String :=
  "assertion `left == right` failed: " ++ why ++ s!"\n  left: {left}\n right: {right}"

/-- What is said about a fault. -/
def message : Fault → String
  | readOnly => "Cannot write to a read-only stream"
  | positionOverflow position more => s!"Bit count overflow: {position} + {more}"
  | additionOverflow => "attempt to add with overflow"
  | emptyWrite => "Cannot write zero bits"
  | shortSource bytes bits => s!"Source of {bytes} bytes is too short for {bits} bits"
  | strayBits byte =>
    "Unused high bits of a right-aligned source byte are not zero: 0b" ++ binaryDigits byte
  | emptyRead => "Cannot read zero bits"
  | readTooMuch bits left => s!"Cannot read {bits} bits: only {left} left"
  | shortDestination bytes bits =>
    s!"Destination of {bytes} bytes is too short for {bits} bits"
  | endOfStream => "Cannot read past the end of the stream"
  | skipTooMuch bits left => s!"Cannot skip {bits} bits: only {left} left"
  | readPositionBeyond position limit =>
    s!"Read position {position} past the write position {limit}"
  | writePositionOutside position low high =>
    s!"Write position {position} outside [{low}..{high}]"
  | transferTooMuch bits left =>
    s!"Cannot transfer {bits} bits from a stream holding {left}"
  | unreadBits bits => unequal s!"The stream has {bits} unread bits" bits 0
  | outsideBuffer index size =>
    s!"index out of bounds: the len is {size} but the index is {index}"
  | lengthTooWide length => s!"Byte run of length {length} does not fit a u32"
  | lengthOverBound length bound => s!"Byte run of length {length} exceeds the bound {bound}"
  | emptyCompression => "Cannot compress an empty value"
  | emptyDecompression => "Cannot decompress an empty value"
  | notCompressible value => value.tagged ++ " is outside the compressible interval"
  | unsupportedWidth width => s!"Unsupported width {width}"
  | invertedRange min max => s!"min = {min} > max = {max}"
  | outsideRange value min max => s!"{value} is outside [{min} . . {max}]"
  | emptyInterval min max => "max = " ++ max.plain ++ " <= min = " ++ min.plain
  | notNormalized components =>
    "Components [" ++ String.intercalate ", " (components.map Binary.tagged) ++
      "] are not normalized"
  | tooWide value => "0x" ++ hexDigits value ++ " does not fit in 24 bits"
  | notV4 tag => unequal s!"Expected an IPv4 address, found version tag {tag}" tag 4
  | unknownVersion tag => s!"Unknown IP version tag {tag}"
  | cannotAllocate bytes => s!"Cannot allocate a stream buffer of {bytes} bytes"
  | cannotGrow old new => s!"Cannot grow a stream buffer from {old} to {new} bytes"
  | emptySlot slot => s!"Slot {slot} holds no stream"

end Fault

end Bitwire
