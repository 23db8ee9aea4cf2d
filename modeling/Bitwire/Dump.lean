import Bitwire.Bits
import Bitwire.Text.Quoted

/-!
# Textual dumps

A dump shows the first bits of a byte string, one group of digits for each byte and a space between
groups: eight binary digits, or fewer for an incomplete last byte, or two hexadecimal digits. The
way back takes any number of spaces around the groups. It reports the first group that is wrong: one
of a wrong length by where it starts, and else the first character in it that is no digit.

* `bitDump`, `hexDump`: dumps.
* `groups`: the groups of a text with the byte offsets at which they start.
* `parseBits`, `parseHex`: the way back; `DumpError`: why there is none.
-/

namespace Bitwire

/-! ## Dumps -/

/-- Groups with a space between them. -/
def joinGroups (gs : List (List Char)) : String := String.ofList (List.intercalate [' '] gs)

/-- A binary digit. -/
def bitDigit (b : Bool) : Char := if b then '1' else '0'

/-- The first `bits` bits of a byte string (`bitify`). -/
def bitDump (bytes : List UInt8) (bits : Nat) : String :=
  joinGroups ((bytes.take (bytesFor bits)).mapIdx fun i b =>
    ((byteBits b).take (bits - 8 * i)).map bitDigit)

/-- The two hexadecimal digits of a byte. -/
def hexPair (b : UInt8) : List Char :=
  [Nat.digitChar (b.toNat / 16), Nat.digitChar (b.toNat % 16)]

/-- The bytes touched by the first `bits` bits of a byte string (`hexlify`). -/
def hexDump (bytes : List UInt8) (bits : Nat) : String :=
  joinGroups ((bytes.take (bytesFor bits)).map hexPair)

/-! ## Groups -/

/-- Why a text is no dump. Positions count bytes from the beginning of the text. -/
inductive DumpError
  | invalidDigit (pos : Nat) (found : Char)
  /-- A group has more digits than a byte has bits. -/
  | groupTooLong (pos : Nat)
  /-- A byte lacks its second digit. -/
  | oddGroup (pos : Nat)
deriving DecidableEq, Repr

/-- What is said about a text that is no dump. -/
def DumpError.message : DumpError → String
  | invalidDigit pos found => "Invalid digit " ++ quoteChar found ++ s!" at position {pos}"
  | groupTooLong pos => s!"Group starting at position {pos} does not fit a byte"
  | oddGroup pos => s!"Group starting at position {pos} has an odd length"

/-- The number of bytes of a text. -/
def utf8Length : List Char → Nat
  | [] => 0
  | c :: cs => c.utf8Size + utf8Length cs

/-- A run of characters without a space, and the byte offset at which it starts. -/
structure Group where
  start : Nat
  chars : List Char
deriving DecidableEq, Repr

/-- Puts a character that starts at `pos` before the groups of the text behind it. -/
def Group.extend (pos : Nat) (c : Char) : List Group → List Group
  | [] => [⟨pos, [c]⟩]
  | g :: gs =>
    if g.start = pos + c.utf8Size then ⟨pos, c :: g.chars⟩ :: gs else ⟨pos, [c]⟩ :: g :: gs

/-- The groups of a text that starts at `pos` (`groups`). -/
def groups (pos : Nat) : List Char → List Group
  | [] => []
  | c :: cs =>
    let rest := groups (pos + c.utf8Size) cs
    if c = ' ' then rest else Group.extend pos c rest

/-! ## Reading -/

/-- The bits that binary digits stand for; `pos` is the position of the first one. -/
def readBitDigits (pos : Nat) : List Char → Except DumpError (List Bool)
  | [] => pure []
  | c :: cs =>
    if c = '0' ∨ c = '1' then do
      let bits ← readBitDigits (pos + 1) cs
      pure (decide (c = '1') :: bits)
    else throw (.invalidDigit pos c)

/-- The bits of a group. -/
def Group.bits (g : Group) : Except DumpError (List Bool) :=
  if 8 < utf8Length g.chars then throw (.groupTooLong g.start)
  else readBitDigits g.start g.chars

/-- The bytes of a text of binary digits, and the number of its digits (`unbitify`). A short group
fills the high bits of its byte. -/
def parseBits (text : String) : Except DumpError (List UInt8 × Nat) := do
  let gs ← (groups 0 text.toList).mapM Group.bits
  pure (gs.map byteOfBits, gs.flatten.length)

/-- The number that a hexadecimal digit of either case stands for. -/
def hexValue? (c : Char) : Option UInt8 :=
  if '0' ≤ c ∧ c ≤ '9' then some (c.toUInt8 - 48)
  else if 'a' ≤ c ∧ c ≤ 'f' then some (c.toUInt8 - 87)
  else if 'A' ≤ c ∧ c ≤ 'F' then some (c.toUInt8 - 55)
  else none

/-- The number that the digit at `pos` stands for. -/
def readHexDigit (pos : Nat) (c : Char) : Except DumpError UInt8 :=
  match hexValue? c with
  | some d => pure d
  | none => throw (.invalidDigit pos c)

/-- The bytes that pairs of hexadecimal digits stand for; `pos` is the position of the first one. -/
def readHexDigits (pos : Nat) : List Char → Except DumpError (List UInt8)
  | [] => pure []
  | [c] => do
    let low ← readHexDigit pos c
    pure [low]
  | c :: c' :: cs => do
    let high ← readHexDigit pos c
    let low ← readHexDigit (pos + 1) c'
    let bytes ← readHexDigits (pos + 2) cs
    pure ((high <<< 4 ||| low) :: bytes)

/-- The bytes of a group. -/
def Group.hexBytes (g : Group) : Except DumpError (List UInt8) :=
  if utf8Length g.chars % 2 = 1 then throw (.oddGroup g.start)
  else readHexDigits g.start g.chars

/-- The bytes of a text of hexadecimal digits (`unhexlify`). -/
def parseHex (text : String) : Except DumpError (List UInt8) := do
  let gs ← (groups 0 text.toList).mapM Group.hexBytes
  pure gs.flatten

end Bitwire
