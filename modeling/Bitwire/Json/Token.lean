/-!
# Tokens of JSON texts

Readers for the smallest parts of a JSON text. A reader takes the characters that are left and
returns, with what it read, those behind it; it has no result if the text is wrong there.

* `dropBlanks`, `expect?`: blanks and fixed characters.
* `stringUnits?`, `string?`: strings, as code units and as characters.
* `dropNumber?`: numbers.
-/

namespace Bitwire.Json

/-- The characters that may stand between tokens. -/
def isBlank (c : Char) : Bool := c = ' ' || c = '\t' || c = '\n' || c = '\r'

/-- What is left behind blanks. -/
def dropBlanks (cs : List Char) : List Char := cs.dropWhile isBlank

/-- What is left behind a fixed run of characters. -/
def expect? : List Char → List Char → Option (List Char)
  | [], cs => some cs
  | e :: es, c :: cs => if e = c then expect? es cs else none
  | _ :: _, [] => none

/-! ## Strings -/

/-- The number that a hexadecimal digit stands for. -/
def hexDigit? (c : Char) : Option Nat :=
  if c.isDigit then some (c.toNat - 48)
  else if 'a' ≤ c ∧ c ≤ 'f' then some (c.toNat - 87)
  else if 'A' ≤ c ∧ c ≤ 'F' then some (c.toNat - 55)
  else none

/-- The code unit that four hexadecimal digits stand for. -/
def hexUnit? (a b c d : Char) : Option Nat := do
  let high := (← hexDigit? a) * 16 + (← hexDigit? b)
  let low := (← hexDigit? c) * 16 + (← hexDigit? d)
  return high * 256 + low

/-- The character that an escape of one letter stands for. -/
def escaped? (c : Char) : Option Char :=
  if c = '"' ∨ c = '\\' ∨ c = '/' then some c
  else if c = 'b' then some '\x08'
  else if c = 'f' then some '\x0c'
  else if c = 'n' then some '\n'
  else if c = 'r' then some '\r'
  else if c = 't' then some '\t'
  else none

/-- Puts a unit before what was read behind it. -/
def andThen (u : Nat) : Option (List Nat × List Char) → Option (List Nat × List Char)
  | some (us, rest) => some (u :: us, rest)
  | none => none

/-- The inside of a string, up to the closing quote: the numbers of its characters, where an escape
by number gives a code unit. Control characters have to be escaped. -/
def stringUnits? : List Char → Option (List Nat × List Char)
  | [] => none
  | '"' :: cs => some ([], cs)
  | '\\' :: 'u' :: a :: b :: c :: d :: cs =>
    match hexUnit? a b c d with
    | some u => andThen u (stringUnits? cs)
    | none => none
  | '\\' :: e :: cs =>
    match escaped? e with
    | some c => andThen c.toNat (stringUnits? cs)
    | none => none
  | c :: cs => if c.toNat < 32 then none else andThen c.toNat (stringUnits? cs)

/-- Whether a code unit is the first of a pair. -/
def isHighUnit (u : Nat) : Bool := 0xD800 ≤ u && u < 0xDC00

/-- Whether a code unit is the second of a pair. -/
def isLowUnit (u : Nat) : Bool := 0xDC00 ≤ u && u < 0xE000

/-- The characters that code units stand for, unless one of a pair stands alone. -/
def characters? : List Nat → Option (List Char)
  | [] => some []
  | u :: v :: us =>
    if isHighUnit u then
      if isLowUnit v then
        (characters? us).map (Char.ofNat (0x10000 + (u - 0xD800) * 0x400 + (v - 0xDC00)) :: ·)
      else none
    else if isLowUnit u then none
    else (characters? (v :: us)).map (Char.ofNat u :: ·)
  | [u] => if isHighUnit u || isLowUnit u then none else some [Char.ofNat u]

/-- A string from behind its opening quote. -/
def string? (cs : List Char) : Option (String × List Char) := do
  let (units, rest) ← stringUnits? cs
  return (String.ofList (← characters? units), rest)

/-! ## Numbers -/

/-- What is left behind at least one digit. -/
def dropDigits? : List Char → Option (List Char)
  | c :: cs => if c.isDigit then some (cs.dropWhile Char.isDigit) else none
  | [] => none

/-- What is left behind the exponent of a number, if it has one. -/
def dropExponent? : List Char → Option (List Char)
  | c :: cs =>
    if c = 'e' ∨ c = 'E' then
      match cs with
      | '+' :: ds => dropDigits? ds
      | '-' :: ds => dropDigits? ds
      | ds => dropDigits? ds
    else some (c :: cs)
  | [] => some []

/-- What is left behind the fraction and the exponent of a number, if it has them. -/
def dropFraction? : List Char → Option (List Char)
  | '.' :: cs => dropDigits? cs >>= dropExponent?
  | cs => dropExponent? cs

/-- What is left behind a number without a sign; only a lone zero begins with zero. -/
def dropUnsigned? : List Char → Option (List Char)
  | '0' :: cs =>
    match cs with
    | c :: _ => if c.isDigit then none else dropFraction? cs
    | [] => some []
  | cs => dropDigits? cs >>= dropFraction?

/-- What is left behind a number. -/
def dropNumber? : List Char → Option (List Char)
  | '-' :: cs => dropUnsigned? cs
  | cs => dropUnsigned? cs

end Bitwire.Json
