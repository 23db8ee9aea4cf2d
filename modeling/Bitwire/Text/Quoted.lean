import Bitwire.Text.Graphic

/-!
# Quoted characters

A character in a report stands between single quotes. What does not show on its own is given by its
number, and the characters that have a short escape by that escape.
-/

namespace Bitwire

/-- The escape of a character inside single quotes, if it has a short one. -/
def shortEscape? (c : Char) : Option String :=
  if c = '\x00' then some "\\0"
  else if c = '\t' then some "\\t"
  else if c = '\r' then some "\\r"
  else if c = '\n' then some "\\n"
  else if c = '\x27' then some "\\'"
  else if c = '\\' then some "\\\\"
  else none

/-- The escape of a character by its number. -/
def numberEscape (c : Char) : String :=
  "\\u\x7b" ++ String.ofList (Nat.toDigits 16 c.toNat) ++ "\x7d"

/-- A character between single quotes. -/
def quoteChar (c : Char) : String :=
  let inner := match shortEscape? c with
    | some e => e
    | none => if showsAlone c then c.toString else numberEscape c
  "'" ++ inner ++ "'"

end Bitwire
