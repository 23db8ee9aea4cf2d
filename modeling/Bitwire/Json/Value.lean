import Bitwire.Json.Token

/-!
# Passing over JSON values

A value that nobody asks for is passed over; it only has to be well formed. Arrays and objects nest,
so the recursion is on a bound for the number of steps, for which three times the length of the text
is enough: of three steps in a row at least one takes a character.
-/

namespace Bitwire.Json

/-- What stands between the brackets of a collection. -/
inductive Frame
  | array
  | object
deriving DecidableEq

/-- The bracket at the end of a collection. -/
def Frame.close : Frame → Char
  | array => ']'
  | object => '\x7d'

/-- What is left behind the key and the colon of a member; the items of an array have none. -/
def dropKey? : Frame → List Char → Option (List Char)
  | .array, cs => some cs
  | .object, cs => do
    let rest ← expect? ['"'] (dropBlanks cs)
    let (_, rest) ← stringUnits? rest
    expect? [':'] (dropBlanks rest)

mutual

/-- What is left behind a value. -/
def dropValue? : Nat → List Char → Option (List Char)
  | 0, _ => none
  | steps + 1, cs =>
    match dropBlanks cs with
    | 'n' :: rest => expect? ['u', 'l', 'l'] rest
    | 't' :: rest => expect? ['r', 'u', 'e'] rest
    | 'f' :: rest => expect? ['a', 'l', 's', 'e'] rest
    | '"' :: rest => (stringUnits? rest).map Prod.snd
    | '[' :: rest => dropItems? steps .array rest
    | '\x7b' :: rest => dropItems? steps .object rest
    | rest => dropNumber? rest

/-- What is left behind the items of a collection, from behind its opening bracket. -/
def dropItems? : Nat → Frame → List Char → Option (List Char)
  | 0, _, _ => none
  | steps + 1, frame, cs =>
    match dropBlanks cs with
    | [] => none
    | c :: rest => if c = frame.close then some rest else dropMore? steps frame (c :: rest)

/-- What is left behind one or more items of a collection. -/
def dropMore? : Nat → Frame → List Char → Option (List Char)
  | 0, _, _ => none
  | steps + 1, frame, cs => do
    let rest ← dropValue? steps (← dropKey? frame cs)
    match dropBlanks rest with
    | [] => none
    | c :: rest =>
      if c = ',' then dropMore? steps frame rest
      else if c = frame.close then some rest
      else none

end

/-- What is left behind a value. -/
def skipValue? (cs : List Char) : Option (List Char) := dropValue? (3 * cs.length + 1) cs

end Bitwire.Json
