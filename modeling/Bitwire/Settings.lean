import Bitwire.Json.Value
import Bitwire.Stream.Text

/-!
# Stored settings

The settings of a stream that can be stored are the byte order of the host; the system allocator,
which has no settings of its own, is stored beside it as a null. They are read back from an object
with both fields, each of them once and in any order, or from an array of both; fields with other
names are passed over.

* `ByteOrder.json`, `settingsJson`, `describeSettings`: the texts.
* `settings?`: the way back.
-/

namespace Bitwire

/-- A stored byte order. -/
def ByteOrder.json (o : ByteOrder) : String := "\"" ++ o.tag ++ "\""

/-- Stored settings (`StreamConfig`, serialized). -/
def settingsJson (o : ByteOrder) : String :=
  "\x7b\"byte_order\":" ++ o.json ++ ",\"alloc\":null\x7d"

/-- Settings as shown in a report (`Debug` of `StreamConfig`). -/
def describeSettings (o : ByteOrder) : String :=
  "StreamConfig \x7b byte_order: " ++ o.tag ++ ", alloc: SystemAlloc \x7d"

namespace Json

/-- The byte order with a name. -/
def orderNamed? (s : String) : Option ByteOrder :=
  if s = ByteOrder.little.tag then some .little
  else if s = ByteOrder.big.tag then some .big
  else none

/-- Reads a null. -/
def null? (cs : List Char) : Option (List Char) := expect? ['n', 'u', 'l', 'l'] (dropBlanks cs)

/-- Reads a byte order: its name, or an object with its name as the only key, of null. -/
def order? (cs : List Char) : Option (ByteOrder × List Char) :=
  match dropBlanks cs with
  | '"' :: rest => do
    let (s, rest) ← string? rest
    return (← orderNamed? s, rest)
  | '\x7b' :: rest => do
    let rest ← expect? ['"'] (dropBlanks rest)
    let (s, rest) ← string? rest
    let o ← orderNamed? s
    let rest ← expect? [':'] (dropBlanks rest)
    let rest ← null? rest
    return (o, ← expect? ['\x7d'] (dropBlanks rest))
  | _ => none

/-- The fields that were read so far. -/
structure Fields where
  order : Option ByteOrder := none
  alloc : Bool := false

/-- Reads the value of the field with a name. -/
def field? (known : Fields) (name : String) (cs : List Char) : Option (Fields × List Char) :=
  if name = "byte_order" then
    match known.order with
    | some _ => none
    | none => do
      let (o, rest) ← order? cs
      return ({ known with order := some o }, rest)
  else if name = "alloc" then
    if known.alloc then none
    else do
      let rest ← null? cs
      return ({ known with alloc := true }, rest)
  else do
    let rest ← skipValue? cs
    return (known, rest)

/-- Reads one or more fields of an object, up to its closing bracket. -/
def fields? : Nat → Fields → List Char → Option (Fields × List Char)
  | 0, _, _ => none
  | steps + 1, known, cs => do
    let rest ← expect? ['"'] (dropBlanks cs)
    let (name, rest) ← string? rest
    let rest ← expect? [':'] (dropBlanks rest)
    let (known, rest) ← field? known name rest
    match dropBlanks rest with
    | ',' :: rest => fields? steps known rest
    | '\x7d' :: rest => some (known, rest)
    | _ => none

/-- Reads settings in an array. -/
def settingsArray? (cs : List Char) : Option (ByteOrder × List Char) := do
  let (o, rest) ← order? cs
  let rest ← expect? [','] (dropBlanks rest)
  let rest ← null? rest
  return (o, ← expect? [']'] (dropBlanks rest))

/-- Reads settings in an object. -/
def settingsObject? (cs : List Char) : Option (ByteOrder × List Char) := do
  let (known, rest) ← fields? (cs.length + 1) {} cs
  if known.alloc then return (← known.order, rest) else none

end Json

/-- The settings that a text stores, with nothing but blanks around them. -/
def settings? (text : String) : Option ByteOrder := do
  let (o, rest) ←
    match Json.dropBlanks text.toList with
    | '[' :: cs => Json.settingsArray? cs
    | '\x7b' :: cs => Json.settingsObject? cs
    | _ => none
  if (Json.dropBlanks rest).isEmpty then some o else none

end Bitwire
