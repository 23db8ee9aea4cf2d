import Bitwire.Dump
import Bitwire.Stream.Basic

/-!
# Streams as text

A stream is shown by its setup, its positions and a dump of its written bytes, on one line or with
one field on each line.
-/

namespace Bitwire

/-- The storage as text (`Debug` of `StorageKind`). -/
def Storage.describe : Storage → String
  | inline => "Inline"
  | owned => "Owned"
  | borrowed => "Borrowed"

namespace Stream

/-- The names and texts of what is shown. -/
def fields (s : Stream) : List (String × String) := [
  ("storage", s.storage.describe),
  ("byte_order", s.setup.order.tag),
  ("write_pos", toString s.writePos),
  ("read_pos", toString s.readPos),
  ("capacity_bits", toString s.capacity),
  ("data", "\"" ++ hexDump s.bytes s.writePos ++ "\"")]

/-- The stream on one line (`Debug` of `BitStream`). -/
def describe (s : Stream) : String :=
  let fields := s.fields.map fun (name, text) => name ++ ": " ++ text
  "BitStream \x7b " ++ String.intercalate ", " fields ++ " \x7d"

/-- The stream with one field on each line. -/
def describeLines (s : Stream) : String :=
  let lines := s.fields.map fun (name, text) => "    " ++ name ++ ": " ++ text ++ ",\n"
  "BitStream \x7b\n" ++ String.join lines ++ "\x7d"

end Stream

end Bitwire
