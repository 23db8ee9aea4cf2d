import Bitwire.Codec.Mini

/-!
# 24-bit numbers, identifiers and addresses

The values of a transport that are no plain integers, with their full-width and their mini codes.

* `U24`: three bytes, least significant first.
* `Guid`: an opaque identifier of 64 bits.
* `SocketV4`, `Socket`: a version byte, the octets of the host and the port. The octets of a version
  4 host are complemented, so that no middlebox takes them for an address and replaces them. Flow
  and scope of a version 6 address stay behind.
-/

namespace Bitwire

/-! ## 24-bit numbers -/

/-- A number of 24 bits, kept in 32. -/
structure U24 where
  val : BitVec 32
  le_max : val.toNat ≤ 0xFFFFFF
deriving DecidableEq

namespace U24

/-- The largest number of 24 bits. -/
def max : U24 := ⟨0xFFFFFF, by decide⟩

instance : Inhabited U24 := ⟨⟨0, by decide⟩⟩

instance : Ord U24 := ⟨fun a b => compare a.val.toNat b.val.toNat⟩

/-- A number of 16 bits. -/
def ofWord (n : BitVec 16) : U24 :=
  ⟨n.setWidth 32, by rw [BitVec.toNat_setWidth]; have := n.isLt; omega⟩

/-- The number as text. -/
def describe (x : U24) : String := s!"U24({x.val.toNat})"

/-- The number `n`, if 24 bits hold it (`new`). -/
def check (n : Nat) : Except Fault U24 :=
  if h : n ≤ 0xFFFFFF then
    pure ⟨BitVec.ofNat 32 n, by rw [BitVec.toNat_ofNat, Nat.mod_eq_of_lt (by omega)]; exact h⟩
  else throw (.tooWide n)

/-- Three bytes, least significant first (`encode`). -/
def code (o : ByteOrder) (x : U24) : Code :=
  [.run ((o.reorder .little (o.bytes 4 x.val.toNat)).take 3) 24 true]

/-- Reads three bytes, least significant first; the fourth one is zero (`decode`). -/
def read : StreamM U24 := do
  let image ← Stream.readRun 24 true
  let o ← Stream.order
  check (o.number (ByteOrder.little.reorder o (image ++ [0])))

/-- The mini code of the number as one of 32 bits (`encode_mini`). -/
def mini (o : ByteOrder) (x : U24) : Code := miniNumber o 4 false x.val.toNat

/-- Reads a mini code of 32 bits, which has to stand for a number of 24 bits (`decode_mini`). -/
def readMini : StreamM U24 := do
  let n ← readMiniNumber 4 false
  check n

end U24

/-! ## Identifiers -/

/-- An opaque identifier. -/
structure Guid where
  val : BitVec 64
deriving DecidableEq

namespace Guid

/-- The identifier of a peer that is not yet known. -/
def unassigned : Guid := ⟨BitVec.allOnes 64⟩

instance : Inhabited Guid := ⟨⟨0⟩⟩

instance : Ord Guid := ⟨fun a b => compare a.val.toNat b.val.toNat⟩

end Guid

/-! ## Addresses -/

/-- A version 4 host and a port. -/
structure SocketV4 where
  host : BitVec 32
  port : BitVec 16
deriving DecidableEq

/-- A version 6 host and a port, with what only its own machine needs to know. -/
structure SocketV6 where
  host : BitVec 128
  port : BitVec 16
  flow : BitVec 32
  scope : BitVec 32
deriving DecidableEq

/-- An address of either version. -/
inductive Socket
  | v4 (a : SocketV4)
  | v6 (a : SocketV6)
deriving DecidableEq

/-- A port, in network order on every host (`write_port`). -/
def portCode (port : BitVec 16) : Code := [.run (ByteOrder.network.bytes 2 port.toNat) 16 true]

/-- Reads a port (`read_port`). -/
def readPort : StreamM (BitVec 16) := do
  let image ← Stream.readRun 16 true
  pure (BitVec.ofNat 16 (ByteOrder.network.number image))

namespace SocketV4

/-- The version byte. -/
def tag : Nat := 4

/-- The octets of the host, in network order. -/
def octets (a : SocketV4) : List UInt8 := ByteOrder.network.bytes 4 a.host.toNat

/-- The full-width code (`write_v4`). -/
def code (o : ByteOrder) (a : SocketV4) : Code :=
  numberCode o 1 tag ++ .run (a.octets.map (~~~ ·)) 32 true :: portCode a.port

/-- The mini code: version byte, complemented host and port, each on its own (`write_mini_v4`). -/
def mini (o : ByteOrder) (a : SocketV4) : Code :=
  miniNumber o 1 false tag ++ miniNumber o 4 false (~~~ a.host).toNat ++
    miniNumber o 2 false a.port.toNat

/-- Reads what follows the version byte (`read_v4_body`). -/
def readBody : StreamM SocketV4 := do
  let octets ← Stream.readRun 32 true
  let port ← readPort
  pure ⟨BitVec.ofNat 32 (ByteOrder.network.number (octets.map (~~~ ·))), port⟩

/-- Reads what follows the version byte of a mini code (`read_mini_v4_body`). -/
def readMiniBody : StreamM SocketV4 := do
  let host ← readMiniNumber 4 false
  let port ← readMiniNumber 2 false
  pure ⟨~~~ BitVec.ofNat 32 host, BitVec.ofNat 16 port⟩

/-- Reads a version 4 address (`decode`). -/
def read : StreamM SocketV4 := do
  let n ← readNumber 1
  if n = tag then readBody else throw (.notV4 n)

/-- Reads the mini code of a version 4 address (`decode_mini`). -/
def readMini : StreamM SocketV4 := do
  let n ← readMiniNumber 1 false
  if n = tag then readMiniBody else throw (.notV4 n)

end SocketV4

namespace SocketV6

/-- The version byte. -/
def tag : Nat := 6

/-- The octets of the host, in network order. -/
def octets (a : SocketV6) : List UInt8 := ByteOrder.network.bytes 16 a.host.toNat

/-- The upper half of the host. -/
def high (a : SocketV6) : BitVec 64 := a.host.extractLsb' 64 64

/-- The lower half of the host. -/
def low (a : SocketV6) : BitVec 64 := a.host.extractLsb' 0 64

/-- The full-width code (`write_v6`). -/
def code (o : ByteOrder) (a : SocketV6) : Code :=
  numberCode o 1 tag ++ .run a.octets 128 true :: portCode a.port

/-- The mini code: version byte, both halves of the host and port, each on its own (`write_mini_v6`). -/
def mini (o : ByteOrder) (a : SocketV6) : Code :=
  miniNumber o 1 false tag ++ miniNumber o 8 false a.high.toNat ++
    miniNumber o 8 false a.low.toNat ++ miniNumber o 2 false a.port.toNat

/-- Reads what follows the version byte (`read_v6_body`). -/
def readBody : StreamM SocketV6 := do
  let octets ← Stream.readRun 128 true
  let port ← readPort
  pure ⟨BitVec.ofNat 128 (ByteOrder.network.number octets), port, 0, 0⟩

/-- Reads what follows the version byte of a mini code (`read_mini_v6_body`). -/
def readMiniBody : StreamM SocketV6 := do
  let high ← readMiniNumber 8 false
  let low ← readMiniNumber 8 false
  let port ← readMiniNumber 2 false
  pure ⟨BitVec.ofNat 64 high ++ BitVec.ofNat 64 low, BitVec.ofNat 16 port, 0, 0⟩

end SocketV6

namespace Socket

/-- The full-width code. -/
def code (o : ByteOrder) : Socket → Code
  | v4 a => a.code o
  | v6 a => a.code o

/-- The mini code. -/
def mini (o : ByteOrder) : Socket → Code
  | v4 a => a.mini o
  | v6 a => a.mini o

/-- Reads an address of either version (`decode`). -/
def read : StreamM Socket := do
  let n ← readNumber 1
  if n = SocketV4.tag then return v4 (← SocketV4.readBody)
  else if n = SocketV6.tag then return v6 (← SocketV6.readBody)
  else throw (.unknownVersion n)

/-- Reads the mini code of an address of either version (`decode_mini`). -/
def readMini : StreamM Socket := do
  let n ← readMiniNumber 1 false
  if n = SocketV4.tag then return v4 (← SocketV4.readMiniBody)
  else if n = SocketV6.tag then return v6 (← SocketV6.readMiniBody)
  else throw (.unknownVersion n)

end Socket

end Bitwire
