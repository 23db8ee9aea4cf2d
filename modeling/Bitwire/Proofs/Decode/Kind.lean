import Bitwire.Proofs.Decode.Number

/-!
# Reading values back

A value of every kind comes back from its full-width code, and a value of every kind but the
floating-point ones from its mini code. Only the flow and the scope of a version 6 address are lost.

* `Kind.received`: what comes back of a value.
* `Kind.decodes_read`, `Kind.decodes_readMini`: values come back.
-/

namespace Bitwire

open Bitwire.Stream

/-- An address without flow and scope. -/
def SocketV6.received (a : SocketV6) : SocketV6 := { a with flow := 0, scope := 0 }

/-- What comes back of an address: all but flow and scope. -/
def Socket.received : Socket → Socket
  | v4 a => v4 a
  | v6 a => v6 a.received

/-- What comes back of a value. -/
def Kind.received : (k : Kind) → k.Val → k.Val
  | socket, a => a.received
  | int _, w => w
  | bool, b => b
  | single, x => x
  | double, x => x
  | u24, x => x
  | guid, g => g
  | v4, a => a

/-- Exact kinds come back from their mini codes. -/
def Kind.Exact (k : Kind) : Prop := k ≠ single ∧ k ≠ double

/-! ## Bit patterns -/

theorem toNat_lt_pow {k : Nat} (w : BitVec (8 * k)) : w.toNat < 256 ^ k := by
  have := w.isLt
  rwa [Nat.pow_mul] at this

theorem ofNat_toNat_self {n : Nat} (w : BitVec n) : BitVec.ofNat n w.toNat = w := by
  rw [BitVec.ofNat_toNat, BitVec.setWidth_eq]

/-- The image of a bit pattern stands for it. -/
theorem ofNat_number_bytes (o : ByteOrder) {k : Nat} (w : BitVec (8 * k)) :
    BitVec.ofNat (8 * k) (o.number (o.bytes k w.toNat)) = w := by
  rw [ByteOrder.number_bytes, Nat.mod_eq_of_lt (toNat_lt_pow w), ofNat_toNat_self]

section Patterns

variable {α : Type} (o : ByteOrder) {k : Nat} (h0 : k ≠ 0) (f : BitVec (8 * k) → α) (w : BitVec (8 * k))
  (position : Nat)
include h0

/-- What is kept as a bit pattern of whole bytes comes back from its full-width code. -/
theorem decodes_pattern :
    Decodes (do return f (BitVec.ofNat (8 * k) (← readNumber k))) position
      ((numberCode o k w.toNat).bits position) (f w) := by
  have := (decodes_readNumber o h0 (toNat_lt_pow w) position).map
    fun n => f (BitVec.ofNat (8 * k) n)
  rwa [ofNat_toNat_self] at this

theorem decodes_miniPattern (signed : Bool) :
    Decodes (do return f (BitVec.ofNat (8 * k) (← readMiniNumber k signed))) position
      ((miniNumber o k signed w.toNat).bits position) (f w) := by
  have := (decodes_readMiniNumber o signed h0 (toNat_lt_pow w) position).map
    fun n => f (BitVec.ofNat (8 * k) n)
  rwa [ofNat_toNat_self] at this

end Patterns

/-! ## 24-bit numbers -/

namespace U24

theorem check_toNat (x : U24) : check x.val.toNat = .ok x := by
  unfold check
  rw [dif_pos x.le_max]
  congr 1
  obtain ⟨v, hv⟩ := x
  simp

/-- The fourth byte of a 24-bit number is zero. -/
theorem bytes_eq (x : U24) :
    ByteOrder.little.bytes 4 x.val.toNat = (ByteOrder.little.bytes 4 x.val.toNat).take 3 ++ [0] := by
  have h := x.le_max
  have htop : UInt8.ofNat (x.val.toNat / 256 / 256 / 256) = 0 := by
    rw [show x.val.toNat / 256 / 256 / 256 = 0 by omega]
    rfl
  simp [ByteOrder.bytes, littleBytes, htop]

theorem decodes_read (o : ByteOrder) (x : U24) (position : Nat) :
    Decodes U24.read position ((x.code o).bits position) x := by
  have hrun := decodes_readRun_bytes position true (k := 3)
    ((ByteOrder.little.bytes 4 x.val.toNat).take 3) (by simp) (by decide)
  unfold code
  rw [ByteOrder.reorder_bytes, Code.bits_run position true (k := 3) (by simp), Code.bits_nil]
  refine hrun.bind (.order fun o' => ?_)
  rw [← bytes_eq, ByteOrder.number_reorder_bytes _ _ (by have := x.le_max; omega), check_toNat]
  exact .pure x _

theorem decodes_readMini (o : ByteOrder) (x : U24) (position : Nat) :
    Decodes U24.readMini position ((x.mini o).bits position) x := by
  have hn := decodes_readMiniNumber o false (k := 4) (n := x.val.toNat) (by decide)
    (by have := x.le_max; omega) position
  unfold mini
  rw [← List.append_nil (Code.bits _ _)]
  refine hn.bind ?_
  rw [check_toNat]
  exact .pure x _

end U24

/-! ## Addresses -/

theorem decodes_readPort (port : BitVec 16) (position : Nat) :
    Decodes readPort position ((portCode port).bits position) port := by
  have hlen := ByteOrder.length_bytes .network 2 port.toNat
  have hrun := decodes_readRun_bytes position true _ hlen (by decide)
  have := hrun.map fun image => BitVec.ofNat 16 (ByteOrder.network.number image)
  rw [ofNat_number_bytes .network (k := 2) port] at this
  unfold portCode
  rwa [Code.bits_run position true hlen, Code.bits_nil, List.append_nil]

namespace SocketV4

theorem complement_complement (bs : List UInt8) : (bs.map (~~~ ·)).map (~~~ ·) = bs := by
  rw [List.map_map, List.map_congr_left (g := id), List.map_id]
  intro b _
  exact UInt8.not_not

theorem decodes_readBody (a : SocketV4) (position : Nat) :
    Decodes readBody position
      (Code.bits position (.run (a.octets.map (~~~ ·)) 32 true :: portCode a.port)) a := by
  have hlen : (a.octets.map (~~~ ·)).length = 4 := by
    rw [List.length_map]
    exact ByteOrder.length_bytes _ 4 _
  have hhost : BitVec.ofNat 32 (ByteOrder.network.number a.octets) = a.host :=
    ofNat_number_bytes .network (k := 4) a.host
  rw [Code.bits_run position true (k := 4) hlen]
  refine (decodes_readRun_bytes position true _ hlen (by decide)).bind ?_
  rw [length_bitsOf, hlen, complement_complement, hhost]
  exact (decodes_readPort a.port (position + 32)).map (SocketV4.mk a.host)

theorem decodes_readMiniBody (o : ByteOrder) (a : SocketV4) (position : Nat) :
    Decodes readMiniBody position
      (Code.bits position
        (miniNumber o 4 false (~~~ a.host).toNat ++ miniNumber o 2 false a.port.toNat)) a := by
  have hhost := decodes_readMiniNumber o false (k := 4) (by decide)
    (toNat_lt_pow (k := 4) (~~~ a.host)) position
  refine hhost.bind_code fun position => ?_
  have hport := decodes_readMiniNumber o false (k := 2) (by decide)
    (toNat_lt_pow (k := 2) a.port) position
  have := hport.map fun port => SocketV4.mk a.host (BitVec.ofNat 16 port)
  rw [ofNat_toNat_self] at this
  rw [ofNat_toNat_self, BitVec.not_not]
  exact this

theorem decodes_read (o : ByteOrder) (a : SocketV4) (position : Nat) :
    Decodes SocketV4.read position ((a.code o).bits position) a := by
  refine (decodes_readNumber o (k := 1) (n := tag) (by decide) (by decide) position).bind_code
    fun position => ?_
  rw [if_pos rfl]
  exact a.decodes_readBody position

theorem decodes_readMini (o : ByteOrder) (a : SocketV4) (position : Nat) :
    Decodes SocketV4.readMini position ((a.mini o).bits position) a := by
  unfold mini
  rw [List.append_assoc]
  refine (decodes_readMiniNumber o false (k := 1) (n := tag) (by decide) (by decide)
    position).bind_code fun position => ?_
  rw [if_pos rfl]
  exact a.decodes_readMiniBody o position

end SocketV4

namespace SocketV6

theorem decodes_readBody (a : SocketV6) (position : Nat) :
    Decodes readBody position
      (Code.bits position (.run a.octets 128 true :: portCode a.port)) a.received := by
  have hlen : a.octets.length = 16 := ByteOrder.length_bytes _ 16 _
  have hhost : BitVec.ofNat 128 (ByteOrder.network.number a.octets) = a.host :=
    ofNat_number_bytes .network (k := 16) a.host
  rw [Code.bits_run position true (k := 16) hlen]
  refine (decodes_readRun_bytes position true _ hlen (by decide)).bind ?_
  rw [length_bitsOf, hlen, hhost]
  exact (decodes_readPort a.port (position + 128)).map fun port => SocketV6.mk a.host port 0 0

theorem high_append_low (a : SocketV6) : a.high ++ a.low = a.host := by
  unfold high low
  exact BitVec.extractLsb'_append_extractLsb'_eq_extractLsb' rfl |>.trans (by simp)

theorem decodes_readMiniBody (o : ByteOrder) (a : SocketV6) (position : Nat) :
    Decodes readMiniBody position
      (Code.bits position (miniNumber o 8 false a.high.toNat ++
        (miniNumber o 8 false a.low.toNat ++ miniNumber o 2 false a.port.toNat))) a.received := by
  have half (w : BitVec 64) (position : Nat) := decodes_readMiniNumber o false (k := 8) (by decide)
    (toNat_lt_pow (k := 8) w) position
  refine (half a.high position).bind_code fun position => (half a.low position).bind_code
    fun position => ?_
  have hport := decodes_readMiniNumber o false (k := 2) (by decide)
    (toNat_lt_pow (k := 2) a.port) position
  have := hport.map fun port => SocketV6.mk a.host (BitVec.ofNat 16 port) 0 0
  rw [ofNat_toNat_self] at this
  rw [ofNat_toNat_self, ofNat_toNat_self, high_append_low]
  exact this

end SocketV6

namespace Socket

theorem decodes_read (o : ByteOrder) (a : Socket) (position : Nat) :
    Decodes Socket.read position ((a.code o).bits position) a.received := by
  cases a with
  | v4 a =>
    refine (decodes_readNumber o (k := 1) (n := SocketV4.tag) (by decide) (by decide)
      position).bind_code fun position => ?_
    rw [if_pos rfl]
    exact (a.decodes_readBody position).map v4
  | v6 a =>
    refine (decodes_readNumber o (k := 1) (n := SocketV6.tag) (by decide) (by decide)
      position).bind_code fun position => ?_
    rw [if_neg (by decide), if_pos rfl]
    exact (a.decodes_readBody position).map v6

theorem decodes_readMini (o : ByteOrder) (a : Socket) (position : Nat) :
    Decodes Socket.readMini position ((a.mini o).bits position) a.received := by
  cases a with
  | v4 a =>
    change Decodes _ _ (Code.bits _ (a.mini o)) _
    unfold SocketV4.mini
    rw [List.append_assoc]
    refine (decodes_readMiniNumber o false (k := 1) (n := SocketV4.tag) (by decide) (by decide)
      position).bind_code fun position => ?_
    rw [if_pos rfl]
    exact (a.decodes_readMiniBody o position).map v4
  | v6 a =>
    change Decodes _ _ (Code.bits _ (a.mini o)) _
    unfold SocketV6.mini
    rw [List.append_assoc, List.append_assoc]
    refine (decodes_readMiniNumber o false (k := 1) (n := SocketV6.tag) (by decide) (by decide)
      position).bind_code fun position => ?_
    rw [if_neg (by decide), if_pos rfl]
    exact (a.decodes_readMiniBody o position).map v6

end Socket

/-! ## Kinds -/

namespace Kind

/-- Every value comes back from its full-width code. -/
theorem decodes_read (o : ByteOrder) (k : Kind) (v : k.Val) (position : Nat) :
    Decodes k.read position ((k.code o v).bits position) (k.received v) := by
  cases k with
  | int t => exact decodes_pattern o (bytes_ne_zero t) id v position
  | bool => exact decodes_readBit v position
  | single => exact decodes_pattern o (k := 4) (by decide) (Binary.mk (p := .single)) v.pattern position
  | double => exact decodes_pattern o (k := 8) (by decide) (Binary.mk (p := .double)) v.pattern position
  | u24 => exact U24.decodes_read o v position
  | guid => exact decodes_pattern o (k := 8) (by decide) Guid.mk v.val position
  | v4 => exact v.decodes_read o position
  | socket => exact v.decodes_read o position

/-- Every value of an exact kind comes back from its mini code. -/
theorem decodes_readMini (o : ByteOrder) {k : Kind} (hk : k.Exact) (v : k.Val) {code : Code}
    (h : k.mini o v = .ok code) (position : Nat) :
    Decodes k.readMini position (code.bits position) (k.received v) := by
  cases k with
  | int t =>
    cases h
    exact decodes_miniPattern o (bytes_ne_zero t) id v position t.signed
  | bool =>
    cases h
    exact decodes_readBit v position
  | single => exact absurd rfl hk.1
  | double => exact absurd rfl hk.2
  | u24 =>
    cases h
    exact U24.decodes_readMini o v position
  | guid =>
    cases h
    exact decodes_miniPattern o (k := 8) (by decide) Guid.mk v.val position false
  | v4 =>
    cases h
    exact v.decodes_readMini o position
  | socket =>
    cases h
    exact v.decodes_readMini o position

end Kind

end Bitwire
