import Bitwire.Proofs.Message
import Bitwire.Proofs.Refused

/-!
# Full-width codes are canonical

A reader of a full-width code accepts the bits of the format of what it returns and no others. What it
returns is therefore written as exactly the bits that were read, by either host and behind whatever is
on the stream already. A reader of addresses refuses nothing but a version byte that is not its own.

* `Stream.Accepts`: the bits that a reader accepts, the converse of `Stream.Decodes`.
* `Kind.accepts_read`, `Kind.read_eq_ok_iff`: they are those of the format.
* `SocketV4.exists_error_iff`, `Socket.exists_error_iff`: when addresses are refused.
* `read_canonical`: what was read is written back bit by bit.
-/

namespace Bitwire

open Bitwire.Stream Bitwire.Wire

/-! ## Bits as patterns -/

namespace Wire

/-- Every list of bits is that of a pattern. -/
theorem exists_pattern {bits : List Bool} {n : Nat} (h : bits.length = n) :
    ∃ w : BitVec n, pattern w = bits := by
  subst h
  refine ⟨.ofBoolListBE bits, ?_⟩
  apply List.ext_getElem?
  intro i
  by_cases hi : i < bits.length
  · rw [pattern, List.getElem?_map, List.getElem?_range hi, Option.map_some,
      BitVec.getMsbD_ofBoolListBE, List.getD_eq_getElem?_getD, List.getElem?_eq_getElem hi,
      Option.getD_some]
  · rw [List.getElem?_eq_none (by rw [length_pattern]; omega), List.getElem?_eq_none (by omega)]

theorem pattern_inj {n : Nat} {v w : BitVec n} (h : pattern v = pattern w) : v = w := by
  apply BitVec.eq_of_getMsbD_eq
  intro i hi
  exact List.map_inj_left.1 h i (List.mem_range.2 hi)

/-- The bits behind a prefix are a pattern, where there are enough of them. -/
theorem exists_append_pattern {xs bits : List Bool} (h : xs <+: bits) {n : Nat}
    (hn : xs.length + n ≤ bits.length) : ∃ w : BitVec n, xs ++ pattern w <+: bits := by
  obtain ⟨rest, rfl⟩ := h
  rw [List.length_append] at hn
  have hlen : (rest.take n).length = n := by
    rw [List.length_take]
    omega
  obtain ⟨w, hw⟩ := exists_pattern hlen
  refine ⟨w, ?_⟩
  rw [hw]
  exact (List.prefix_append_right_inj xs).2 (List.take_prefix n rest)

/-- Only one pattern of a width is at the head of a list. -/
theorem pattern_unique {n : Nat} {v w : BitVec n} {bits : List Bool} (hv : pattern v <+: bits)
    (hw : pattern w <+: bits) : v = w := by
  have hlen : (pattern v).length = (pattern w).length := by
    rw [length_pattern, length_pattern]
  have hhead : pattern v <+: pattern w := List.prefix_of_prefix_length_le hv hw (Nat.le_of_eq hlen)
  exact pattern_inj (hhead.eq_of_length hlen)

/-- An image of `k` bytes has the bits of the pattern that it stands for. -/
theorem exists_pattern_of_image {k : Nat} {image : List UInt8} (h : image.length = k) :
    ∃ w : BitVec (8 * k), ByteOrder.network.number image = w.toNat ∧ bitsOf image = pattern w := by
  subst h
  have himage := ByteOrder.bytes_number .network image
  have hlt : ByteOrder.network.number image < 2 ^ (8 * image.length) := by
    have hmod := ByteOrder.number_bytes .network image.length (ByteOrder.network.number image)
    rw [himage] at hmod
    rw [hmod, Nat.pow_mul]
    exact Nat.mod_lt _ (Nat.pow_pos (by decide))
  have hnumber : ByteOrder.network.number image =
      (BitVec.ofNat (8 * image.length) (ByteOrder.network.number image)).toNat := by
    rw [BitVec.toNat_ofNat, Nat.mod_eq_of_lt hlt]
  refine ⟨_, hnumber, ?_⟩
  rw [← bitsOf_networkBytes, ← hnumber, himage]

end Wire

/-! ## What readers accept -/

namespace Stream

/-- Whenever `x` returns a value on a valid stream, the unread bits begin with bits that `code` relates
to the value, and `x` passes over exactly these. -/
def Accepts {α : Type} (x : StreamM α) (code : α → List Bool → Prop) : Prop :=
  ∀ (s : Stream) (v : α) (s' : Stream), s.Valid → x.run s = .ok (v, s') →
    ∃ bits, code v bits ∧ bits <+: s.bits.drop s.readPos ∧ s' = s.passed bits.length

namespace Accepts

variable {α β : Type} {x y : StreamM α} {code : α → List Bool → Prop}

theorem pure {v : α} (h : code v []) : Accepts (Pure.pure v) code := by
  intro s w s' _ hrun
  cases hrun
  exact ⟨[], h, List.nil_prefix, rfl⟩

theorem throw (f : Fault) : Accepts (MonadExcept.throw f : StreamM α) code := nofun

theorem lift {e : Except Fault α} (h : ∀ v, e = .ok v → code v []) :
    Accepts (MonadLift.monadLift e : StreamM α) code := by
  cases e with
  | ok v => exact .pure (h v rfl)
  | error f => exact .throw f

theorem imp {code' : α → List Bool → Prop} (hx : Accepts x code)
    (h : ∀ v bits, code v bits → code' v bits) : Accepts x code' := by
  intro s v s' hs hrun
  obtain ⟨bits, hcode, hhead, hs'⟩ := hx s v s' hs hrun
  exact ⟨bits, h v bits hcode, hhead, hs'⟩

theorem ite {c : Prop} [Decidable c] (hx : c → Accepts x code) (hy : ¬ c → Accepts y code) :
    Accepts (if c then x else y) code := by
  split
  · exact hx ‹_›
  · exact hy ‹_›

/-- What the second of two readers accepts may depend on what the first one returned, and on the bits
that it was returned for. -/
theorem bind {f : α → StreamM β} {code' : β → List Bool → Prop} (hx : Accepts x code)
    (hf : ∀ v xs, code v xs → Accepts (f v) fun w ys => code' w (xs ++ ys)) :
    Accepts (x >>= f) code' := by
  intro s w s'' hs hrun
  obtain ⟨v, s', h1, h2⟩ := run_bind_eq_ok_iff.1 hrun
  obtain ⟨xs, hcode, hxs, rfl⟩ := hx s v s' hs h1
  obtain ⟨ys, hcode', hys, rfl⟩ := hf v xs hcode _ w s'' (hs.passed hxs) h2
  refine ⟨xs ++ ys, hcode', append_prefix hxs hys, ?_⟩
  rw [passed_passed, List.length_append]

theorem map (f : α → β) {code' : β → List Bool → Prop} (hx : Accepts x code)
    (h : ∀ v bits, code v bits → code' (f v) bits) : Accepts (do return f (← x)) code' :=
  hx.bind fun v xs hcode => .pure (by
    rw [List.append_nil]
    exact h v xs hcode)

end Accepts

/-! ## Bits, bytes and numbers -/

theorem accepts_readBit : Accepts readBit fun b bits => bits = [b] := by
  intro s b s' hs hrun
  rw [hs.run_readBit] at hrun
  split at hrun
  · cases hrun
    have hle : 1 ≤ s.payload := by
      unfold payload
      omega
    refine ⟨_, rfl, ?_, rfl⟩
    change s.buffer.bitsFrom s.readPos 1 <+: _
    rw [← hs.take_unread hle]
    exact List.take_prefix _ _
  · contradiction

theorem accepts_readRun (k : Nat) (right : Bool) :
    Accepts (readRun (8 * k) right) fun image bits => image.length = k ∧ bits = bitsOf image := by
  intro s image s' hs hrun
  rw [hs.run_readRun] at hrun
  split at hrun
  · contradiction
  · split at hrun
    · contradiction
    · rename_i hle
      cases hrun
      have hlen := Buffer.length_bitsFrom s.buffer s.readPos (8 * k)
      refine ⟨s.buffer.bitsFrom s.readPos (8 * k), ⟨?_, ?_⟩, ?_, ?_⟩
      · rw [length_packRun, hlen, bytesFor_mul]
      · exact (bitsOf_packRun right hlen).symm
      · rw [← hs.take_unread (Nat.le_of_not_lt hle)]
        exact List.take_prefix _ _
      · rw [hlen]

/-- The number that is read is the pattern of the bits. -/
theorem accepts_readNumber (k : Nat) :
    Accepts (readNumber k) fun n bits => ∃ w : BitVec (8 * k), n = w.toNat ∧ bits = pattern w := by
  rw [readNumber_eq]
  refine (accepts_readRun k true).map _ ?_
  rintro image bits ⟨hlen, rfl⟩
  exact exists_pattern_of_image hlen

theorem accepts_pattern {α : Type} (k : Nat) (f : BitVec (8 * k) → α) :
    Accepts (do return f (BitVec.ofNat (8 * k) (← readNumber k)))
      fun v bits => ∃ w, v = f w ∧ bits = pattern w := by
  refine (accepts_readNumber k).map (fun n => f (BitVec.ofNat (8 * k) n)) ?_
  rintro n bits ⟨w, rfl, rfl⟩
  rw [ofNat_toNat_self]
  exact ⟨w, rfl, rfl⟩

end Stream

/-! ## 24-bit numbers -/

namespace U24

theorem toNat_of_check {n : Nat} {x : U24} (h : check n = .ok x) : x.val.toNat = n := by
  unfold check at h
  split at h
  · cases h
    rw [BitVec.toNat_ofNat, Nat.mod_eq_of_lt (by omega)]
  · contradiction

theorem accepts_read : Accepts U24.read fun x bits => bits = bytes (lowBytes 3 x.val) := by
  rw [read_eq]
  refine (accepts_readRun 3 true).bind fun image xs himage => .lift fun x hx => ?_
  obtain ⟨hlen, rfl⟩ := himage
  have hnumber := toNat_of_check hx
  change x.val.toNat = ofLittleBytes (image ++ List.replicate 1 0) at hnumber
  rw [ofLittleBytes_append_zeros] at hnumber
  have hbytes : littleBytes 3 x.val.toNat = image := by
    rw [hnumber, ← hlen]
    exact littleBytes_ofLittleBytes image
  rw [List.append_nil, ← toBitVec_littleBytes, hbytes, bitsOf_eq_bytes]

end U24

/-! ## Addresses -/

theorem accepts_readPort : Accepts readPort fun port bits => bits = pattern port := by
  refine (accepts_readRun 2 true).map (fun image => BitVec.ofNat 16 (ByteOrder.network.number image)) ?_
  rintro image bits ⟨hlen, rfl⟩
  obtain ⟨w, hnumber, hbits⟩ := exists_pattern_of_image hlen
  rw [hnumber, hbits]
  exact congrArg pattern (ofNat_toNat_self w).symm

namespace SocketV4

theorem accepts_readBody :
    Accepts readBody fun a bits => bits = pattern (~~~ a.host) ++ pattern a.port := by
  refine (accepts_readRun 4 true).bind fun octets xs hoctets => accepts_readPort.map _ ?_
  rintro port bits rfl
  obtain ⟨hlen, rfl⟩ := hoctets
  -- the octets are complemented back, so that their complement is the image of the host
  let a : SocketV4 := ⟨BitVec.ofNat 32 (ByteOrder.network.number (octets.map (~~~ ·))), port⟩
  have hlen' : (octets.map (~~~ ·)).length = 4 := by
    rw [List.length_map, hlen]
  obtain ⟨w, hnumber, -⟩ := exists_pattern_of_image hlen'
  have hhost : a.octets = octets.map (~~~ ·) := by
    have himage := ByteOrder.bytes_number .network (octets.map (~~~ ·))
    change ByteOrder.network.bytes 4 (BitVec.ofNat (8 * 4) _).toNat = _
    rw [hnumber, ofNat_toNat_self, ← hnumber, ← hlen', himage]
  have hback : octets = ByteOrder.network.bytes 4 (~~~ a.host).toNat := by
    rw [← a.map_complement_octets, hhost, complement_complement]
  have hbits : bitsOf octets = pattern (~~~ a.host) :=
    calc bitsOf octets = bitsOf (ByteOrder.network.bytes 4 (~~~ a.host).toNat) :=
          congrArg bitsOf hback
      _ = pattern (~~~ a.host) := bitsOf_networkBytes (k := 4) (~~~ a.host)
  exact congrArg (· ++ pattern port) hbits

theorem accepts_read : Accepts SocketV4.read fun a bits => bits = a.wire := by
  refine (accepts_readNumber 1).bind fun n xs htag => .ite (fun h4 => ?_) fun _ => .throw _
  obtain ⟨w, rfl, rfl⟩ := htag
  obtain rfl : w = 4#8 := BitVec.eq_of_toNat_eq h4
  refine accepts_readBody.imp fun a bits hbody => ?_
  rw [hbody, wire, List.append_assoc]

end SocketV4

namespace SocketV6

theorem accepts_readBody :
    Accepts readBody fun a bits => a.received = a ∧ bits = pattern a.host ++ pattern a.port := by
  refine (accepts_readRun 16 true).bind fun octets xs hoctets => accepts_readPort.map _ ?_
  rintro port bits rfl
  obtain ⟨hlen, rfl⟩ := hoctets
  obtain ⟨w, hnumber, hbits⟩ := exists_pattern_of_image hlen
  refine ⟨rfl, ?_⟩
  rw [hbits, hnumber]
  exact congrArg (pattern · ++ pattern port) (ofNat_toNat_self w).symm

end SocketV6

theorem Socket.accepts_read :
    Accepts Socket.read fun a bits => a.received = a ∧ bits = Kind.socket.wire a := by
  refine (accepts_readNumber 1).bind fun n xs htag => .ite (fun h4 => ?_) fun _ =>
    .ite (fun h6 => ?_) fun _ => .throw _
  · obtain ⟨w, rfl, rfl⟩ := htag
    obtain rfl : w = 4#8 := BitVec.eq_of_toNat_eq h4
    refine SocketV4.accepts_readBody.map v4 fun a bits hbody => ⟨rfl, ?_⟩
    rw [hbody, Kind.wire, SocketV4.wire, List.append_assoc]
  · obtain ⟨w, rfl, rfl⟩ := htag
    obtain rfl : w = 6#8 := BitVec.eq_of_toNat_eq h6
    refine SocketV6.accepts_readBody.map v6 fun a bits ⟨hreceived, hbody⟩ =>
      ⟨congrArg v6 hreceived, ?_⟩
    rw [hbody, Kind.wire, SocketV6.wire, List.append_assoc]

/-! ## Kinds -/

namespace Kind

/-- What is read of a kind stands for the bits it was read from, and nothing of it gets lost. -/
theorem accepts_read (k : Kind) : Accepts k.read fun v bits => k.received v = v ∧ bits = k.wire v := by
  cases k with
  | int t =>
    refine (accepts_pattern t.bytes id).imp ?_
    rintro v bits ⟨w, rfl, rfl⟩
    exact ⟨rfl, rfl⟩
  | bool => exact accepts_readBit.imp fun b bits h => ⟨rfl, h⟩
  | single =>
    refine (accepts_pattern 4 (Binary.mk (p := .single))).imp ?_
    rintro v bits ⟨w, rfl, rfl⟩
    exact ⟨rfl, rfl⟩
  | double =>
    refine (accepts_pattern 8 (Binary.mk (p := .double))).imp ?_
    rintro v bits ⟨w, rfl, rfl⟩
    exact ⟨rfl, rfl⟩
  | u24 => exact U24.accepts_read.imp fun x bits h => ⟨rfl, h⟩
  | guid =>
    refine (accepts_pattern 8 Guid.mk).imp ?_
    rintro v bits ⟨w, rfl, rfl⟩
    exact ⟨rfl, rfl⟩
  | v4 => exact SocketV4.accepts_read.imp fun a bits h => ⟨rfl, h⟩
  | socket => exact Socket.accepts_read

/-- A value is read exactly where its format is next and nothing of it gets lost. -/
theorem read_eq_ok_iff (k : Kind) {s : Stream} (hs : s.Valid) {v : k.Val} {s' : Stream} :
    k.read.run s = .ok (v, s') ↔
      k.received v = v ∧ k.wire v <+: s.bits.drop s.readPos ∧ s' = s.passed (k.wire v).length := by
  constructor
  · intro h
    obtain ⟨bits, ⟨hreceived, rfl⟩, hhead, hs'⟩ := k.accepts_read s v s' hs h
    exact ⟨hreceived, hhead, hs'⟩
  · rintro ⟨hreceived, hhead, rfl⟩
    have hdecodes := k.decodes_read .network v s.readPos
    rw [k.bits_code, hreceived] at hdecodes
    exact hdecodes s hs rfl hhead

theorem length_wire_le (k : Kind) (v : k.Val) : (k.wire v).length ≤ 152 := by
  cases k with
  | int t =>
    rw [wire, length_pattern]
    cases t <;> decide
  | bool => exact (by decide : 1 ≤ 152)
  | single | double | guid =>
    rw [wire, length_pattern]
    decide
  | u24 =>
    rw [wire, ← toBitVec_littleBytes, ← bitsOf_eq_bytes, length_bitsOf, length_littleBytes]
    decide
  | v4 =>
    rw [wire, SocketV4.wire]
    simp only [List.length_append, length_pattern]
    decide
  | socket =>
    cases v with
    | v4 a =>
      rw [wire, SocketV4.wire]
      simp only [List.length_append, length_pattern]
      decide
    | v6 a =>
      rw [wire, SocketV6.wire]
      simp only [List.length_append, length_pattern]
      decide

end Kind

/-! ## Refused addresses -/

/-- A reader stops where it accepts nothing. -/
theorem Stream.exists_error_iff {α : Type} {x : StreamM α} {s : Stream} :
    (∃ f, x.run s = .error f) ↔ ¬ ∃ v s', x.run s = .ok (v, s') := by
  cases x.run s with
  | ok p =>
    constructor
    · rintro ⟨f, hf⟩
      contradiction
    · intro h
      exact absurd ⟨p.1, p.2, rfl⟩ h
  | error f =>
    constructor
    · rintro - ⟨v, s', hok⟩
      contradiction
    · exact fun _ => ⟨f, rfl⟩

/-- What is the format of an address begins with its version byte and has room for host and port. -/
theorem Wire.exists_address_iff (tag : BitVec 8) (m : Nat) {bits : List Bool} :
    (∃ (host : BitVec m) (port : BitVec 16), pattern tag ++ pattern host ++ pattern port <+: bits) ↔
      pattern tag <+: bits ∧ 8 + m + 16 ≤ bits.length := by
  constructor
  · rintro ⟨host, port, h⟩
    have hlen := h.length_le
    simp only [List.length_append, length_pattern] at hlen
    rw [List.append_assoc] at h
    exact ⟨(List.prefix_append _ _).trans h, hlen⟩
  · rintro ⟨htag, hlen⟩
    obtain ⟨host, hhost⟩ := exists_append_pattern (n := m) htag (by rw [length_pattern]; omega)
    obtain ⟨port, hport⟩ := exists_append_pattern (n := 16) hhost
      (by rw [List.length_append, length_pattern, length_pattern]; omega)
    exact ⟨host, port, hport⟩

theorem SocketV4.exists_wire_iff {bits : List Bool} :
    (∃ a : SocketV4, a.wire <+: bits) ↔ pattern 4#8 <+: bits ∧ 56 ≤ bits.length := by
  rw [← exists_address_iff 4#8 32]
  constructor
  · rintro ⟨a, h⟩
    exact ⟨~~~ a.host, a.port, h⟩
  · rintro ⟨host, port, h⟩
    refine ⟨⟨~~~ host, port⟩, ?_⟩
    rwa [wire, BitVec.not_not]

theorem SocketV6.exists_wire_iff {bits : List Bool} :
    (∃ a : SocketV6, a.received = a ∧ a.wire <+: bits) ↔
      pattern 6#8 <+: bits ∧ 152 ≤ bits.length := by
  rw [← exists_address_iff 6#8 128]
  constructor
  · rintro ⟨a, -, h⟩
    exact ⟨a.host, a.port, h⟩
  · rintro ⟨host, port, h⟩
    exact ⟨⟨host, port, 0, 0⟩, rfl, h⟩

section Refused

variable {s : Stream} (hs : s.Valid)
include hs

theorem Stream.Valid.length_unread : (s.bits.drop s.readPos).length = s.payload := by
  rw [List.length_drop, hs.length_bits]
  rfl

/-- A reader that looks at a version byte first stops where there is none, or where it does not accept
what begins with the one that is there. -/
theorem Stream.Valid.exists_error_iff_tag {α : Type} {x : StreamM α} {accepted : BitVec 8 → Prop}
    (h : (∃ v s', x.run s = .ok (v, s')) ↔
      ∃ tag, pattern tag <+: s.bits.drop s.readPos ∧ accepted tag) :
    (∃ f, x.run s = .error f) ↔
      s.payload < 8 ∨ ∃ tag, pattern tag <+: s.bits.drop s.readPos ∧ ¬ accepted tag := by
  rw [exists_error_iff, h]
  constructor
  · intro hnone
    by_cases h8 : s.payload < 8
    · exact .inl h8
    · have hroom : ([] : List Bool).length + 8 ≤ (s.bits.drop s.readPos).length := by
        rw [hs.length_unread, List.length_nil]
        omega
      obtain ⟨tag, htag⟩ := exists_append_pattern List.nil_prefix hroom
      exact .inr ⟨tag, htag, fun haccepted => hnone ⟨tag, htag, haccepted⟩⟩
  · rintro (h8 | ⟨tag, htag, hrefused⟩) ⟨tag', htag', haccepted⟩
    · have hle := htag'.length_le
      rw [length_pattern, hs.length_unread] at hle
      omega
    · rw [pattern_unique htag htag'] at hrefused
      exact hrefused haccepted

theorem SocketV4.exists_error_iff :
    (∃ f, SocketV4.read.run s = .error f) ↔
      s.payload < 8 ∨ ∃ tag : BitVec 8, pattern tag <+: s.bits.drop s.readPos ∧
        (tag ≠ 4#8 ∨ s.payload < 56) := by
  have haccepted : (∃ a s', SocketV4.read.run s = .ok (a, s')) ↔
      ∃ tag, pattern tag <+: s.bits.drop s.readPos ∧ (tag = 4#8 ∧ 56 ≤ s.payload) := by
    constructor
    · rintro ⟨a, s', h⟩
      have hwire := exists_wire_iff.1 ⟨a, ((Kind.read_eq_ok_iff .v4 hs).1 h).2.1⟩
      rw [hs.length_unread] at hwire
      exact ⟨4#8, hwire.1, rfl, hwire.2⟩
    · rintro ⟨tag, htag, rfl, hlen⟩
      rw [← hs.length_unread] at hlen
      obtain ⟨a, ha⟩ := exists_wire_iff.2 ⟨htag, hlen⟩
      exact ⟨a, _, (Kind.read_eq_ok_iff .v4 hs).2 ⟨rfl, ha, rfl⟩⟩
  rw [hs.exists_error_iff_tag haccepted]
  simp only [Classical.not_and_iff_not_or_not, Nat.not_le]

theorem Socket.exists_error_iff :
    (∃ f, Socket.read.run s = .error f) ↔
      s.payload < 8 ∨ ∃ tag : BitVec 8, pattern tag <+: s.bits.drop s.readPos ∧
        (tag ≠ 4#8 ∨ s.payload < 56) ∧ (tag ≠ 6#8 ∨ s.payload < 152) := by
  have haccepted : (∃ a s', Socket.read.run s = .ok (a, s')) ↔
      ∃ tag, pattern tag <+: s.bits.drop s.readPos ∧
        (tag = 4#8 ∧ 56 ≤ s.payload ∨ tag = 6#8 ∧ 152 ≤ s.payload) := by
    constructor
    · rintro ⟨a, s', h⟩
      obtain ⟨hreceived, hhead, -⟩ := (Kind.read_eq_ok_iff .socket hs).1 h
      cases a with
      | v4 a =>
        have hwire := SocketV4.exists_wire_iff.1 ⟨a, hhead⟩
        rw [hs.length_unread] at hwire
        exact ⟨4#8, hwire.1, .inl ⟨rfl, hwire.2⟩⟩
      | v6 a =>
        have hwire := SocketV6.exists_wire_iff.1 ⟨a, v6.inj hreceived, hhead⟩
        rw [hs.length_unread] at hwire
        exact ⟨6#8, hwire.1, .inr ⟨rfl, hwire.2⟩⟩
    · rintro ⟨tag, htag, ⟨rfl, hlen⟩ | ⟨rfl, hlen⟩⟩
      · rw [← hs.length_unread] at hlen
        obtain ⟨a, ha⟩ := SocketV4.exists_wire_iff.2 ⟨htag, hlen⟩
        exact ⟨v4 a, _, (Kind.read_eq_ok_iff .socket hs).2 ⟨rfl, ha, rfl⟩⟩
      · rw [← hs.length_unread] at hlen
        obtain ⟨a, hreceived, ha⟩ := SocketV6.exists_wire_iff.2 ⟨htag, hlen⟩
        exact ⟨v6 a, _, (Kind.read_eq_ok_iff .socket hs).2 ⟨congrArg v6 hreceived, ha, rfl⟩⟩
  rw [hs.exists_error_iff_tag haccepted]
  simp only [not_or, Classical.not_and_iff_not_or_not, Nat.not_le]

/-- An address of version 4 is read in the same way whether one of version 6 could be there or not. -/
theorem SocketV4.read_eq_ok_iff {a : SocketV4} {s' : Stream} :
    SocketV4.read.run s = .ok (a, s') ↔ Socket.read.run s = .ok (.v4 a, s') := by
  refine (Kind.read_eq_ok_iff .v4 hs).trans (Iff.trans ?_ (Kind.read_eq_ok_iff .socket hs).symm)
  constructor
  · rintro ⟨-, h⟩
    exact ⟨rfl, h⟩
  · rintro ⟨-, h⟩
    exact ⟨rfl, h⟩

/-- A reader that looks at a version byte first stops for want of one, or behind the one that is there. -/
theorem Stream.Valid.fault_behind_tag {α : Type} {x : Nat → StreamM α} {f : Fault}
    (h : (readNumber 1 >>= x).run s = .error f) :
    f.MissingBits ∨ ∃ tag : BitVec 8, pattern tag <+: s.bits.drop s.readPos ∧
      (s.passed 8).Valid ∧ (x tag.toNat).run (s.passed 8) = .error f := by
  have hnumber : Reading (fun _ => False) (readNumber 1) := reading_readNumber (by decide)
  rcases run_bind_eq_error_iff.1 h with h | ⟨n, s', hn, h⟩
  · exact .inl ((hnumber.fault hs h).resolve_right id)
  · obtain ⟨xs, ⟨tag, rfl, rfl⟩, hhead, rfl⟩ := accepts_readNumber 1 s n s' hs hn
    have hvalid := hs.passed hhead
    rw [length_pattern] at h hvalid
    exact .inr ⟨tag, hhead, hvalid, h⟩

/-- Why an address of version 4 is refused: bits are missing, or it is the version byte. -/
theorem SocketV4.fault_of_read {f : Fault} (h : SocketV4.read.run s = .error f) :
    f.MissingBits ∨ ∃ tag : BitVec 8, pattern tag <+: s.bits.drop s.readPos ∧ tag ≠ 4#8 ∧
      f = .notV4 tag.toNat := by
  rcases hs.fault_behind_tag h with hmissing | ⟨tag, htag, hv, h⟩
  · exact .inl hmissing
  · split at h
    · have hbody : Reading (fun _ => False) SocketV4.readBody := reading_readBody
      exact .inl ((hbody.fault hv h).resolve_right id)
    · rename_i hne
      cases h
      exact .inr ⟨tag, htag, fun h4 => hne (congrArg BitVec.toNat h4), rfl⟩

/-- Why an address is refused: bits are missing, or it is the version byte. -/
theorem Socket.fault_of_read {f : Fault} (h : Socket.read.run s = .error f) :
    f.MissingBits ∨ ∃ tag : BitVec 8, pattern tag <+: s.bits.drop s.readPos ∧ tag ≠ 4#8 ∧
      tag ≠ 6#8 ∧ f = .unknownVersion tag.toNat := by
  rcases hs.fault_behind_tag h with hmissing | ⟨tag, htag, hv, h⟩
  · exact .inl hmissing
  · split at h
    · have hbody : Reading (fun _ => False) SocketV4.readBody := SocketV4.reading_readBody
      exact .inl (((hbody.map v4).fault hv h).resolve_right id)
    · split at h
      · have hbody : Reading (fun _ => False) SocketV6.readBody := SocketV6.reading_readBody
        exact .inl (((hbody.map v6).fault hv h).resolve_right id)
      · rename_i h4 h6
        cases h
        exact .inr ⟨tag, htag, fun h => h4 (congrArg BitVec.toNat h),
          fun h => h6 (congrArg BitVec.toNat h), rfl⟩

end Refused

/-! ## Writing back -/

/-- What was read of a kind is written as exactly the bits that were read, to any writable stream, unless
the allocator refuses memory. An address of version 4 is read from the codes of addresses of version 4
and with the same result. A reader of addresses stops exactly where too few bits are left or where the
version byte is not one of its own, and says so. -/
theorem read_canonical {s : Stream} (hs : s.Reachable) :
    (∀ (k : Kind) (v : k.Val) (s' : Stream), k.read.run s = .ok (v, s') →
      ∃ code : List Bool, code <+: s.bits.drop s.readPos ∧ s' = s.passed code.length ∧
        (∀ (t : Stream) (a : Allocator), t.Reachable → t.readOnly = false →
          (∃ b, write k v ⟨t, a⟩ = .ok code.length b ∧ b.stream.bits = t.bits ++ code) ∨
          ∃ f b, write k v ⟨t, a⟩ = .error f b ∧ f.Refusal) ∧
        ∀ (t : Stream) (a : Allocator), t.Reachable → t.Admits a code.length →
          ∃ b, write k v ⟨t, a⟩ = .ok code.length b) ∧
    (∀ (a : SocketV4) (s' : Stream),
      Kind.v4.read.run s = .ok (a, s') ↔ Kind.socket.read.run s = .ok (.v4 a, s')) ∧
    ((∃ f, Kind.v4.read.run s = .error f) ↔
      s.payload < 8 ∨ ∃ tag : BitVec 8, pattern tag <+: s.bits.drop s.readPos ∧
        (tag ≠ 4#8 ∨ s.payload < 56)) ∧
    ((∃ f, Kind.socket.read.run s = .error f) ↔
      s.payload < 8 ∨ ∃ tag : BitVec 8, pattern tag <+: s.bits.drop s.readPos ∧
        (tag ≠ 4#8 ∨ s.payload < 56) ∧ (tag ≠ 6#8 ∨ s.payload < 152)) ∧
    (∀ f, Kind.v4.read.run s = .error f → f.MissingBits ∨
      ∃ tag : BitVec 8, pattern tag <+: s.bits.drop s.readPos ∧ tag ≠ 4#8 ∧ f = .notV4 tag.toNat) ∧
    ∀ f, Kind.socket.read.run s = .error f → f.MissingBits ∨
      ∃ tag : BitVec 8, pattern tag <+: s.bits.drop s.readPos ∧ tag ≠ 4#8 ∧ tag ≠ 6#8 ∧
        f = .unknownVersion tag.toNat := by
  have hv := hs.valid
  refine ⟨fun k v s' h => ?_, fun a s' => SocketV4.read_eq_ok_iff hv, SocketV4.exists_error_iff hv,
    Socket.exists_error_iff hv, fun f => SocketV4.fault_of_read hv, fun f => Socket.fault_of_read hv⟩
  obtain ⟨-, hhead, hs'⟩ := (k.read_eq_ok_iff hv).1 h
  have hwire : (WriteOp.value k v).wire = some (k.wire v) := rfl
  have hwrites : WritesWire (write k v) (k.wire v) := WriteOp.writesWire hwire
  have hshort : (k.wire v).length ≤ 2 ^ 63 := Nat.le_trans (k.length_wire_le v) (by decide)
  exact ⟨k.wire v, hhead, hs', fun t a ht hw => hwrites.written ht hw a hshort,
    fun t a ht => (hwrites.refines ht.valid a).2⟩

/-- The address 127.0.0.1:8080, read from a view and written by a host of the other order. -/
theorem read_canonical_loopback :
    ∃ s' b, Kind.v4.read.run (view {} [0x04, 0x80, 0xFF, 0xFF, 0xFE, 0x1F, 0x90]) =
        .ok (⟨0x7F000001#32, 8080#16⟩, s') ∧
      write .v4 ⟨0x7F000001#32, 8080#16⟩ ⟨empty { order := .big }, .system⟩ = .ok 56 b ∧
      b.stream.bits = bitsOf [0x04, 0x80, 0xFF, 0xFF, 0xFE, 0x1F, 0x90] := by
  let bytes : List UInt8 := [0x04, 0x80, 0xFF, 0xFF, 0xFE, 0x1F, 0x90]
  let a : SocketV4 := ⟨0x7F000001#32, 8080#16⟩
  have hview : (view {} bytes).Reachable := .made {} (.view bytes) (a := .system) rfl
  have hempty : (empty { order := .big }).Reachable := .made _ .empty (a := .system) rfl
  have hread : Kind.v4.read.run (view {} bytes) = .ok (a, (view {} bytes).passed 56) := by
    decide +kernel
  obtain ⟨hcanonical, -⟩ := read_canonical hview
  obtain ⟨code, hhead, hpassed, hwritten, hok⟩ := hcanonical .v4 a _ hread
  have hlen : code.length = 56 := by
    have hpos := congrArg Stream.readPos hpassed
    change 0 + 56 = 0 + code.length at hpos
    omega
  have hcode : code = bitsOf bytes := by
    change code <+: (view {} bytes).bits at hhead
    rw [bits_view] at hhead
    exact hhead.eq_of_length hlen
  rw [hlen] at hwritten hok
  obtain ⟨b, hb⟩ := hok _ .system hempty (admits_empty { order := .big } rfl (by decide))
  refine ⟨_, b, hread, hb, ?_⟩
  rcases hwritten _ .system hempty rfl with ⟨b', hb', hbits⟩ | ⟨f, b', hf, -⟩
  · obtain ⟨-, rfl⟩ := EStateM.Result.ok.inj (hb.symm.trans hb')
    have hnone : (empty { order := .big }).bits = [] := List.take_zero
    rw [hbits, hcode, hnone, List.nil_append]
  · rw [hb] at hf
    cases hf

end Bitwire
