import Bitwire.Proofs.Decode.Range
import Bitwire.Proofs.Wire.Pattern

/-!
# Codes and the format on the wire

Every exact codec computes its code by laying numbers out in memory, turning images around and cutting
them off. The bits of the code are those of the format.

* `bits_numberCode_pattern`, `bits_miniNumber`: full-width numbers and mini codes.
* `Kind.bits_code`, `Kind.bits_mini`: values.
* `Span.bits_code`: numbers between bounds.
-/

namespace Bitwire

open Wire

/-! ## Full-width numbers -/

theorem bits_numberCode_pattern (o : ByteOrder) {k : Nat} (w : BitVec (8 * k)) (position : Nat) :
    (numberCode o k w.toNat).bits position = pattern w := by
  rw [bits_numberCode, bitsOf_networkBytes]

/-! ## Mini codes -/

theorem toBitVec_padByte (signed : Bool) : (padByte signed).toBitVec = pad signed := by
  cases signed <;> rfl

theorem toBitVec_eq_pad_iff (signed : Bool) (b : UInt8) :
    b.toBitVec = pad signed ↔ b = padByte signed := by
  rw [← toBitVec_padByte, UInt8.toBitVec_inj]

theorem highNibble_eq_iff (signed : Bool) (b : UInt8) :
    b.toBitVec.extractLsb' 4 4 = (pad signed).extractLsb' 4 4 ↔
      b &&& 0xF0 = padByte signed &&& 0xF0 := by
  have hall : ∀ (n : Fin 256) (signed : Bool),
      (UInt8.ofNat n.val).toBitVec.extractLsb' 4 4 = (pad signed).extractLsb' 4 4 ↔
        UInt8.ofNat n.val &&& 0xF0 = padByte signed &&& 0xF0 := by decide +kernel
  have := hall ⟨b.toNat, b.toNat_lt⟩ signed
  rwa [UInt8.ofNat_toNat] at this

theorem takenBits_lowNibble (b : UInt8) :
    takenBits true 4 [b &&& 0x0F] = pattern (b.toBitVec.extractLsb' 0 4) := by
  have hall : ∀ n : Fin 256, takenBits true 4 [UInt8.ofNat n.val &&& 0x0F] =
      pattern ((UInt8.ofNat n.val).toBitVec.extractLsb' 0 4) := by decide +kernel
  have := hall ⟨b.toNat, b.toNat_lt⟩
  rwa [UInt8.ofNat_toNat] at this

namespace Wire

theorem mini_last (signed : Bool) (b : BitVec 8) :
    mini signed [b] =
      if b.extractLsb' 4 4 = (pad signed).extractLsb' 4 4 then true :: pattern (b.extractLsb' 0 4)
      else false :: pattern b := rfl

theorem mini_cons (signed : Bool) (b next : BitVec 8) (bs : List (BitVec 8)) :
    mini signed (b :: next :: bs) =
      if b = pad signed then true :: mini signed (next :: bs)
      else false :: bytes (b :: next :: bs).reverse := by
  unfold mini
  by_cases hb : b = pad signed
  · simp [hb, List.replicate_succ]
  · simp [hb]

end Wire

/-- The mini code of bytes, given from the most significant one down. -/
theorem bits_miniFrom (signed : Bool) {src : List UInt8} (h0 : src ≠ []) (position : Nat) :
    (miniFrom (padByte signed) src).bits position = mini signed (src.map (·.toBitVec)) := by
  induction src generalizing position with
  | nil => contradiction
  | cons b bs ih =>
    -- the lowest byte has a code of its own, so the list ends with one byte and not with none
    cases bs with
    | nil =>
      rw [bits_miniFrom_last, List.map_cons, List.map_nil, mini_last, takenBits_lowNibble,
        bitsOf_eq_bytes]
      simp only [highNibble_eq_iff, List.map_cons, List.map_nil]
      rw [bytes_cons, bytes_nil, List.append_nil]
    | cons next bs =>
      rw [bits_miniFrom_cons, List.map_cons, List.map_cons, mini_cons, bitsOf_eq_bytes]
      simp only [toBitVec_eq_pad_iff]
      rw [ih (by simp), List.map_reverse]
      rfl

/-- The mini code of a pattern of whole bytes. -/
theorem bits_miniNumber (o : ByteOrder) {k : Nat} (h0 : k ≠ 0) (signed : Bool) (w : BitVec (8 * k))
    (position : Nat) : (miniNumber o k signed w.toNat).bits position = miniPattern signed w := by
  have hne : (littleBytes k w.toNat).reverse ≠ [] := by
    rw [← List.length_pos_iff, List.length_reverse, length_littleBytes]
    omega
  rw [miniNumber_eq]
  change (miniFrom (padByte signed) (littleBytes k w.toNat).reverse).bits position = _
  rw [bits_miniFrom signed hne, List.map_reverse, toBitVec_littleBytes, miniPattern,
    Nat.mul_div_cancel_left k (by decide)]

/-! ## Addresses -/

theorem bits_portCode (port : BitVec 16) (position : Nat) :
    (portCode port).bits position = pattern port := by
  unfold portCode
  rw [Code.bits_run position true (k := 2) (ByteOrder.length_bytes _ _ _), Code.bits_nil,
    List.append_nil, bitsOf_networkBytes (k := 2) port]

/-- Complemented octets are those of the complement. -/
theorem map_complement_littleBytes {n k : Nat} (w : BitVec n) (h : 8 * k ≤ n) :
    (littleBytes k w.toNat).map (~~~ ·) = littleBytes k (~~~ w).toNat := by
  apply List.ext_getElem?
  intro i
  rw [List.getElem?_map]
  by_cases hi : i < k
  · rw [getElem?_littleBytes _ hi, getElem?_littleBytes _ hi, Option.map_some]
    congr 1
    apply UInt8.toBitVec_inj.1
    apply BitVec.eq_of_getLsbD_eq
    intro j hj
    have hbyte (v : BitVec n) : (UInt8.ofNat (v.toNat / 256 ^ i)).toBitVec.getLsbD j =
        v.getLsbD (8 * i + j) := testBit_littleByte v.toNat i hj
    rw [UInt8.toBitVec_not, BitVec.getLsbD_not, hbyte, hbyte, BitVec.getLsbD_not]
    simp [hj, show 8 * i + j < n by omega]
  · rw [List.getElem?_eq_none (by simp; omega), List.getElem?_eq_none (by simp; omega)]
    rfl

namespace SocketV4

theorem map_complement_octets (a : SocketV4) :
    a.octets.map (~~~ ·) = ByteOrder.network.bytes 4 (~~~ a.host).toNat := by
  change (littleBytes 4 a.host.toNat).reverse.map (~~~ ·) = (littleBytes 4 _).reverse
  rw [List.map_reverse, map_complement_littleBytes a.host (by decide)]

theorem bits_code (o : ByteOrder) (a : SocketV4) (position : Nat) :
    (a.code o).bits position = a.wire := by
  have hoctets := a.map_complement_octets
  unfold code wire
  rw [show tag = (4#8).toNat from rfl, Code.bits_append, bits_numberCode_pattern o (k := 1) 4#8,
    List.append_assoc, Code.bits_run _ true (k := 4) (by rw [hoctets, ByteOrder.length_bytes]),
    bits_portCode, hoctets, bitsOf_networkBytes (k := 4) (~~~ a.host)]

theorem bits_mini (o : ByteOrder) (a : SocketV4) (position : Nat) :
    (a.mini o).bits position = a.miniWire := by
  unfold mini miniWire
  rw [show tag = (4#8).toNat from rfl, Code.bits_append, Code.bits_append,
    bits_miniNumber o (k := 1) (by decide) false 4#8,
    bits_miniNumber o (k := 4) (by decide) false (~~~ a.host),
    bits_miniNumber o (k := 2) (by decide) false a.port]

end SocketV4

namespace SocketV6

theorem bits_code (o : ByteOrder) (a : SocketV6) (position : Nat) :
    (a.code o).bits position = a.wire := by
  unfold code wire octets
  rw [show tag = (6#8).toNat from rfl, Code.bits_append, bits_numberCode_pattern o (k := 1) 6#8,
    List.append_assoc, Code.bits_run _ true (k := 16) (ByteOrder.length_bytes _ _ _), bits_portCode,
    bitsOf_networkBytes (k := 16) a.host]

theorem bits_mini (o : ByteOrder) (a : SocketV6) (position : Nat) :
    (a.mini o).bits position = a.miniWire := by
  unfold mini miniWire
  rw [show tag = (6#8).toNat from rfl, Code.bits_append, Code.bits_append, Code.bits_append,
    bits_miniNumber o (k := 1) (by decide) false 6#8,
    bits_miniNumber o (k := 8) (by decide) false a.high,
    bits_miniNumber o (k := 8) (by decide) false a.low,
    bits_miniNumber o (k := 2) (by decide) false a.port]
  rfl

end SocketV6

/-! ## Values -/

theorem U24.bits_code (o : ByteOrder) (x : U24) (position : Nat) :
    (x.code o).bits position = bytes (lowBytes 3 x.val) := by
  have hbytes : (littleBytes 4 x.val.toNat).take 3 = littleBytes 3 x.val.toNat := rfl
  rw [U24.code_eq]
  change Code.bits position [.run ((littleBytes 4 x.val.toNat).take 3) (8 * 3) true] = _
  rw [hbytes, Code.bits_run position true (length_littleBytes 3 _), Code.bits_nil, List.append_nil,
    bitsOf_eq_bytes, toBitVec_littleBytes]

namespace Kind

theorem bits_code (o : ByteOrder) (k : Kind) (v : k.Val) (position : Nat) :
    (k.code o v).bits position = k.wire v := by
  cases k with
  | int t => exact bits_numberCode_pattern o (k := t.bytes) v position
  | bool => rfl
  | single => exact bits_numberCode_pattern o (k := 4) v.pattern position
  | double => exact bits_numberCode_pattern o (k := 8) v.pattern position
  | u24 => exact U24.bits_code o v position
  | guid => exact bits_numberCode_pattern o (k := 8) v.val position
  | v4 => exact SocketV4.bits_code o v position
  | socket =>
    cases v with
    | v4 a => exact a.bits_code o position
    | v6 a => exact a.bits_code o position

/-- A value that has a mini format has a mini code, and the bits of that are the format. -/
theorem bits_mini (o : ByteOrder) {k : Kind} {v : k.Val} {bits : List Bool}
    (h : k.miniWire v = some bits) :
    ∃ code, k.mini o v = .ok code ∧ ∀ position, code.bits position = bits := by
  cases k with
  | int t =>
    obtain rfl := Option.some.inj h
    exact ⟨_, rfl, bits_miniNumber o (bytes_ne_zero t) t.signed v⟩
  | bool =>
    obtain rfl := Option.some.inj h
    exact ⟨_, rfl, fun _ => rfl⟩
  | single | double => contradiction
  | u24 =>
    obtain rfl := Option.some.inj h
    exact ⟨_, rfl, bits_miniNumber o (k := 4) (by decide) false v.val⟩
  | guid =>
    obtain rfl := Option.some.inj h
    exact ⟨_, rfl, bits_miniNumber o (k := 8) (by decide) false v.val⟩
  | v4 =>
    obtain rfl := Option.some.inj h
    exact ⟨_, rfl, v.bits_mini o⟩
  | socket =>
    cases v with
    | v4 a | v6 a =>
      obtain rfl := Option.some.inj h
      exact ⟨_, rfl, a.bits_mini o⟩

theorem bits_unknownCode (o : ByteOrder) (k : Kind) (v : k.Val) (position : Nat) :
    (k.unknownCode o v).bits position = k.unknownWire v := by
  unfold unknownCode unknownWire
  split
  · exact k.bits_code o v position
  · rw [Code.bits_cons, k.bits_code o v]
    rfl

theorem bits_changedCode (o : ByteOrder) (k : Kind) (v last : k.Val) (position : Nat) :
    (k.changedCode o v last).bits position =
      if k ≠ bool ∧ k.same v last then [false] else k.unknownWire v := by
  unfold changedCode
  split
  · rfl
  · exact k.bits_unknownCode o v position

end Kind

/-! ## Numbers between bounds -/

namespace Span

variable {t : IntType} (r : Span t)

/-- The numbers that the bounds are read as determine the number of bits. -/
theorem bits_eq_size : r.bits = (r.max.value - r.min.value).toNat.size := by
  have hmax := Word.toNat_sub_of_le r.le
  rw [r.bits_eq, ← hmax, Int.toNat_natCast]

theorem toNat_offset {w : Word t} (h : r.contains w = true) :
    (r.offset w).toNat = (w - r.min).toNat := by
  have hle : r.min.value ≤ w.value := by
    simp only [contains, decide_eq_true_eq] at h
    exact h.1
  have hsub := Word.toNat_sub_of_le hle
  have hlt := r.toNat_offset_lt h
  rw [r.bits_eq_size] at hlt
  rw [offset, BitVec.toNat_ofNat, ← hsub, Int.toNat_natCast, Nat.mod_eq_of_lt hlt]

theorem bits_offsetCode (o : ByteOrder) {w : Word t} (h : r.contains w = true) (position : Nat) :
    (r.offsetCode o w).bits position = r.offsetWire w := by
  have hle := r.bits_le
  have hsize := r.bits_eq_size
  rw [hsize] at hle
  rw [offsetCode_eq, hsize, ← r.toNat_offset h]
  unfold offsetWire
  by_cases h0 : (r.max.value - r.min.value).toNat.size = 0
  · rw [if_pos h0]
    simp [h0, lowBytes, pattern]
  · rw [if_neg h0, Code.bits_cons, Code.bits_nil, List.append_nil]
    exact takenBits_littleBytes hle (r.offset w)

/-- A number that has a format between the bounds has a code, and the bits of that are the format. -/
theorem bits_code (o : ByteOrder) {w : Word t} {outside : Bool} {bits : List Bool}
    (h : r.wire w outside = some bits) :
    ∃ code, r.code o w outside = .ok code ∧ ∀ position, code.bits position = bits := by
  by_cases hw : r.min.value ≤ w.value ∧ w.value ≤ r.max.value
  · have hcontains : r.contains w = true := decide_eq_true hw
    rw [wire, if_pos hw] at h
    obtain rfl := Option.some.inj h
    unfold code
    cases outside with
    | true =>
      refine ⟨_, by rw [if_pos rfl, if_pos hcontains]; rfl, fun position => ?_⟩
      rw [Code.bits_cons, r.bits_offsetCode o hcontains]
      rfl
    | false =>
      refine ⟨_, by rw [if_neg Bool.false_ne_true, if_pos hcontains]; rfl, fun position => ?_⟩
      exact r.bits_offsetCode o hcontains position
  · have hcontains : ¬ r.contains w = true := fun h => hw (of_decide_eq_true h)
    rw [wire, if_neg hw] at h
    cases outside with
    | true =>
      obtain rfl := Option.some.inj h
      refine ⟨_, by rw [code, if_pos rfl, if_neg hcontains]; rfl, fun position => ?_⟩
      rw [Code.bits_cons]
      exact congrArg (true :: ·) (bits_miniNumber o (Kind.bytes_ne_zero t) t.signed w _)
    | false => contradiction

end Span

end Bitwire
