import Bitwire.Proofs.RawWrite
import Bitwire.Proofs.Wire.Codec
import Bitwire.Proofs.Writing

/-!
# Writing by an exact codec

What an exact codec writes has pieces that no stream finds fault with: no run is empty, reaches beyond
its source or leaves out a bit that is set. So it is written wherever there is room for it, and its
bits are those of the format.

* `Code.WellFormed`, `Code.exists_write_eq_ok`: codes that are not refused.
* `Kind.wellFormed_code`, `Kind.wellFormed_mini`, `Span.wellFormed_code`: the codecs give such codes.
* `WritesWire`, `WriteOp.writesWire`: an operation by an exact codec writes such a code.
* `write_wire`: it appends the bits of the format.
-/

namespace Bitwire

open Bitwire.Stream

/-! ## Codes that are not refused -/

/-- A run is not empty, its source is long enough, and the bits it leaves out are zero. -/
def Piece.WellFormed : Piece → Prop
  | run src n right => n ≠ 0 ∧ n ≤ 8 * src.length ∧ strayByte? src n right = none
  | _ => True

/-- All pieces are well-formed. -/
def Code.WellFormed (code : Code) : Prop := ∀ p ∈ code, p.WellFormed

theorem Piece.exists_write_eq_ok {p : Piece} (hp : p.WellFormed) {s : Stream} {a : Allocator}
    (h : s.Admits a (p.bits s.writePos).length) : ∃ k b, p.write ⟨s, a⟩ = .ok k b := by
  cases p with
  | bit b => exact ⟨1, exists_writeBit_eq_ok b h.grants⟩
  | run src n right =>
    obtain ⟨h0, hn, hstray⟩ := hp
    rw [Piece.bits, length_takenBits right hn] at h
    exact ⟨n, exists_writeRun_eq_ok right h0 hn (fun _ => hstray) h.grants⟩
  | align =>
    rw [Piece.bits, List.length_replicate] at h
    exact exists_writeAlign_eq_ok h.grants

namespace Code

@[simp] theorem wellFormed_nil : WellFormed [] := nofun

@[simp] theorem wellFormed_cons {p : Piece} {ps : Code} :
    WellFormed (p :: ps) ↔ p.WellFormed ∧ WellFormed ps := List.forall_mem_cons

@[simp] theorem wellFormed_append {xs ys : Code} :
    WellFormed (xs ++ ys) ↔ xs.WellFormed ∧ ys.WellFormed := List.forall_mem_append

theorem wellFormed_bit (b : Bool) : Piece.WellFormed (.bit b) := trivial

/-- Whole bytes are a well-formed run. -/
theorem wellFormed_run {src : List UInt8} {k : Nat} (h0 : k ≠ 0) (h : src.length = k) (right : Bool) :
    Piece.WellFormed (.run src (8 * k) right) :=
  ⟨by omega, by omega, strayByte?_bytes src k right⟩

/-- A well-formed code is written where there can be room for its bits. The induction hands what is
left of the room on to the rest of the pieces. -/
theorem exists_write_eq_ok {code : Code} (hcode : code.WellFormed) {s : Stream} (hs : s.Valid)
    {a : Allocator} (h : s.Admits a (code.bits s.writePos).length) :
    ∃ k b, code.write ⟨s, a⟩ = .ok k b := by
  induction code generalizing s a with
  | nil => exact ⟨0, _, rfl⟩
  | cons p ps ih =>
    obtain ⟨hp, hps⟩ := wellFormed_cons.1 hcode
    rw [bits_cons, List.length_append] at h
    obtain ⟨i, ⟨t, a₁⟩, h₁⟩ := p.exists_write_eq_ok hp (h.mono (Nat.le_add_right _ _))
    have hext := (p.appends s a i _ hs h₁).2
    have hroom := h.of_extends hext (p.writing.later h₁)
    rw [← hext.writePos_eq] at hroom
    obtain ⟨j, b, h₂⟩ := ih hps hext.valid hroom
    exact ⟨i + j, b, bind_eq_ok_iff.2 ⟨i, _, h₁, bind_eq_ok_iff.2 ⟨j, b, h₂, rfl⟩⟩⟩

end Code

/-! ## Codes of values -/

section Codecs

variable (o : ByteOrder)

theorem wellFormed_numberCode {k : Nat} (h0 : k ≠ 0) (n : Nat) : (numberCode o k n).WellFormed := by
  rw [numberCode_eq]
  simpa using Code.wellFormed_run h0 (ByteOrder.length_bytes _ k n) true

theorem strayByte?_of_cleanRun {src : List UInt8} {n : Nat} (h : CleanRun true n src) :
    strayByte? src n true = none := by
  unfold strayByte?
  by_cases hpart : n % 8 = 0
  · simp [hpart]
  · rw [if_pos ⟨rfl, hpart⟩, Option.filter_eq_none_iff]
    intro b hb
    simpa using h hpart b hb

theorem wellFormed_miniFrom (pad : UInt8) (src : List UInt8) : (miniFrom pad src).WellFormed := by
  induction src with
  | nil => exact Code.wellFormed_nil
  | cons b bs ih =>
    cases bs with
    | nil =>
      unfold miniFrom
      split
      · have hrun : Piece.WellFormed (.run [b &&& 0x0F] 4 true) :=
          ⟨by decide, by simp, strayByte?_of_cleanRun (cleanRun_lowNibble b)⟩
        simp [Code.wellFormed_bit, hrun]
      · have hrun := Code.wellFormed_run Nat.one_ne_zero (List.length_singleton (a := b)) true
        simp [Code.wellFormed_bit, hrun]
    | cons next bs =>
      unfold miniFrom
      split
      · simpa [Code.wellFormed_bit] using ih
      · have hlen : (b :: next :: bs).reverse.length = bs.length + 2 := by simp
        have hrun := Code.wellFormed_run (by omega) hlen true
        exact Code.wellFormed_cons.2
          ⟨Code.wellFormed_bit false, Code.wellFormed_cons.2 ⟨hrun, Code.wellFormed_nil⟩⟩

theorem wellFormed_miniNumber (k : Nat) (signed : Bool) (n : Nat) :
    (miniNumber o k signed n).WellFormed := wellFormed_miniFrom _ _

theorem wellFormed_portCode (port : BitVec 16) : (portCode port).WellFormed := by
  simpa [portCode] using
    Code.wellFormed_run (k := 2) (by decide) (ByteOrder.length_bytes .network 2 port.toNat) true

theorem SocketV4.wellFormed_code (a : SocketV4) : (a.code o).WellFormed := by
  have hoctets : (a.octets.map (~~~ ·)).length = 4 := by
    rw [List.length_map, octets, ByteOrder.length_bytes]
  have hrun := Code.wellFormed_run (by decide) hoctets true
  rw [code, Code.wellFormed_append, Code.wellFormed_cons]
  exact ⟨wellFormed_numberCode o (by decide) _, hrun, wellFormed_portCode _⟩

theorem SocketV6.wellFormed_code (a : SocketV6) : (a.code o).WellFormed := by
  have hrun := Code.wellFormed_run (by decide) (ByteOrder.length_bytes .network 16 a.host.toNat) true
  rw [code, Code.wellFormed_append, Code.wellFormed_cons]
  exact ⟨wellFormed_numberCode o (by decide) _, hrun, wellFormed_portCode _⟩

theorem SocketV4.wellFormed_mini (a : SocketV4) : (a.mini o).WellFormed := by
  simp [mini, wellFormed_miniNumber]

theorem SocketV6.wellFormed_mini (a : SocketV6) : (a.mini o).WellFormed := by
  simp [mini, wellFormed_miniNumber]

theorem U24.wellFormed_code (x : U24) : (x.code o).WellFormed := by
  have hlen : ((ByteOrder.little.bytes 4 x.val.toNat).take 3).length = 3 := by simp
  rw [code_eq]
  simpa using Code.wellFormed_run (by decide) hlen true

namespace Kind

theorem wellFormed_code (k : Kind) (v : k.Val) : (k.code o v).WellFormed := by
  cases k with
  | int t => exact wellFormed_numberCode o (bytes_ne_zero t) _
  | bool => simp [code, Code.wellFormed_bit]
  | single | double | guid => exact wellFormed_numberCode o (by decide) _
  | u24 => exact U24.wellFormed_code o v
  | v4 => exact SocketV4.wellFormed_code o v
  | socket =>
    cases v with
    | v4 a => exact a.wellFormed_code o
    | v6 a => exact a.wellFormed_code o

theorem wellFormed_mini {k : Kind} {v : k.Val} {code : Code} (h : k.mini o v = .ok code) :
    code.WellFormed := by
  cases k with
  | int | u24 | guid =>
    cases h
    exact wellFormed_miniNumber o _ _ _
  | bool =>
    cases h
    simp [Code.wellFormed_bit]
  | single | double =>
    simp only [mini, Single.mini, Double.mini] at h
    split at h
    · cases h
      exact wellFormed_miniNumber o _ _ _
    · contradiction
  | v4 =>
    cases h
    exact v.wellFormed_mini o
  | socket =>
    cases h
    cases v with
    | v4 a => exact a.wellFormed_mini o
    | v6 a => exact a.wellFormed_mini o

theorem wellFormed_unknownCode (k : Kind) (v : k.Val) : (k.unknownCode o v).WellFormed := by
  unfold unknownCode
  split
  · exact k.wellFormed_code o v
  · exact Code.wellFormed_cons.2 ⟨Code.wellFormed_bit true, k.wellFormed_code o v⟩

theorem wellFormed_changedCode (k : Kind) (v last : k.Val) : (k.changedCode o v last).WellFormed := by
  unfold changedCode
  split
  · simp [Code.wellFormed_bit]
  · exact k.wellFormed_unknownCode o v

end Kind

namespace Span

variable {t : IntType} (r : Span t)

theorem wellFormed_offsetCode {w : Word t} (h : r.contains w = true) :
    (r.offsetCode o w).WellFormed := by
  rw [offsetCode_eq]
  split
  · exact Code.wellFormed_nil
  · rename_i h0
    have hclean := cleanRun_littleBytes r.bits_le (r.toNat_offset_lt h)
    rw [Code.wellFormed_cons]
    refine ⟨⟨h0, ?_, strayByte?_of_cleanRun hclean⟩, Code.wellFormed_nil⟩
    rw [ByteOrder.length_bytes]
    exact r.bits_le

theorem wellFormed_code {w : Word t} {outside : Bool} {code : Code}
    (h : r.code o w outside = .ok code) : code.WellFormed := by
  unfold Span.code at h
  split at h
  · split at h
    · cases h
      exact Code.wellFormed_cons.2 ⟨Code.wellFormed_bit false, r.wellFormed_offsetCode o ‹_›⟩
    · cases h
      exact Code.wellFormed_cons.2 ⟨Code.wellFormed_bit true, wellFormed_miniNumber o _ _ _⟩
  · split at h
    · cases h
      exact r.wellFormed_offsetCode o ‹_›
    · contradiction

end Span

end Codecs

/-! ## Operations -/

/-- `x` writes a well-formed code that has these bits wherever it begins. -/
def WritesWire (x : WriteM Nat) (bits : List Bool) : Prop :=
  ∃ code : Code, x = code.write ∧ code.WellFormed ∧ ∀ position, code.bits position = bits

/-- A codec that gives one code for either order writes it on every stream. -/
theorem writesWire_writeCode {f : ByteOrder → Except Fault Code} (ho : ∀ o o', f o = f o')
    {code : Code} (h : f .network = .ok code) (hform : code.WellFormed) {bits : List Bool}
    (hbits : ∀ position, code.bits position = bits) : WritesWire (writeCode f) bits := by
  refine ⟨code, ?_, hform, hbits⟩
  rw [writeCode_eq ho, h]
  rfl

theorem writesWire_writeMini {k : Kind} {v : k.Val} {bits : List Bool}
    (h : k.miniWire v = some bits) : WritesWire (writeMini k v) bits := by
  obtain ⟨code, hcode, hbits⟩ := Kind.bits_mini .network h
  exact writesWire_writeCode (k.mini_order · · v) hcode (Kind.wellFormed_mini _ hcode) hbits

theorem writesWire_writeBit (b : Bool) : WritesWire (writeBit b) [b] := by
  refine ⟨[.bit b], ?_, by simp [Code.wellFormed_bit], fun _ => rfl⟩
  simp [Code.write, Piece.write]

theorem WritesWire.flagged {x : WriteM Nat} {bits : List Bool} (h : WritesWire x bits) (b : Bool) :
    WritesWire (do let i ← writeBit b; let j ← x; pure (i + j)) (b :: bits) := by
  obtain ⟨code, rfl, hform, hbits⟩ := h
  refine ⟨.bit b :: code, rfl, Code.wellFormed_cons.2 ⟨Code.wellFormed_bit b, hform⟩, ?_⟩
  intro position
  rw [Code.bits_cons, hbits]
  rfl

theorem writesWire_writeMiniChanged {k : Kind} {v last : k.Val} {bits : List Bool}
    (h : (WriteOp.miniChanged k v last).wire = some bits) :
    WritesWire (writeMiniChanged k v last) bits := by
  rw [WriteOp.wire] at h
  unfold writeMiniChanged
  split at h
  · rw [if_pos ‹_›]
    exact writesWire_writeMini h
  · rw [if_neg ‹_›]
    split at h
    · obtain rfl := Option.some.inj h
      rw [if_pos ‹_›]
      exact writesWire_writeBit false
    · obtain ⟨mini, hmini, rfl⟩ := Option.map_eq_some_iff.1 h
      rw [if_neg ‹_›]
      exact (writesWire_writeMini hmini).flagged true

theorem writesWire_writeMiniBytes (signed : Bool) {src : List UInt8} (h0 : src ≠ []) :
    WritesWire (writeMiniBytes signed src) (Wire.mini signed (src.map (·.toBitVec)).reverse) := by
  have hcode : miniBytes signed src = .ok (miniFrom (padByte signed) src.reverse) :=
    if_neg (by simpa using h0)
  refine ⟨_, by rw [writeMiniBytes, hcode]; rfl, wellFormed_miniFrom _ _, fun position => ?_⟩
  rw [bits_miniFrom signed (by simpa using h0), List.map_reverse]

theorem writesWire_writeRanged {t : IntType} (r : Span t) {w : Word t} {outside : Bool}
    {bits : List Bool} (h : r.wire w outside = some bits) :
    WritesWire (writeRanged r w outside) bits := by
  obtain ⟨code, hcode, hbits⟩ := r.bits_code .network h
  exact writesWire_writeCode (r.code_order · · w outside) hcode (r.wellFormed_code _ hcode) hbits

/-- Bounds in order are a span. -/
theorem writeBetween_eq {t : IntType} {min max : Word t} (h : min.value ≤ max.value) (w : Word t)
    (outside : Bool) : writeBetween w min max outside = writeRanged ⟨min, max, h⟩ w outside := by
  have hcheck : Span.check min max = .ok ⟨min, max, h⟩ := dif_pos h
  unfold writeBetween writeRanged
  rw [hcheck]
  rfl

/-- Writing by an exact codec is writing a well-formed code whose bits are those of the format. -/
theorem WriteOp.writesWire {op : WriteOp} {bits : List Bool} (h : op.wire = some bits) :
    WritesWire op.perform bits := by
  cases op with
  | value k v =>
    obtain rfl := Option.some.inj h
    exact writesWire_writeCode (f := fun o => .ok (k.code o v))
      (fun o o' => by rw [k.code_order o o']) rfl (k.wellFormed_code _ v) (k.bits_code _ v)
  | mini k v => exact writesWire_writeMini h
  | changed k v last =>
    obtain rfl := Option.some.inj h
    exact writesWire_writeCode (f := fun o => .ok (k.changedCode o v last))
      (fun o o' => by rw [k.changedCode_order o o']) rfl (k.wellFormed_changedCode _ v last)
      (k.bits_changedCode _ v last)
  | changedUnknown k v =>
    obtain rfl := Option.some.inj h
    exact writesWire_writeCode (f := fun o => .ok (k.unknownCode o v))
      (fun o o' => by rw [k.unknownCode_order o o']) rfl (k.wellFormed_unknownCode _ v)
      (k.bits_unknownCode _ v)
  | miniChanged k v last => exact writesWire_writeMiniChanged h
  | miniBytes signed src =>
    rw [wire] at h
    split at h
    · contradiction
    · obtain rfl := Option.some.inj h
      exact writesWire_writeMiniBytes signed ‹_›
  | between t w min max outside =>
    rw [wire] at h
    split at h
    · rename_i hle
      rw [perform, writeBetween_eq hle]
      exact writesWire_writeRanged _ h
    · contradiction
  | ranged t r w outside => exact writesWire_writeRanged r h
  | run | bit | align | bytes | alignedBytes | bounded | padTo | boundedFloat | vector | unitVector
  | quaternion | matrix => contradiction

/-- What writes the bits of a format appends them and returns their number. It is not refused where
there can be room for them. -/
theorem WritesWire.refines {x : WriteM Nat} {bits : List Bool} (h : WritesWire x bits) {s : Stream}
    (hs : s.Valid) (a : Allocator) :
    (∀ k b, x ⟨s, a⟩ = .ok k b → k = bits.length ∧ s.Extends bits b.stream) ∧
      (s.Admits a bits.length → ∃ b, x ⟨s, a⟩ = .ok bits.length b) := by
  obtain ⟨code, rfl, hform, hbits⟩ := h
  have happend : ∀ k b, code.write ⟨s, a⟩ = .ok k b →
      k = bits.length ∧ s.Extends bits b.stream := by
    intro k b hk
    obtain ⟨hlen, hext⟩ := code.appends_write s a k b hs hk
    dsimp only at hlen hext
    rw [hbits] at hlen hext
    exact ⟨hlen, hext⟩
  refine ⟨happend, fun hroom => ?_⟩
  rw [← hbits s.writePos] at hroom
  obtain ⟨k, b, hk⟩ := code.exists_write_eq_ok hform hs hroom
  exact ⟨b, by rw [← (happend k b hk).1]; exact hk⟩

/-- An operation that writes by an exact codec appends the bits of its format, whatever the host order
of the stream and its write position are, and returns their number. It is not refused where there can
be room for them. -/
theorem write_wire {s : Stream} (hs : s.Reachable) (op : WriteOp) {bits : List Bool}
    (h : op.wire = some bits) (a : Allocator) :
    (∀ k b, op.perform ⟨s, a⟩ = .ok k b → k = bits.length ∧ b.stream.bits = s.bits ++ bits) ∧
      (s.Admits a bits.length → ∃ b, op.perform ⟨s, a⟩ = .ok bits.length b) := by
  obtain ⟨happend, hok⟩ := (WriteOp.writesWire h).refines hs.valid a
  refine ⟨fun k b hk => ?_, hok⟩
  obtain ⟨hlen, hext⟩ := happend k b hk
  exact ⟨hlen, hext.bits_eq⟩

/-- The number -125 in the mini format, behind the first three bits of a byte that was full. -/
theorem write_wire_negative :
    ∃ (s : Stream) (b : Backed), s.bits = [true, false, true] ∧
      WriteOp.perform (.mini (.int .i16) 0xFF83#16) ⟨s, .system⟩ = .ok 10 b ∧
      b.stream.bits = [true, false, true] ++
        [true, false, true, false, false, false, false, false, true, true] := by
  let s := filled { order := .big } [0xA5]
  have hmade : Reachable s := reachable_filled { order := .big } (by decide)
  have hroom : 3 ≤ s.capacity := Nat.le_trans (by decide) hmade.valid.writePos_le
  have hs := hmade.next (next_moveWrite rfl (Nat.zero_le 3) hroom)
  obtain ⟨happend, hok⟩ := write_wire hs (.mini (.int .i16) 0xFF83#16) rfl .system
  obtain ⟨b, h⟩ := hok (Grants.admits ⟨rfl, by decide, .inr (by decide)⟩ rfl)
  have hold : (s.moveWrite 3).bits = [true, false, true] := by decide +kernel
  have hbits := (happend _ b h).2
  rw [hold] at hbits
  exact ⟨_, b, hold, h, hbits⟩

end Bitwire
