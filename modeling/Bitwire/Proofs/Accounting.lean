import Bitwire.Proofs.Alignment
import Bitwire.Proofs.Decode.Quantized
import Bitwire.Proofs.Ranged
import Bitwire.Proofs.Reachable
import Bitwire.Proofs.Stream.Transfer

/-!
# Counting bits

Every write returns the number of bits by which it moves the write position, however many parts it adds
up. The length of a mini code is also found without writing it, by a scan of its own through the bytes of
the number; writer, reader and scan agree for all integers. What is made of several numbers takes the sum
of their lengths.

* `MiniField`, `Kind.miniFields`: the numbers that a mini code carries; `miniTotal`: their length.
* `Kind.length_bits_mini`: the length of a mini code.
* `written_counted`: what writes return.
-/

namespace Bitwire

open Bitwire.Stream

/-! ## Fields -/

/-- A number of one of the integer types. -/
structure MiniField where
  type : IntType
  word : Word type

/-- Number of bits of the mini codes of numbers in a row. -/
def miniTotal : List MiniField → Nat
  | [] => 0
  | f :: fs => f.word.miniLength + miniTotal fs

/-- The mini codes of numbers in a row. -/
def MiniField.codes (o : ByteOrder) (fields : List MiniField) : Code :=
  fields.flatMap fun f => miniNumber o f.type.bytes f.type.signed f.word.toNat

theorem length_bits_miniWord (o : ByteOrder) {t : IntType} (w : Word t) (position : Nat) :
    ((miniNumber o t.bytes t.signed w.toNat).bits position).length = w.miniLength := by
  rw [miniNumber_eq, length_bits_miniFrom]
  rfl

theorem MiniField.length_bits_codes (o : ByteOrder) (fields : List MiniField) (position : Nat) :
    ((MiniField.codes o fields).bits position).length = miniTotal fields := by
  induction fields generalizing position with
  | nil => rfl
  | cons f fs ih =>
    have hhead := length_bits_miniWord o f.word position
    unfold codes at ih ⊢
    rw [List.flatMap_cons, Code.bits_append, List.length_append, hhead, ih, miniTotal]

/-- The numbers that the mini code of a version 4 address carries. -/
def SocketV4.miniFields (a : SocketV4) : List MiniField :=
  [⟨.u8, BitVec.ofNat IntType.u8.bits tag⟩, ⟨.u32, ~~~ a.host⟩, ⟨.u16, a.port⟩]

/-- The numbers that the mini code of a version 6 address carries. -/
def SocketV6.miniFields (a : SocketV6) : List MiniField :=
  [⟨.u8, BitVec.ofNat IntType.u8.bits tag⟩, ⟨.u64, a.high⟩, ⟨.u64, a.low⟩, ⟨.u16, a.port⟩]

/-- The numbers that the mini code of a value carries. A boolean is a bit and no number. -/
def Kind.miniFields : (k : Kind) → k.Val → List MiniField
  | int t, w => [⟨t, w⟩]
  | bool, _ => []
  | single, x => [⟨.u16, BitVec.ofNat IntType.u16.bits x.toUnitSteps⟩]
  | double, x => [⟨.u32, BitVec.ofNat IntType.u32.bits x.toUnitSteps⟩]
  | u24, x => [⟨.u32, x.val⟩]
  | guid, g => [⟨.u64, g.val⟩]
  | v4, a => a.miniFields
  | socket, .v4 a => a.miniFields
  | socket, .v6 a => a.miniFields

/-! ## Codes of fields -/

section Codes

variable (o : ByteOrder)

theorem MiniField.codes_singleton (t : IntType) (w : Word t) :
    codes o [⟨t, w⟩] = miniNumber o t.bytes t.signed w.toNat :=
  List.append_nil _

theorem MiniField.codes_ofNat (t : IntType) {n : Nat} (h : n < 256 ^ t.bytes) :
    codes o [⟨t, BitVec.ofNat t.bits n⟩] = miniNumber o t.bytes t.signed n := by
  have hfit : n < 2 ^ t.bits := by rwa [IntType.bits, Nat.pow_mul]
  rw [codes_singleton, BitVec.toNat_ofNat, Nat.mod_eq_of_lt hfit]

theorem SocketV4.mini_eq_codes (a : SocketV4) : a.mini o = MiniField.codes o a.miniFields := by
  unfold mini
  rw [List.append_assoc, ← List.append_nil (miniNumber o 2 false a.port.toNat)]
  rfl

theorem SocketV6.mini_eq_codes (a : SocketV6) : a.mini o = MiniField.codes o a.miniFields := by
  unfold mini
  rw [List.append_assoc, List.append_assoc, ← List.append_nil (miniNumber o 2 false a.port.toNat)]
  rfl

/-- A mini code is nothing but the codes of its numbers. -/
theorem Kind.mini_eq_codes {k : Kind} (hk : k ≠ bool) {v : k.Val} {code : Code}
    (h : k.mini o v = .ok code) : code = MiniField.codes o (k.miniFields v) := by
  cases k with
  | bool => contradiction
  | int t =>
    cases h
    exact (MiniField.codes_singleton o t v).symm
  | single =>
    simp only [mini, Single.mini] at h
    split at h
    · cases h
      exact (MiniField.codes_ofNat o .u16 v.toUnitSteps_lt).symm
    · contradiction
  | double =>
    simp only [mini, Double.mini] at h
    split at h
    · cases h
      exact (MiniField.codes_ofNat o .u32 v.toUnitSteps_lt).symm
    · contradiction
  | u24 =>
    cases h
    exact (MiniField.codes_singleton o .u32 v.val).symm
  | guid =>
    cases h
    exact (MiniField.codes_singleton o .u64 v.val).symm
  | v4 =>
    cases h
    exact v.mini_eq_codes o
  | socket =>
    cases h
    cases v with
    | v4 a => exact a.mini_eq_codes o
    | v6 a => exact a.mini_eq_codes o

end Codes

theorem Kind.length_bits_mini (o : ByteOrder) {k : Kind} (hk : k ≠ bool) {v : k.Val} {code : Code}
    (h : k.mini o v = .ok code) (position : Nat) :
    (code.bits position).length = miniTotal (k.miniFields v) := by
  rw [Kind.mini_eq_codes o hk h, MiniField.length_bits_codes]

/-! ## Writes -/

namespace Stream

variable {s : Stream} (hs : s.Valid) {a : Allocator}
include hs

theorem Valid.writePos_of_transfer {source source' : Stream} {k n : Nat} {b : Backed}
    (h : transfer source k ⟨s, a⟩ = .ok (n, source') b) : b.stream.writePos = s.writePos + n := by
  obtain ⟨rfl, -, -, hext⟩ := transfer_eq_ok h
  rw [(hext hs).writePos_eq, Buffer.length_bitsFrom]

/-- A mini code that is written takes as many bits as its numbers. -/
theorem Valid.count_of_writeMini {k : Kind} (hk : k ≠ .bool) {v : k.Val} {n : Nat} {b : Backed}
    (h : writeMini k v ⟨s, a⟩ = .ok n b) : n = miniTotal (k.miniFields v) := by
  obtain ⟨code, hcode⟩ := writeCode_eq_ok h
  obtain ⟨hlen, -⟩ := (WriteOp.mini k v).appends s a n b hs h
  have hbits : (WriteOp.mini k v).bits s.setup.order s.writePos = code.bits s.writePos := by
    rw [WriteOp.bits, hcode]
    rfl
  dsimp only at hlen
  rw [hlen, hbits]
  exact k.length_bits_mini _ hk hcode _

/-- Where there can be room for the numbers of a value, its mini code is written. -/
theorem Valid.exists_writeMini {k : Kind} (hk : k ≠ .bool) (hexact : k.Exact) (v : k.Val)
    (hroom : s.Admits a (miniTotal (k.miniFields v))) :
    ∃ b, writeMini k v ⟨s, a⟩ = .ok (miniTotal (k.miniFields v)) b := by
  obtain ⟨bits, hwire⟩ := hexact.exists_miniWire v
  obtain ⟨code, hcode, hbits⟩ := Kind.bits_mini .network hwire
  have hlen := k.length_bits_mini .network hk hcode 0
  rw [hbits] at hlen
  rw [← hlen] at hroom ⊢
  exact ((writesWire_writeMini hwire).refines hs a).2 hroom

end Stream

/-- Every write that is accepted, and every transfer, returns the number of bits by which it moves the
write position. For an integer this is the length that is found without writing it, whatever its type and
value, and a reader passes over as many bits. A value made of several numbers takes the sum of their
lengths. Where there can be room, these numbers of bits are returned. -/
theorem written_counted {s : Stream} (hs : s.Reachable) (a : Allocator) :
    (∀ (op : WriteOp) (n : Nat) (b : Backed), op.perform ⟨s, a⟩ = .ok n b →
      b.stream.writePos = s.writePos + n) ∧
    (∀ (source source' : Stream) (k n : Nat) (b : Backed),
      transfer source k ⟨s, a⟩ = .ok (n, source') b ∨
        transferPayload source ⟨s, a⟩ = .ok (n, source') b →
      b.stream.writePos = s.writePos + n) ∧
    (∀ (t : IntType) (w : Word t),
      (∀ n b, writeMini (.int t) w ⟨s, a⟩ = .ok n b → n = w.miniLength ∧
        ∀ r : Stream, r.Reachable → b.stream.bits.drop s.writePos <+: r.bits.drop r.readPos →
          (Kind.readMini (.int t)).run r = .ok (w, r.passed w.miniLength)) ∧
      (s.Admits a w.miniLength → ∃ b, writeMini (.int t) w ⟨s, a⟩ = .ok w.miniLength b)) ∧
    ∀ (k : Kind) (v : k.Val), k ≠ .bool →
      (∀ n b, writeMini k v ⟨s, a⟩ = .ok n b → n = miniTotal (k.miniFields v)) ∧
      (k.Exact → s.Admits a (miniTotal (k.miniFields v)) →
        ∃ b, writeMini k v ⟨s, a⟩ = .ok (miniTotal (k.miniFields v)) b) := by
  refine ⟨fun op n b h => ?_, ?_, fun t w => ?_, fun k v hk => ⟨fun n b h => ?_, fun hexact => ?_⟩⟩
  · obtain ⟨rfl, hext⟩ := op.appends s a n b hs.valid h
    exact hext.writePos_eq
  · rintro source source' k n b (h | h)
    · exact hs.valid.writePos_of_transfer h
    · exact hs.valid.writePos_of_transfer h
  · have hwrites := writesWire_writeMini (k := .int t) (v := w) rfl
    obtain ⟨happend, hok⟩ := hwrites.refines hs.valid a
    rw [length_miniPattern] at happend hok
    refine ⟨fun n b h => ?_, hok⟩
    obtain ⟨hn, hext⟩ := happend n b h
    refine ⟨hn, fun r hr hbits => ?_⟩
    obtain ⟨code, hcode, hsame⟩ := Kind.bits_mini .network (k := .int t) (v := w) rfl
    have hread := Kind.decodes_readMini .network (k := .int t) ⟨nofun, nofun⟩ w hcode r.readPos
    rw [hsame] at hread
    rw [hext.drop_writePos hs.valid] at hbits
    rw [hread r hr.valid rfl hbits, length_miniPattern]
    rfl
  · exact hs.valid.count_of_writeMini hk h
  · exact hs.valid.exists_writeMini hk hexact v

/-- The address 127.0.0.1:80 behind the first three bits of a byte that was full: its version, the
complement of its host and its port take 5, 33 and 10 bits. -/
theorem written_counted_address :
    ∃ (s : Stream) (b : Backed), s.writePos = 3 ∧
      WriteOp.perform (.mini .v4 ⟨0x7F000001, 80⟩) ⟨s, .system⟩ = .ok 48 b ∧
      b.stream.writePos = 51 ∧
      (Kind.miniFields .v4 ⟨0x7F000001, 80⟩).map (fun f => f.word.miniLength) = [5, 33, 10] := by
  let s := filled {} [0xA5]
  have hmade : Reachable s := reachable_filled {} (by decide)
  have hroom : 3 ≤ s.capacity := Nat.le_trans (by decide) hmade.valid.writePos_le
  have hs := hmade.next (next_moveWrite rfl (Nat.zero_le 3) hroom)
  obtain ⟨hmoved, -, -, hmini⟩ := written_counted hs .system
  have hlengths : (Kind.miniFields .v4 ⟨0x7F000001, 80⟩).map (fun f => f.word.miniLength) =
      [5, 33, 10] := by decide +kernel
  have htotal : miniTotal (Kind.miniFields .v4 ⟨0x7F000001, 80⟩) = 48 := by decide +kernel
  obtain ⟨-, hok⟩ := hmini .v4 ⟨0x7F000001, 80⟩ nofun
  rw [htotal] at hok
  obtain ⟨b, h⟩ := hok ⟨nofun, nofun⟩ (Grants.admits ⟨rfl, by decide, .inr (by decide)⟩ rfl)
  exact ⟨_, b, rfl, h, hmoved (.mini .v4 _) 48 b h, hlengths⟩

end Bitwire
