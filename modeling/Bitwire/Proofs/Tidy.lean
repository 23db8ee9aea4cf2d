import Bitwire.Proofs.Wire.Write
import Bitwire.Proofs.Writing

/-!
# Codecs leave out no bits

The runs that a codec writes are not empty, lie within their source and leave out no bit that is set.
This is so for whole bytes, for the nibble of a mini code, and for an offset, which is below the power
of two of its width. Hence a codec does the same whether stray bits are looked for or not, and only a
raw run can fail for one.

* `Code.Tidy`: a codec gives a well-formed code, or refuses its value; `tidy_miniBytes` …
  `Quaternion.tidy_code`: so do all.
* `WriteOp.Dirty`: a raw run with stray bits.
* `WriteOp.blind`: all other writing operations are blind to the setup.
* `WriteOp.fault`: what can stop a writing operation; `WriteOp.dirty_of_strayBits`: only a raw run fails for
  stray bits; `WriteOp.not_outside`: no write stores a byte outside of the buffer.
-/

namespace Bitwire

open Bitwire.Stream

/-! ## Well-formed codes -/

/-- A codec gives a well-formed code, or refuses its value by a check of its own. -/
def Code.Tidy : Except Fault Code → Prop
  | .ok code => code.WellFormed
  | .error f => f.Plain

namespace Code.Tidy

theorem ok {code : Code} (h : code.WellFormed) : Tidy (.ok code) := h

theorem ite {c : Prop} [Decidable c] {x y : Except Fault Code} (hx : c → Tidy x)
    (hy : ¬ c → Tidy y) : Tidy (if c then x else y) := by
  split
  · exact hx ‹_›
  · exact hy ‹_›

theorem bind {α : Type} {x : Except Fault α} {f : α → Except Fault Code}
    (hx : ∀ e, x = .error e → e.Plain) (hf : ∀ v, x = .ok v → Tidy (f v)) : Tidy (x >>= f) := by
  cases x with
  | ok v => exact hf v rfl
  | error e => exact hx e rfl

end Code.Tidy

theorem Code.wellFormed_flatMap {α : Type} {f : α → Code} (h : ∀ x, (f x).WellFormed) (xs : List α) :
    Code.WellFormed (xs.flatMap f) := by
  intro p hp
  obtain ⟨x, -, hx⟩ := List.mem_flatMap.1 hp
  exact h x p hx

theorem Code.wellFormed_ofBytes (src : List UInt8) : (Code.ofBytes src).WellFormed := by
  cases src with
  | nil => exact wellFormed_nil
  | cons b bs =>
    have hrun : Piece.WellFormed (.run (b :: bs) (8 * (b :: bs).length) true) :=
      wellFormed_run (Nat.succ_ne_zero bs.length) rfl true
    exact wellFormed_cons.2 ⟨hrun, wellFormed_nil⟩

theorem tidy_miniBytes (signed : Bool) (src : List UInt8) : Code.Tidy (miniBytes signed src) :=
  .ite (fun _ => ⟨id, id, id⟩) fun _ => wellFormed_miniFrom _ _

section Codecs

variable (o : ByteOrder)

theorem Kind.tidy_mini (k : Kind) (v : k.Val) : Code.Tidy (k.mini o v) := by
  cases k with
  | single | double => exact .ite (fun _ => wellFormed_miniNumber o _ _ _) fun _ => ⟨id, id, id⟩
  | int | u24 | guid => exact wellFormed_miniNumber o _ _ _
  | bool => exact Kind.wellFormed_mini o (k := .bool) (v := v) rfl
  | v4 => exact SocketV4.wellFormed_mini o v
  | socket => exact Kind.wellFormed_mini o (k := .socket) (v := v) rfl

theorem tidy_runCode (src : List UInt8) : Code.Tidy (runCode o src) := by
  refine .ite (fun _ => Code.wellFormed_append.2 ⟨wellFormed_miniNumber o _ _ _, ?_⟩) fun _ => ⟨id, id, id⟩
  split
  · exact Code.wellFormed_nil
  · exact Code.wellFormed_cons.2 ⟨trivial, Code.wellFormed_ofBytes src⟩

theorem Span.tidy_code {t : IntType} (r : Span t) (w : Word t) (outside : Bool) :
    Code.Tidy (r.code o w outside) := by
  cases hcode : r.code o w outside with
  | ok code => exact r.wellFormed_code o hcode
  | error f =>
    unfold Span.code at hcode
    split at hcode
    · split at hcode
      · contradiction
      · contradiction
    · split at hcode
      · contradiction
      · cases hcode
        exact ⟨id, id, id⟩

theorem tidy_between {t : IntType} (w min max : Word t) (outside : Bool) :
    Code.Tidy (Span.check min max >>= fun r => r.code o w outside) := by
  refine .bind (fun f hf => ?_) fun r _ => r.tidy_code o w outside
  unfold Span.check at hf
  split at hf
  · contradiction
  · cases hf
    exact ⟨id, id, id⟩

theorem tidy_boundedFloat (x min max : Single) : Code.Tidy (boundedFloat o x min max) :=
  .ite (fun _ => wellFormed_miniNumber o _ _ _) fun _ => ⟨id, id, id⟩

theorem plain_of_expectUnit {components : List Double} {f : Fault}
    (h : expectUnit components = .error f) : f.Plain := by
  unfold expectUnit at h
  split at h
  · contradiction
  · cases h
    exact ⟨id, id, id⟩

theorem Triple.wellFormed_code (v : Triple Double) : (v.code o).WellFormed := by
  refine Code.wellFormed_append.2 ⟨wellFormed_numberCode o (by decide) _, ?_⟩
  split
  · exact Code.wellFormed_flatMap (fun _ => wellFormed_miniNumber o _ _ _) _
  · exact Code.wellFormed_nil

theorem Triple.tidy_unitCode (v : Triple Double) : Code.Tidy (v.unitCode o) :=
  .bind (fun _ => plain_of_expectUnit) fun _ _ =>
    Code.wellFormed_flatMap (fun _ => wellFormed_miniNumber o _ _ _) _

theorem Quaternion.tidy_code (q : Quaternion Double) : Code.Tidy (q.code o) := by
  refine .bind (fun _ => plain_of_expectUnit) fun _ _ => Code.wellFormed_append.2
    ⟨fun p hp => ?_, Code.wellFormed_flatMap (fun _ => wellFormed_miniNumber o _ _ _) _⟩
  obtain ⟨c, -, rfl⟩ := List.mem_map.1 hp
  exact Code.wellFormed_bit _

end Codecs

/-! ## Blind codes -/

theorem Piece.blind {p : Piece} (hp : p.WellFormed) : Blind Fault.Plain p.write := by
  cases p with
  | bit b => exact blind_writeBit b
  | run src n right => exact blind_writeRun fun _ _ => hp.2.2
  | align => exact blind_writeAlign

theorem Code.blind {code : Code} (hcode : code.WellFormed) : Blind Fault.Plain code.write := by
  induction code with
  | nil => exact .pure 0
  | cons p ps ih =>
    obtain ⟨hp, hps⟩ := wellFormed_cons.1 hcode
    exact (p.blind hp).seq (ih hps)

theorem Code.Tidy.blind {code : Except Fault Code} (h : Tidy code) :
    Blind Fault.Plain (writeChecked code) := by
  cases code with
  | ok code => exact Code.blind h
  | error f => exact .throw h

theorem blind_writeMini (k : Kind) (v : k.Val) : Blind Fault.Plain (writeMini k v) := by
  rw [writeMini, writeCode_eq (k.mini_order · · v)]
  exact (k.tidy_mini _ v).blind

/-! ## Operations -/

namespace WriteOp

/-- The code that an operation appends, if it is that of a single codec. -/
def code? : WriteOp → Option (Except Fault Code)
  | bounded src bound => some (runCode .network (src.take bound))
  | value k v => some (.ok (k.code .network v))
  | mini k v => some (k.mini .network v)
  | changed k v last => some (.ok (k.changedCode .network v last))
  | changedUnknown k v => some (.ok (k.unknownCode .network v))
  | miniBytes signed src => some (Bitwire.miniBytes signed src)
  | between _ w min max outside =>
    some (Span.check min max >>= fun r => r.code .network w outside)
  | ranged _ r w outside => some (r.code .network w outside)
  | boundedFloat x min max => some (Bitwire.boundedFloat .network x min max)
  | vector p v => some (.ok ((v.map p.widen).code .network))
  | unitVector p v => some ((v.map p.widen).unitCode .network)
  | quaternion p q => some ((q.map p.widen).code .network)
  | matrix p m => some ((Matrix.quaternion (Triple.map (Triple.map p.widen) m)).code .network)
  | run .. | bit .. | align | bytes .. | alignedBytes .. | padTo .. | miniChanged .. => none

/-- An operation that appends the code of a codec, which is the same for either order. -/
structure Coded (op : WriteOp) (code : Except Fault Code) : Prop where
  tidy : Code.Tidy code
  perform_eq : op.perform = Code.writeChecked code
  bits_eq : ∀ o position, op.bits o position = Code.checkedBits position code

theorem Coded.of_writeCode {op : WriteOp} {f : ByteOrder → Except Fault Code}
    (ho : ∀ o o', f o = f o') (htidy : Code.Tidy (f .network)) (hperform : op.perform = writeCode f)
    (hbits : ∀ o position, op.bits o position = Code.checkedBits position (f o)) :
    op.Coded (f .network) where
  tidy := htidy
  perform_eq := hperform.trans (writeCode_eq ho)
  bits_eq o position := by rw [hbits, ho o .network]

theorem Coded.blind {op : WriteOp} {code : Except Fault Code} (h : op.Coded code) :
    Blind Fault.Plain op.perform := by
  rw [h.perform_eq]
  exact h.tidy.blind

/-- The code of an operation is what it appends, on a host of either order. -/
theorem coded {op : WriteOp} {code : Except Fault Code} (h : op.code? = some code) :
    op.Coded code := by
  cases op with
  | bounded src bound =>
    cases h
    exact .of_writeCode (runCode_order · · _) (tidy_runCode _ _) rfl fun _ _ => rfl
  | value k v =>
    cases h
    exact .of_writeCode (f := fun o => .ok (k.code o v))
      (fun o o' => congrArg Except.ok (k.code_order o o' v)) (k.wellFormed_code _ v) rfl fun _ _ => rfl
  | mini k v =>
    cases h
    exact .of_writeCode (k.mini_order · · v) (k.tidy_mini _ v) rfl fun _ _ => rfl
  | changed k v last =>
    cases h
    exact .of_writeCode (f := fun o => .ok (k.changedCode o v last))
      (fun o o' => congrArg Except.ok (k.changedCode_order o o' v last))
      (k.wellFormed_changedCode _ v last) rfl fun _ _ => rfl
  | changedUnknown k v =>
    cases h
    exact .of_writeCode (f := fun o => .ok (k.unknownCode o v))
      (fun o o' => congrArg Except.ok (k.unknownCode_order o o' v)) (k.wellFormed_unknownCode _ v) rfl
      fun _ _ => rfl
  | miniBytes signed src =>
    cases h
    exact ⟨tidy_miniBytes signed src, rfl, fun _ _ => rfl⟩
  | between t w min max outside =>
    cases h
    exact .of_writeCode (f := fun o => Span.check min max >>= fun r => r.code o w outside)
      (fun o o' => bind_congr fun r => r.code_order o o' w outside) (tidy_between _ w min max outside)
      rfl fun _ _ => rfl
  | ranged t r w outside =>
    cases h
    exact .of_writeCode (r.code_order · · w outside) (r.tidy_code _ w outside) rfl fun _ _ => rfl
  | boundedFloat x min max =>
    cases h
    exact .of_writeCode (boundedFloat_order · · x min max) (tidy_boundedFloat _ x min max) rfl
      fun _ _ => rfl
  | vector p v =>
    cases h
    exact .of_writeCode (f := fun o => .ok ((v.map p.widen).code o))
      (fun o o' => congrArg Except.ok (Triple.code_order o o' _)) (Triple.wellFormed_code _ _) rfl
      fun _ _ => rfl
  | unitVector p v =>
    cases h
    exact .of_writeCode (Triple.unitCode_order · · _) (Triple.tidy_unitCode _ _) rfl fun _ _ => rfl
  | quaternion p q =>
    cases h
    exact .of_writeCode (Quaternion.code_order · · _) (Quaternion.tidy_code _ _) rfl fun _ _ => rfl
  | matrix p m =>
    cases h
    exact .of_writeCode (Quaternion.code_order · · _) (Quaternion.tidy_code _ _) rfl fun _ _ => rfl
  | run | bit | align | bytes | alignedBytes | padTo | miniChanged => contradiction

end WriteOp

/-! ## Raw runs with stray bits -/

/-- A raw run of the low bits of its last byte, where another bit of this byte is set. -/
inductive WriteOp.Dirty : WriteOp → UInt8 → Prop
  | run {src : List UInt8} {n : Nat} {byte : UInt8} : n % 8 ≠ 0 → src[n / 8]? = some byte →
      byte >>> UInt8.ofNat (n % 8) ≠ 0 → Dirty (run src n true) byte

theorem WriteOp.Dirty.exists_run {op : WriteOp} {byte : UInt8} (h : op.Dirty byte) :
    ∃ src n, op = .run src n true := by
  obtain ⟨-, -, -⟩ := h
  exact ⟨_, _, rfl⟩

theorem WriteOp.Dirty.unique {op : WriteOp} {byte byte' : UInt8} (h : op.Dirty byte)
    (h' : op.Dirty byte') : byte = byte' := by
  obtain ⟨-, hbyte, -⟩ := h
  obtain ⟨-, hbyte', -⟩ := h'
  exact Option.some.inj (hbyte.symm.trans hbyte')

theorem strayByte?_eq_some_iff {src : List UInt8} {n : Nat} {right : Bool} {byte : UInt8} :
    strayByte? src n right = some byte ↔ (WriteOp.run src n right).Dirty byte := by
  unfold strayByte?
  constructor
  · intro h
    split at h
    · rename_i hpart
      obtain ⟨hright, h0⟩ := hpart
      obtain ⟨hbyte, hset⟩ := Option.filter_eq_some_iff.1 h
      rw [hright]
      exact .run h0 hbyte (of_decide_eq_true hset)
    · contradiction
  · rintro ⟨h0, hbyte, hset⟩
    rw [if_pos ⟨rfl, h0⟩]
    exact Option.filter_eq_some_iff.2 ⟨hbyte, decide_eq_true hset⟩

/-- Unless it is a raw run with stray bits, a writing operation does not look at the setup. -/
theorem WriteOp.blind {op : WriteOp} (h : ∀ byte, ¬ op.Dirty byte) : Blind Fault.Plain op.perform := by
  cases op with
  | run src n right =>
    refine blind_writeRun fun _ _ => Option.eq_none_iff_forall_ne_some.2 fun byte hbyte => ?_
    exact h byte (strayByte?_eq_some_iff.1 hbyte)
  | bit b => exact blind_writeBit b
  | align => exact blind_writeAlign
  | bytes src => exact blind_writeBytes src
  | alignedBytes src => exact blind_writeAlignedBytes src
  | padTo n => exact blind_padTo n
  | miniChanged k v last =>
    exact .ite (fun _ => blind_writeMini k v) fun _ => .ite (fun _ => blind_writeBit false) fun _ =>
      (blind_writeBit true).seq (blind_writeMini k v)
  | bounded | value | mini | changed | changedUnknown | miniBytes | between | ranged | boundedFloat | vector
  | unitVector | quaternion | matrix =>
    exact (coded rfl).blind

/-! ## Faults of writes -/

namespace WriteOp.Dirty

variable {src : List UInt8} {n : Nat} {byte : UInt8} (h : (WriteOp.run src n true).Dirty byte)
include h

theorem le_length : n ≤ 8 * src.length := by
  obtain ⟨h0, hbyte, -⟩ := h
  have hlt : n / 8 < src.length := (List.getElem?_eq_some_iff.1 hbyte).1
  omega

theorem strayIn_eq (setup : Setup) :
    strayIn src n true setup = if setup.strict then some (.strayBits byte) else none := by
  rw [strayIn, strayByte?_eq_some_iff.2 h]
  rfl

/-- A run with stray bits makes room first. -/
theorem perform_eq :
    writeRun src n true =
      append n (fun position buffer => buffer.storeRun true position n src) (strayIn src n true) := by
  have hle := h.le_length
  obtain ⟨h0, -, -⟩ := h
  exact writeRun_eq true (by omega) (Nat.not_lt.2 hle)

end WriteOp.Dirty

/-- A write is stopped by a check of its arguments, by a stray bit if it is a raw run that has one, or for
want of room. -/
theorem WriteOp.fault {op : WriteOp} {b c : Backed} {f : Fault} (h : op.perform b = .error f c) :
    f.Plain ∨ (∃ byte, f = .strayBits byte ∧ op.Dirty byte) ∨ f.Crowded ∨ f.Refusal := by
  by_cases hdirty : ∃ byte, op.Dirty byte
  · obtain ⟨byte, hdirty⟩ := hdirty
    obtain ⟨src, n, rfl⟩ := hdirty.exists_run
    rw [perform, hdirty.perform_eq] at h
    have hall := appended (fits_storeRun true hdirty.le_length) (strayIn src n true) b
    rw [h] at hall
    cases hall with
    | full hreserve => exact .inr (.inr (crowded_or_refusal hreserve))
    | @refused _ b' _ hrefused =>
      rw [hdirty.strayIn_eq] at hrefused
      split at hrefused
      · cases hrefused
        exact .inr (.inl ⟨byte, rfl, hdirty⟩)
      · contradiction
  · exact ((WriteOp.blind (not_exists.1 hdirty)).fault h).imp_right .inr

/-- Only a raw run fails for stray bits, and only for its own. -/
theorem WriteOp.dirty_of_strayBits {op : WriteOp} {byte : UInt8} {b c : Backed}
    (h : op.perform b = .error (.strayBits byte) c) : op.Dirty byte := by
  obtain hplain | ⟨_, ⟨⟩, hdirty⟩ | hroom := op.fault h
  · exact absurd trivial hplain.not_stray
  · exact hdirty
  · exact absurd trivial (Fault.not_stray_of_room hroom)

/-- No write stores a byte outside of the buffer, whatever the stream is. -/
theorem WriteOp.not_outside {op : WriteOp} {b c : Backed} {f : Fault} (h : op.perform b = .error f c) :
    ¬ f.Outside := by
  obtain hplain | ⟨_, rfl, -⟩ | hroom := op.fault h
  · exact hplain.not_outside
  · exact id
  · exact Fault.not_outside_of_room hroom

end Bitwire
