import Bitwire.Proofs.HostOrder
import Bitwire.Proofs.Stream.Admit
import Bitwire.Proofs.Stream.Transfer

/-!
# What a write is made of

A write makes room and stores bits, and it looks at little of a stream: at the write position, and at
whether stray bits are looked for. All that writes, transfers too, is put together in this way, so that
what holds of making room and storing, and is kept by sequences, holds of every write. Only a run looks at
whether stray bits are looked for, and only if it has some.

* `Stream.Writing`: an action put together from making room and storing.
* `Stream.Blind`: one that looks at nothing but the write position; `Blind.fault`: what can stop it.
* `blind_writeBit` … `blind_padTo`, `blind_transfer`: the writes of bits and bytes, and transfers.
* `writing_writeRun`, `blind_writeRun`: runs, with stray bits or without.
* `WriteOp.writing`: writing operations.
-/

namespace Bitwire

namespace Stream

/-- Actions put together from making room and storing. -/
inductive Writing : {α : Type} → WriteM α → Prop
  | pure {α : Type} (a : α) : Writing (Pure.pure a : WriteM α)
  | throw {α : Type} (f : Fault) : Writing (MonadExcept.throw f : WriteM α)
  | reserve (n : Nat) : Writing (Stream.reserve n)
  /-- What stands against it depends on whether stray bits are looked for. -/
  | append {n : Nat} {store : Nat → Buffer → Except Fault Buffer} (hstore : Fits n store)
      (refused : Bool → Option Fault) :
      Writing (Stream.append n store fun setup => refused setup.strict)
  | writePos {α : Type} {f : Nat → WriteM α} : (∀ position, Writing (f position)) →
      Writing (do let b ← get; f b.stream.writePos)
  | bind {α β : Type} {x : WriteM α} {f : α → WriteM β} : Writing x → (∀ a, Writing (f a)) →
      Writing (x >>= f)

namespace Writing

theorem ite {α : Type} {x y : WriteM α} {c : Prop} [Decidable c] (hx : Writing x) (hy : Writing y) :
    Writing (if c then x else y) := by
  split
  · exact hx
  · exact hy

theorem seq {x y : WriteM Nat} (hx : Writing x) (hy : Writing y) :
    Writing (do let a ← x; let b ← y; Pure.pure (a + b)) :=
  hx.bind fun _ => hy.bind fun _ => .pure _

/-- A write leads to the same allocator, asked a few times more. -/
theorem later {α : Type} {x : WriteM α} (hx : Writing x) {v : α} {b b' : Backed}
    (h : x b = .ok v b') : b.allocator.Later b'.allocator := by
  induction hx generalizing b b' with
  | pure a =>
    cases h
    exact .refl _
  | throw f => exact absurd h throw_ne_ok
  | reserve n => exact later_reserve h
  | append hstore refused => exact later_append hstore h
  | @writePos _ f _ ih => exact ih b.stream.writePos h
  | bind _ _ ihx ihf =>
    obtain ⟨a, b₁, hx, hf⟩ := bind_eq_ok_iff.1 h
    exact (ihx hx).trans (ihf a hf)

end Writing

end Stream

namespace Fault

/-- A bit that a run leaves out is set. -/
def Stray : Fault → Prop
  | strayBits _ => True
  | _ => False

/-- A byte is outside of the buffer. -/
def Outside : Fault → Prop
  | outsideBuffer _ _ => True
  | _ => False

/-- A check of the arguments of a write: neither a stray bit, nor a byte outside of the buffer, nor a
refused request for memory. -/
structure Plain (f : Fault) : Prop where
  not_stray : ¬ f.Stray
  not_outside : ¬ f.Outside
  not_refusal : ¬ f.Refusal

variable {f : Fault} (h : f.Crowded ∨ f.Refusal)
include h

theorem not_stray_of_room : ¬ f.Stray := by
  cases f with
  | strayBits _ => exact (h.elim id id).elim
  | _ => exact id

theorem not_outside_of_room : ¬ f.Outside := by
  cases f with
  | outsideBuffer _ _ => exact (h.elim id id).elim
  | _ => exact id

end Fault

namespace Stream

/-- Actions put together from making room and storing that look at the write position only. Their own
checks are among the given ones. -/
inductive Blind (checks : Fault → Prop) : {α : Type} → WriteM α → Prop
  | pure {α : Type} (a : α) : Blind checks (Pure.pure a : WriteM α)
  | throw {α : Type} {f : Fault} : checks f → Blind checks (MonadExcept.throw f : WriteM α)
  | reserve (n : Nat) : Blind checks (Stream.reserve n)
  | append {n : Nat} {store : Nat → Buffer → Except Fault Buffer} (hstore : Fits n store) :
      Blind checks (Stream.append n store)
  | writePos {α : Type} {f : Nat → WriteM α} : (∀ position, Blind checks (f position)) →
      Blind checks (do let b ← get; f b.stream.writePos)
  | bind {α β : Type} {x : WriteM α} {f : α → WriteM β} : Blind checks x → (∀ a, Blind checks (f a)) →
      Blind checks (x >>= f)

namespace Blind

variable {checks : Fault → Prop}

theorem mono {more : Fault → Prop} (hmore : ∀ f, checks f → more f) {α : Type} {x : WriteM α}
    (hx : Blind checks x) : Blind more x := by
  induction hx with
  | pure a => exact .pure a
  | throw hf => exact .throw (hmore _ hf)
  | reserve n => exact .reserve n
  | append hstore => exact .append hstore
  | writePos _ ih => exact .writePos ih
  | bind _ _ ihx ihf => exact .bind ihx ihf

theorem writing {α : Type} {x : WriteM α} (hx : Blind checks x) : Writing x := by
  induction hx with
  | pure a => exact .pure a
  | throw _ => exact .throw _
  | reserve n => exact .reserve n
  | append hstore => exact .append hstore fun _ => none
  | writePos _ ih => exact .writePos ih
  | bind _ _ ihx ihf => exact .bind ihx ihf

theorem ite {α : Type} {x y : WriteM α} {c : Prop} [Decidable c] (hx : c → Blind checks x)
    (hy : ¬ c → Blind checks y) : Blind checks (if c then x else y) := by
  split
  · exact hx ‹_›
  · exact hy ‹_›

theorem seq {x y : WriteM Nat} (hx : Blind checks x) (hy : Blind checks y) :
    Blind checks (do let a ← x; let b ← y; Pure.pure (a + b)) :=
  hx.bind fun _ => hy.bind fun _ => .pure _

/-- It is stopped by a check of its own, or for want of room: nothing that it stores is outside of the
buffer. -/
theorem fault {α : Type} {x : WriteM α} (hx : Blind checks x) {b c : Backed} {f : Fault}
    (h : x b = .error f c) : checks f ∨ f.Crowded ∨ f.Refusal := by
  induction hx generalizing b c f with
  | pure a => contradiction
  | throw hf =>
    cases h
    exact .inl hf
  | reserve n => exact .inr (crowded_or_refusal h)
  | append hstore =>
    have hall := appended hstore (fun _ => none) b
    rw [h] at hall
    cases hall with
    | full hreserve => exact .inr (crowded_or_refusal hreserve)
    | refused _ hrefused => contradiction
  | writePos _ ih => exact ih _ h
  | bind _ _ ihx ihf =>
    rcases bind_eq_error_iff.1 h with h | ⟨a, b', -, h⟩
    · exact ihx h
    · exact ihf a h

end Blind

/-! ## Writes of bits and bytes -/

theorem blind_writeBit (bit : Bool) : Blind Fault.Plain (writeBit bit) := .append (fits_storeBit bit)

/-- The checks of a run come before a look at its stray bits. -/
theorem blind_writeRun {src : List UInt8} {n : Nat} {right : Bool}
    (h : n ≠ 0 → n ≤ 8 * src.length → strayByte? src n right = none) :
    Blind Fault.Plain (writeRun src n right) := by
  by_cases h0 : n = 0
  · unfold writeRun
    rw [if_pos h0]
    exact .throw ⟨id, id, id⟩
  · by_cases hl : 8 * src.length < n
    · unfold writeRun
      rw [if_neg h0, if_pos hl]
      exact .throw ⟨id, id, id⟩
    · have hn := Nat.le_of_not_lt hl
      have hclean : strayIn src n right = fun _ => none :=
        funext fun _ => strayIn_eq_none fun _ => h h0 hn
      rw [writeRun_eq right h0 hl, hclean]
      exact .append (fits_storeRun right hn)

/-- The bits that a run leaves out at the right end of its last byte are not stray. -/
theorem blind_writeRun_left (src : List UInt8) (n : Nat) : Blind Fault.Plain (writeRun src n false) :=
  blind_writeRun fun _ _ => if_neg fun h => Bool.false_ne_true h.1

theorem writing_writeRun (src : List UInt8) (n : Nat) (right : Bool) :
    Writing (writeRun src n right) := by
  by_cases h : n ≠ 0 ∧ n ≤ 8 * src.length
  · rw [writeRun_eq right h.1 (Nat.not_lt.2 h.2)]
    exact .append (fits_storeRun right h.2) fun strict =>
      if strict then (strayByte? src n right).map .strayBits else none
  · exact (blind_writeRun fun h0 hl => absurd ⟨h0, hl⟩ h).writing

theorem blind_writeAlign : Blind Fault.Plain writeAlign :=
  .writePos fun p => .ite (c := padding p = 0) (fun _ => .pure 0) fun _ => .append (fits_pure _)

theorem blind_writeBytes (src : List UInt8) : Blind Fault.Plain (writeBytes src) :=
  .ite (fun _ => .pure 0) fun _ => blind_writeRun fun _ _ => strayByte?_bytes src src.length true

theorem blind_writeAlignedBytes (src : List UInt8) : Blind Fault.Plain (writeAlignedBytes src) :=
  blind_writeAlign.seq (blind_writeBytes src)

theorem blind_writeZeros (bytes : Nat) : Blind Fault.Plain (writeZeros bytes) :=
  .writePos fun p => .append (fits_zeros (bytes - p / 8))

theorem blind_padTo (bytes : Nat) : Blind Fault.Plain (padTo bytes) :=
  .writePos fun p => .ite (c := bytes ≤ bytesFor p) (fun _ => .pure 0) fun _ =>
    blind_writeAlign.seq (blind_writeZeros bytes)

/-! ## Transfers -/

/-- Bytes outside of the buffer are no stray bits. -/
theorem not_stray_of_readBit {s : Stream} {f : Fault} (h : readBit.run s = .error f) : ¬ f.Stray := by
  rw [run_readBit] at h
  unfold Buffer.byteAt at h
  split at h
  · split at h
    · contradiction
    · cases h
      exact id
  · cases h
    exact id

theorem not_stray_of_takeSlice {n : Nat} {s : Stream} {f : Fault}
    (h : (takeSlice n).run s = .error f) : ¬ f.Stray := by
  rw [run_takeSlice] at h
  unfold Buffer.bytesAt at h
  split at h
  · contradiction
  · cases h
    exact id

theorem blind_onSource {α : Type} {x : StreamM α} {source : Stream}
    (hx : ∀ f, x.run source = .error f → ¬ f.Stray) : Blind (¬ ·.Stray) (onSource x source) := by
  unfold onSource
  cases hrun : x.run source with
  | ok r => exact .pure r
  | error f => exact .throw (hx f hrun)

theorem blind_transferBits (k : Nat) (source : Stream) :
    Blind (¬ ·.Stray) (transferBits k source) := by
  induction k generalizing source with
  | zero => exact .pure source
  | succ k ih =>
    exact .bind (blind_onSource fun _ => not_stray_of_readBit) fun r =>
      .bind ((blind_writeBit r.1).mono fun _ h => h.not_stray) fun _ => ih r.2

theorem blind_transfer (source : Stream) (n : Nat) : Blind (¬ ·.Stray) (transfer source n) :=
  .ite (fun _ => .throw id) fun _ => .bind (.reserve n) fun _ =>
    .bind (blind_transferBits _ source) fun t => .ite (fun _ => .pure (n, t)) fun _ =>
      .bind (blind_onSource (x := takeSlice _) fun _ => not_stray_of_takeSlice) fun r =>
        .bind ((blind_writeRun_left r.1 _).mono fun _ h => h.not_stray) fun _ => .pure (n, r.2)

end Stream

open Bitwire.Stream

/-! ## Codes and operations -/

theorem Piece.writing (p : Piece) : Writing p.write := by
  cases p with
  | bit b => exact (blind_writeBit b).writing
  | run src n right => exact writing_writeRun src n right
  | align => exact blind_writeAlign.writing

theorem Code.writing (code : Code) : Writing code.write := by
  induction code with
  | nil => exact .pure 0
  | cons p ps ih => exact p.writing.seq ih

theorem Code.writing_checked (code : Except Fault Code) : Writing (writeChecked code) := by
  cases code with
  | ok code => exact code.writing
  | error f => exact .throw f

/-- A codec that gives one code for either order does not look at the order of the stream. -/
theorem writing_writeCode {f : ByteOrder → Except Fault Code} (h : ∀ o o', f o = f o') :
    Writing (writeCode f) := by
  rw [writeCode_eq h]
  exact Code.writing_checked _

theorem writing_writeMini (k : Kind) (v : k.Val) : Writing (writeMini k v) :=
  writing_writeCode (k.mini_order · · v)

theorem writing_writeMiniChanged (k : Kind) (v last : k.Val) :
    Writing (writeMiniChanged k v last) :=
  (writing_writeMini k v).ite
    ((blind_writeBit false).writing.ite ((blind_writeBit true).writing.seq (writing_writeMini k v)))

/-- Every writing operation is put together from making room and storing. -/
theorem WriteOp.writing (op : WriteOp) : Writing op.perform := by
  cases op with
  | run src n right => exact writing_writeRun src n right
  | bit b => exact (blind_writeBit b).writing
  | align => exact blind_writeAlign.writing
  | bytes src => exact (blind_writeBytes src).writing
  | alignedBytes src => exact (blind_writeAlignedBytes src).writing
  | padTo n => exact (blind_padTo n).writing
  | miniChanged k v last => exact writing_writeMiniChanged k v last
  | miniBytes signed src => exact Code.writing_checked _
  | bounded src bound => exact writing_writeCode (runCode_order · · _)
  | mini k v => exact writing_writeMini k v
  | value k v => exact writing_writeCode fun o o' => congrArg Except.ok (k.code_order o o' v)
  | changed k v last =>
    exact writing_writeCode fun o o' => congrArg Except.ok (k.changedCode_order o o' v last)
  | changedUnknown k v =>
    exact writing_writeCode fun o o' => congrArg Except.ok (k.unknownCode_order o o' v)
  | between t w min max outside =>
    exact writing_writeCode (f := fun o => Span.check min max >>= fun r => r.code o w outside)
      fun o o' => bind_congr fun r => r.code_order o o' w outside
  | ranged t r w outside => exact writing_writeCode (r.code_order · · w outside)
  | boundedFloat x min max => exact writing_writeCode (boundedFloat_order · · x min max)
  | vector p v => exact writing_writeCode fun o o' => congrArg Except.ok (Triple.code_order o o' _)
  | unitVector p v => exact writing_writeCode (Triple.unitCode_order · · _)
  | quaternion p q => exact writing_writeCode (Quaternion.code_order · · _)
  | matrix p m => exact writing_writeCode (Quaternion.code_order · · _)

end Bitwire
