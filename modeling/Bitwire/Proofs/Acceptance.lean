import Bitwire.Proofs.RawWrite
import Bitwire.Proofs.Tidy

/-!
# Writes that are accepted anywhere

Whether the arguments of a write are in order depends on them and on the setup of the stream only. So what
some stream accepts is accepted by every stream that is set up in the same way and can have room for it.

* `WriteOp.Accepted`: a write that some stream accepts.
* `WriteOp.Accepted.exists_perform_eq_ok`: so do all others, where the bits are admitted.
-/

namespace Bitwire

open Bitwire.Stream

/-- Some stream with this setup accepts the write. -/
def WriteOp.Accepted (op : WriteOp) (setup : Setup) : Prop :=
  ∃ (s : Stream) (a : Allocator) (n : Nat) (b : Backed),
    s.setup = setup ∧ op.perform ⟨s, a⟩ = .ok n b

namespace WriteOp

variable {op : WriteOp} {code : Except Fault Code} {s : Stream} {a : Allocator}

/-! ## Raw writes -/

theorem Accepted.wellFormed {setup : Setup} (h : op.Accepted setup) : op.WellFormed := by
  cases op with
  | run src n right =>
    obtain ⟨t, a', k, b, -, hok⟩ := h
    exact bounds_of_writeRun hok
  | _ => trivial

/-- A run that is accepted leaves out no bit that is looked for. -/
theorem Accepted.strayByte?_eq_none {setup : Setup} (h : op.Accepted setup) {src : List UInt8} {n : Nat}
    {right : Bool} (hop : op = .run src n right) (hstrict : setup.strict = true) :
    strayByte? src n right = none := by
  obtain ⟨h0, hn⟩ : (run src n right).WellFormed := hop ▸ h.wellFormed
  obtain ⟨t, a', k, b, rfl, hok⟩ := h
  rw [hop, perform, writeRun_eq right h0 (Nat.not_lt.2 hn)] at hok
  have hall := appended (fits_storeRun right hn) (strayIn src n right) ⟨t, a'⟩
  rw [hok] at hall
  cases hall with
  | done hreserve hclean =>
    rw [strayIn, (hasRoom_of_reserve hreserve).2.2, if_pos hstrict] at hclean
    exact Option.map_eq_none_iff.1 hclean

/-! ## Codes -/

/-- A code that is accepted was not refused. -/
theorem Accepted.code_eq_ok {setup : Setup} (h : op.Accepted setup) (hcode : op.Coded code) :
    ∃ c, code = .ok c := by
  obtain ⟨t, a', n, b, -, hok⟩ := h
  rw [hcode.perform_eq] at hok
  exact writeChecked_eq_ok code hok

theorem Coded.exists_perform_eq_ok (hcode : op.Coded code) (hop : op.Accepted s.setup) (hs : s.Valid)
    (h : s.Admits a (op.bits s.setup.order s.writePos).length) : ∃ n b, op.perform ⟨s, a⟩ = .ok n b := by
  rw [hcode.bits_eq] at h
  rw [hcode.perform_eq]
  obtain ⟨c, rfl⟩ := hop.code_eq_ok hcode
  exact Code.exists_write_eq_ok hcode.tidy hs h

/-- The flag and the mini code behind it are accepted as one code. -/
theorem Accepted.exists_writeMiniChanged_eq_ok {k : Kind} {v last : k.Val}
    (hop : (miniChanged k v last).Accepted s.setup) (hs : s.Valid)
    (h : s.Admits a ((miniChanged k v last).bits s.setup.order s.writePos).length) :
    ∃ n b, writeMiniChanged k v last ⟨s, a⟩ = .ok n b := by
  have hmini : writeMini k v = Code.writeChecked (k.mini .network v) := writeCode_eq (k.mini_order · · v)
  have htidy : Code.Tidy (k.mini .network v) := k.tidy_mini .network v
  obtain ⟨t, a', n, b, -, hok⟩ := hop
  change writeMiniChanged k v last ⟨t, a'⟩ = _ at hok
  rw [bits, k.mini_order s.setup.order .network] at h
  unfold writeMiniChanged at hok ⊢
  rw [hmini] at hok ⊢
  generalize k.mini .network v = code at hok h htidy ⊢
  by_cases hk : k = .bool
  · rw [if_pos hk] at hok h ⊢
    obtain ⟨c, rfl⟩ := writeChecked_eq_ok code hok
    exact Code.exists_write_eq_ok htidy hs h
  rw [if_neg hk] at hok h ⊢
  by_cases hsame : k.same v last = true
  · rw [if_pos hsame] at h ⊢
    exact ⟨1, exists_writeBit_eq_ok false h.grants⟩
  · rw [if_neg hsame] at hok h ⊢
    obtain ⟨_, _, -, hok⟩ := bind_eq_ok_iff.1 hok
    obtain ⟨_, _, hcode, -⟩ := bind_eq_ok_iff.1 hok
    obtain ⟨c, rfl⟩ := writeChecked_eq_ok code hcode
    have hform : Code.WellFormed (.bit true :: c) :=
      Code.wellFormed_cons.2 ⟨Code.wellFormed_bit true, htidy⟩
    exact Code.exists_write_eq_ok hform hs h

/-! ## Operations -/

/-- What some stream accepts is accepted by all streams with the same setup that admit its bits. -/
theorem Accepted.exists_perform_eq_ok (hop : op.Accepted s.setup) (hs : s.Valid)
    (h : s.Admits a (op.bits s.setup.order s.writePos).length) : ∃ n b, op.perform ⟨s, a⟩ = .ok n b := by
  cases op with
  | run | bit | align | bytes | alignedBytes | padTo =>
    exact exists_rawWrite_eq_ok hs rfl hop.wellFormed (fun _ _ _ => hop.strayByte?_eq_none) h
  | miniChanged k v last => exact hop.exists_writeMiniChanged_eq_ok hs h
  | bounded | value | mini | changed | changedUnknown | miniBytes | between | ranged | boundedFloat | vector
  | unitVector | quaternion | matrix =>
    exact (coded rfl).exists_perform_eq_ok hop hs h

end WriteOp

end Bitwire
