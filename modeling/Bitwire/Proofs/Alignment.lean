import Bitwire.Proofs.Exchange
import Bitwire.Proofs.Wire.Codec

/-!
# Where a write begins

The padding to a byte boundary is all that depends on where bits begin, and it depends on the position
modulo 8 only. So a code has the same bits at positions that agree modulo 8, and an exchange that does
not align has the same bits everywhere.

* `WriteOp.Aligns`: writes that pad to a byte boundary.
* `Code.bits_congr`: codes at positions that agree modulo 8.
* `Code.Steady`: codes that have the same bits wherever they begin.
* `Matched.bits_congr`: exchanges at any two positions, unless they align.
-/

namespace Bitwire

/-- The write pads to a byte boundary. Of the runs of bytes that are sent with their length, those that
are empty once they are cut do not. -/
def WriteOp.Aligns : WriteOp → Prop
  | align | alignedBytes _ | padTo _ => True
  | bounded src bound => src.take bound ≠ []
  | _ => False

theorem padding_congr {p q : Nat} (h : p % 8 = q % 8) : padding p = padding q := by
  unfold padding
  rw [h]

namespace Code

theorem bits_congr (code : Code) {p q : Nat} (h : p % 8 = q % 8) : code.bits p = code.bits q := by
  induction code generalizing p q with
  | nil => rfl
  | cons piece rest ih =>
    have hpiece : piece.bits p = piece.bits q := by
      cases piece with
      | bit | run => rfl
      | align => rw [Piece.bits, Piece.bits, padding_congr h]
    rw [bits_cons, bits_cons, hpiece,
      ih (show (p + (piece.bits q).length) % 8 = (q + (piece.bits q).length) % 8 by omega)]

theorem checkedBits_congr (code : Except Fault Code) {p q : Nat} (h : p % 8 = q % 8) :
    checkedBits p code = checkedBits q code := by
  cases code with
  | ok code => exact code.bits_congr h
  | error f => rfl

/-- The code has the same bits wherever it begins. -/
def Steady (code : Code) : Prop := ∀ p q, code.bits p = code.bits q

theorem steady_nil : Steady [] := fun _ _ => rfl

theorem steady_bit (b : Bool) : Steady [.bit b] := fun _ _ => rfl

theorem Steady.append {xs ys : Code} (hx : xs.Steady) (hy : ys.Steady) : Steady (xs ++ ys) := by
  intro p q
  rw [bits_append, bits_append, hx p q, hy _ (q + (xs.bits q).length)]

theorem steady_flatMap {α : Type} {f : α → Code} (h : ∀ x, (f x).Steady) (xs : List α) :
    Steady (xs.flatMap f) := by
  induction xs with
  | nil => exact steady_nil
  | cons x xs ih => exact (h x).append ih

theorem steady_miniFrom (pad : UInt8) (src : List UInt8) : Steady (miniFrom pad src) := by
  intro p q
  induction src generalizing p q with
  | nil => rfl
  | cons b bs ih =>
    cases bs with
    | nil => rw [bits_miniFrom_last, bits_miniFrom_last]
    | cons next bs => rw [bits_miniFrom_cons, bits_miniFrom_cons, ih (p + 1) (q + 1)]

theorem steady_miniNumber (o : ByteOrder) (k : Nat) (signed : Bool) (n : Nat) :
    Steady (miniNumber o k signed n) := by
  rw [miniNumber_eq]
  exact steady_miniFrom _ _

theorem steady_numberCode (o : ByteOrder) (k n : Nat) : Steady (numberCode o k n) := by
  intro p q
  rw [bits_numberCode, bits_numberCode]

theorem checkedBits_steady {code : Except Fault Code} (h : ∀ c, code = .ok c → c.Steady) (p q : Nat) :
    checkedBits p code = checkedBits q code := by
  cases code with
  | ok c => exact h c rfl p q
  | error f => rfl

end Code

/-- The length of no bytes has the same bits everywhere. -/
theorem bits_runCode_nil (o : ByteOrder) (p q : Nat) :
    Code.checkedBits p (runCode o []) = Code.checkedBits q (runCode o []) := by
  have hcode : runCode o [] = .ok (miniNumber o 4 false (0#32).toNat) := by
    simp [runCode]
    rfl
  rw [hcode]
  exact Code.steady_miniNumber o 4 false _ p q

/-- Values of exact kinds have a mini format. -/
theorem Kind.Exact.exists_miniWire {k : Kind} (hk : k.Exact) (v : k.Val) :
    ∃ bits, k.miniWire v = some bits := by
  cases k with
  | single => exact absurd rfl hk.1
  | double => exact absurd rfl hk.2
  | socket => cases v <;> exact ⟨_, rfl⟩
  | int | bool | u24 | guid | v4 => exact ⟨_, rfl⟩

theorem steady_miniBytes {signed : Bool} {src : List UInt8} {code : Code}
    (h : miniBytes signed src = .ok code) : code.Steady := by
  unfold miniBytes at h
  split at h
  · contradiction
  · cases h
    exact Code.steady_miniFrom _ _

/-- A number has the same code between bounds everywhere. -/
theorem Span.steady_code {t : IntType} {r : Span t} {o : ByteOrder} {w : Word t} {outside : Bool}
    {code : Code} (h : r.code o w outside = .ok code) : code.Steady := by
  have hoffset : (r.offsetCode o w).Steady := by
    unfold offsetCode
    split
    · exact Code.steady_nil
    · exact fun _ _ => rfl
  unfold Span.code at h
  split at h
  · split at h
    · cases h
      exact (Code.steady_bit false).append hoffset
    · cases h
      exact (Code.steady_bit true).append (Code.steady_miniNumber o _ _ _)
  · split at h
    · cases h
      exact hoffset
    · contradiction

/-- The bits of an exchange that does not align are the same everywhere, and those of one that aligns are
the same at positions that agree modulo 8. -/
theorem Matched.bits_congr {write : WriteOp} {read : ReadOp} {answer : Answer}
    (hm : Matched write read answer) (o : ByteOrder) {p q : Nat}
    (h : ¬ write.Aligns ∨ p % 8 = q % 8) : write.bits o p = write.bits o q := by
  cases hm with
  | run | bit | bytes => rfl
  | align | alignedBytes =>
    have hpq := h.resolve_left (not_not_intro trivial)
    rw [WriteOp.bits, WriteOp.bits, padding_congr hpq]
  | @bounded src bound =>
    by_cases hempty : src.take bound = []
    · rw [WriteOp.bits, WriteOp.bits, hempty]
      exact bits_runCode_nil o p q
    · exact Code.checkedBits_congr _ (h.resolve_left (not_not_intro hempty))
  | value k v => exact (k.bits_code o v p).trans (k.bits_code o v q).symm
  | @mini k hk v =>
    obtain ⟨bits, hwire⟩ := hk.exists_miniWire v
    obtain ⟨code, hcode, hbits⟩ := Kind.bits_mini o hwire
    rw [WriteOp.bits, WriteOp.bits, hcode]
    exact (hbits p).trans (hbits q).symm
  | miniBytes => exact Code.checkedBits_steady (fun _ => steady_miniBytes) p q
  | between t w min max outside =>
    rw [WriteOp.bits, WriteOp.bits]
    cases Span.check min max with
    | ok r => exact Code.checkedBits_steady (fun _ => Span.steady_code) p q
    | error f => rfl
  | ranged => exact Code.checkedBits_steady (fun _ => Span.steady_code) p q

end Bitwire
