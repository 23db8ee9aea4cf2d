import Bitwire.Proofs.Twin.Session

/-!
# Streams that are set up differently

A stream is compared with one that has another setup and is the same otherwise. Making room, storing,
reading and moving the positions do not look at the setup, so that most operations do the same to both.

* `Stream.withSetup`: the stream with its setup changed.
* `transparent_setUpBy`, `Blind.coupled_setUpBy`: writes.
* `coupled_make_setUpBy`, `coupled_clone_setUpBy`: new streams and copies.
* `coupled_op_setUpBy`: operations, given what it is with questions and writes.
-/

namespace Bitwire

namespace Stream

/-- The stream with its setup changed. -/
def withSetup (f : Setup → Setup) (s : Stream) : Stream := { s with setup := f s.setup }

section WithSetup

variable {s : Stream} (f : Setup → Setup)

@[simp] theorem storage_withSetup : (s.withSetup f).storage = s.storage := rfl

@[simp] theorem writePos_withSetup : (s.withSetup f).writePos = s.writePos := rfl

@[simp] theorem readPos_withSetup : (s.withSetup f).readPos = s.readPos := rfl

@[simp] theorem capacity_withSetup : (s.withSetup f).capacity = s.capacity := rfl

@[simp] theorem readOnly_withSetup : (s.withSetup f).readOnly = s.readOnly := rfl

@[simp] theorem payload_withSetup : (s.withSetup f).payload = s.payload := rfl

theorem Valid.withSetup (h : s.Valid) : (s.withSetup f).Valid :=
  ⟨h.readPos_le, h.writePos_le, h.size_inline, h.clean⟩

theorem Valid.alike_withSetup (h : s.Valid) : s.Alike (s.withSetup f) :=
  ⟨h, h.withSetup f, rfl, rfl⟩

end WithSetup

/-- The stream of the second run is that of the first one with its setup changed. -/
def SetUpBy (f : Setup → Setup) (b c : Backed) : Prop := c = ⟨b.stream.withSetup f, b.allocator⟩

section SetUpBy

variable {f : Setup → Setup} {b c : Backed} (h : SetUpBy f b c)
include h

/-! ## Writes -/

theorem coupled_reserve_setUpBy (n : Nat) :
    Coupled some Eq (SetUpBy f) (reserve n b) (reserve n c) := by
  subst h
  rw [reserve_eq, reserve_eq]
  refine .ite (fun _ => .error rfl) fun _ => .ite (fun _ => .error rfl) fun _ =>
    .ite (fun _ => .ok rfl rfl) fun hfull => .ite (fun _ => .error rfl) fun _ => ?_
  have hroom := size_le_growTarget (Nat.lt_of_not_le hfull)
  rw [grow_eq hroom, grow_eq (by exact hroom)]
  exact .ite (fun _ => .ok rfl rfl) fun _ => .error rfl

/-- The same is stored in both. -/
theorem setUpBy_advance {store : Buffer → Except Fault Buffer} {buffer buffer' : Buffer}
    (hb : store b.stream.buffer = .ok buffer) (hc : store c.stream.buffer = .ok buffer') (n : Nat) :
    SetUpBy f { b with stream := b.stream.advance buffer n }
      { c with stream := c.stream.advance buffer' n } := by
  subst h
  obtain rfl : buffer = buffer' := Except.ok.inj (hb.symm.trans hc)
  rfl

/-- What does not look at the setup does the same to both. -/
theorem Blind.coupled_setUpBy {checks : Fault → Prop} {α : Type} {x : WriteM α} (hx : Blind checks x) :
    Coupled some Eq (SetUpBy f) (x b) (x c) := by
  induction hx generalizing b c with
  | pure a => exact .ok rfl h
  | throw _ => exact .error rfl
  | reserve n => exact coupled_reserve_setUpBy h n
  | append hstore =>
    exact coupled_append hstore (coupled_reserve_setUpBy h _) (by rintro _ _ rfl; rfl)
      (fun _ => rfl) setUpBy_advance
  | writePos _ ih =>
    subst h
    exact ih _ rfl
  | bind _ _ ihx ihf =>
    refine (ihx h).bind fun a _ b' c' ha h' => ?_
    rw [← ha]
    exact ihf a h'

end SetUpBy

/-- Where stray bits are looked for on both or on neither, every write does the same. -/
theorem transparent_setUpBy {f : Setup → Setup} (hf : ∀ p, (f p).strict = p.strict) :
    Transparent some (SetUpBy f) where
  strict_eq := by
    rintro b _ rfl
    exact hf _
  writePos_eq := by
    rintro b _ rfl
    rfl
  reserve := fun h n => coupled_reserve_setUpBy h n
  store h := setUpBy_advance h

/-! ## New streams and copies -/

theorem coupled_make_setUpBy (f : Setup → Setup) (p : Setup) (origin : Origin) (a : Allocator) :
    Coupled some (fun s t => s.Valid ∧ s.setup = p ∧ t = s.withSetup f) Eq (origin.make p a)
      (origin.make (f p) a) := by
  refine (coupled_make rfl (fun _ => .refl _) origin).imp fun s t a' _ hs _ hst ha => ?_
  obtain ⟨rfl, rfl⟩ := hst
  exact ⟨⟨valid_make hs, rfl, rfl⟩, ha⟩

theorem coupled_clone_setUpBy (f : Setup → Setup) (s : Stream) (a : Allocator) :
    Coupled some (fun s' t' => s' = s ∧ t' = s.withSetup f) Eq (s.clone a)
      ((s.withSetup f).clone a) := by
  have hclone : Coupled some (fun _ _ => True) Eq (s.clone a) ((s.withSetup f).clone a) := by
    cases hs : s.storage with
    | owned =>
      have ht : (s.withSetup f).storage = .owned := hs
      rw [clone_owned hs, clone_owned ht]
      exact Coupled.bind (V := Eq) (R := Eq) (.refl _) fun _ _ _ _ _ ha => .ok trivial ha
    | inline | borrowed =>
      simp only [clone, storage_withSetup, hs]
      exact .ok trivial rfl
  exact hclone.imp fun s' t' _ _ hs ht _ ha => ⟨⟨clone_eq_ok hs, clone_eq_ok ht⟩, ha⟩

/-! ## Operations -/

/-- Positions move in the same way. -/
theorem run_position_withSetup (x : PositionOp) (s : Stream) (f : Setup → Setup) :
    x.perform.run (s.withSetup f) = (x.perform.run s).map fun r => (r.1, r.2.withSetup f) := by
  cases x with
  | reset | resetRead | resetWrite => rfl
  | setReadPos position =>
    change (Stream.setReadPos position).run _ = ((Stream.setReadPos position).run s).map _
    rw [run_setReadPos, run_setReadPos, writePos_withSetup]
    split <;> rfl
  | setWritePos position =>
    change (Stream.setWritePos position).run _ = ((Stream.setWritePos position).run s).map _
    rw [run_setWritePos, run_setWritePos, readOnly_withSetup, readPos_withSetup, capacity_withSetup]
    split
    · rfl
    · split <;> rfl
  | expectEnd =>
    change Stream.expectEnd.run _ = (Stream.expectEnd.run s).map _
    rw [run_expectEnd, run_expectEnd, payload_withSetup]
    split <;> rfl

end Stream

open Bitwire.Stream

/-- An operation does the same to both streams and gives answers that look the same, if questions are
answered in the same way and writes do the same. -/
theorem coupled_op_setUpBy {op : Op} {s : Stream} (hs : s.Valid) (f : Setup → Setup) (a : Allocator)
    (g : Answer → Answer) (hquery : ∀ q, op = .query q → g (s.ask q) = g ((s.withSetup f).ask q))
    (hwrite : ∀ x, op = .write x →
      Coupled some Eq (SetUpBy f) (x.perform ⟨s, a⟩) (x.perform ⟨s.withSetup f, a⟩)) :
    Coupled some (fun v w => g v = g w) (SetUpBy f) (op.perform ⟨s, a⟩)
      (op.perform ⟨s.withSetup f, a⟩) := by
  have hrelated : SetUpBy f ⟨s, a⟩ ⟨s.withSetup f, a⟩ := rfl
  cases op with
  | query q => exact .ok (hquery q rfl) hrelated
  | position x =>
    have hmove : Coupled some Eq (SetUpBy f) (onStream x.perform ⟨s, a⟩)
        (onStream x.perform ⟨s.withSetup f, a⟩) := by
      unfold onStream
      dsimp only
      rw [run_position_withSetup]
      cases x.perform.run s with
      | ok r => exact .ok rfl rfl
      | error f => exact .error rfl
    exact hmove.bind fun _ _ b c _ hbc => .ok rfl hbc
  | read x =>
    refine (coupled_onStream x.reading (hs.alike_withSetup f) a a).imp fun v _ b c _ _ hv hbc => ?_
    obtain ⟨position, -, rfl, rfl⟩ := hbc
    exact ⟨congrArg g hv, rfl⟩
  | reserve n => exact (coupled_reserve_setUpBy hrelated n).bind fun _ _ b c _ hbc => .ok rfl hbc
  | write x =>
    refine (hwrite x rfl).bind fun n _ b c hn hbc => ?_
    exact .ok (by rw [hn]) hbc

end Bitwire
