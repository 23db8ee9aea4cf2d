import Bitwire.Proofs.Writing

/-!
# Two runs side by side

To say that something does not show, two runs that differ in it are compared. As long as both
succeed, their answers and states are related; where one fails, the other fails with a fault that
looks the same. A fault that may hit one run alone, such as a refused request for memory, ends the
comparison.

Writes look at little of a stream: they make room, compare positions and store at the write position.
A relation of streams that respects all this is kept by every write.

* `Coupled`: related results; `Coupled.bind`: sequences; `Coupled.trans`: three runs.
* `Transparent`: a relation that making room and storing respect.
* `Stream.Uniform`: an action that keeps every such relation; `Writing.uniform`: every write is one.
-/

namespace Bitwire

/-- Results of two runs. `seen` says what a fault looks like; the comparison ends with a fault that it
gives no look. -/
inductive Coupled {σ τ α β : Type} (seen : Fault → Option Fault) (V : α → β → Prop)
    (R : σ → τ → Prop) : EStateM.Result Fault σ α → EStateM.Result Fault τ β → Prop
  | ok {a : α} {b : β} {s : σ} {t : τ} : V a b → R s t → Coupled seen V R (.ok a s) (.ok b t)
  | error {f g : Fault} {s : σ} {t : τ} : seen f = seen g →
      Coupled seen V R (.error f s) (.error g t)
  | left {f : Fault} {s : σ} {y : EStateM.Result Fault τ β} : seen f = none →
      Coupled seen V R (.error f s) y
  | right {x : EStateM.Result Fault σ α} {g : Fault} {t : τ} : seen g = none →
      Coupled seen V R x (.error g t)

namespace Coupled

variable {σ τ α β γ δ : Type} {seen : Fault → Option Fault} {V : α → β → Prop} {R : σ → τ → Prop}

theorem bind {V' : γ → δ → Prop} {R' : σ → τ → Prop} {x : EStateM Fault σ α}
    {y : EStateM Fault τ β} {f : α → EStateM Fault σ γ} {g : β → EStateM Fault τ δ} {s : σ} {t : τ}
    (h : Coupled seen V R (x s) (y t))
    (hf : ∀ a b s' t', V a b → R s' t' → Coupled seen V' R' (f a s') (g b t')) :
    Coupled seen V' R' ((x >>= f) s) ((y >>= g) t) := by
  change Coupled seen V' R' (EStateM.bind x f s) (EStateM.bind y g t)
  unfold EStateM.bind
  generalize x s = r at h ⊢
  generalize y t = r' at h ⊢
  cases h with
  | ok hv hr => exact hf _ _ _ _ hv hr
  | error hseen => exact .error hseen
  | left hlost => exact .left hlost
  | right hlost => exact .right hlost

theorem ite {x x' : EStateM.Result Fault σ α} {y y' : EStateM.Result Fault τ β} {c : Prop}
    [Decidable c] (h : c → Coupled seen V R x y) (h' : ¬ c → Coupled seen V R x' y') :
    Coupled seen V R (if c then x else x') (if c then y else y') := by
  split
  · exact h ‹_›
  · exact h' ‹_›

theorem refl (x : EStateM.Result Fault σ α) : Coupled seen Eq Eq x x := by
  cases x with
  | ok a s => exact .ok rfl rfl
  | error f s => exact .error rfl

/-- What else is known of two runs that succeed may be used. -/
theorem imp {V' : α → β → Prop} {R' : σ → τ → Prop} {x : EStateM.Result Fault σ α}
    {y : EStateM.Result Fault τ β} (h : Coupled seen V R x y)
    (hok : ∀ a b s t, x = .ok a s → y = .ok b t → V a b → R s t → V' a b ∧ R' s t) :
    Coupled seen V' R' x y := by
  cases h with
  | ok hv hr =>
    obtain ⟨hv', hr'⟩ := hok _ _ _ _ rfl rfl hv hr
    exact .ok hv' hr'
  | error hseen => exact .error hseen
  | left hlost => exact .left hlost
  | right hlost => exact .right hlost

/-- Where every fault is looked at, both runs succeed or both fail in the same way. -/
theorem cases_some {x : EStateM.Result Fault σ α} {y : EStateM.Result Fault τ β}
    (h : Coupled some V R x y) :
    (∃ a b s t, x = .ok a s ∧ y = .ok b t ∧ V a b ∧ R s t) ∨
      ∃ f s t, x = .error f s ∧ y = .error f t := by
  cases h with
  | ok hv hr => exact .inl ⟨_, _, _, _, rfl, rfl, hv, hr⟩
  | error hseen =>
    cases hseen
    exact .inr ⟨_, _, _, rfl, rfl⟩
  | left hlost | right hlost => contradiction

theorem trans {υ : Type} {V' : β → γ → Prop} {R' : τ → υ → Prop} {x : EStateM.Result Fault σ α}
    {y : EStateM.Result Fault τ β} {z : EStateM.Result Fault υ γ} (h : Coupled some V R x y)
    (h' : Coupled some V' R' y z) :
    Coupled some (fun a c => ∃ b, V a b ∧ V' b c) (fun s u => ∃ t, R s t ∧ R' t u) x z := by
  rcases h.cases_some with ⟨a, b, s, t, rfl, rfl, hv, hr⟩ | ⟨f, s, t, rfl, rfl⟩
  · rcases h'.cases_some with ⟨_, c, _, u, ⟨⟩, rfl, hv', hr'⟩ | ⟨f, _, u, hfault, -⟩
    · exact .ok ⟨b, hv, hv'⟩ ⟨t, hr, hr'⟩
    · contradiction
  · rcases h'.cases_some with ⟨_, _, _, _, hok, -⟩ | ⟨_, _, u, ⟨⟩, rfl⟩
    · contradiction
    · exact .error rfl

end Coupled

namespace Stream

/-- A relation of streams with their allocators that respects all that writes look at. -/
structure Transparent (seen : Fault → Option Fault) (R : Backed → Backed → Prop) : Prop where
  strict_eq {b c : Backed} : R b c → c.stream.setup.strict = b.stream.setup.strict
  writePos_eq {b c : Backed} : R b c → c.stream.writePos = b.stream.writePos
  reserve {b c : Backed} : R b c → ∀ n, Coupled seen Eq R (Stream.reserve n b) (Stream.reserve n c)
  store {b c : Backed} : R b c → ∀ {f : Buffer → Except Fault Buffer} {buffer buffer' : Buffer},
    f b.stream.buffer = .ok buffer → f c.stream.buffer = .ok buffer' → ∀ n,
    R { b with stream := b.stream.advance buffer n } { c with stream := c.stream.advance buffer' n }

theorem transparent_eq (seen : Fault → Option Fault) : Transparent seen Eq where
  strict_eq := by
    rintro b _ rfl
    rfl
  writePos_eq := by
    rintro b _ rfl
    rfl
  reserve := by
    rintro b _ rfl n
    exact .refl _
  store := by
    rintro b _ rfl f buffer buffer' h h' n
    rw [h] at h'
    cases h'
    rfl

/-- Bits are stored in both runs where room was made for them, or the setup is against it in both. -/
theorem coupled_append {seen : Fault → Option Fault} {R : Backed → Backed → Prop} {n : Nat}
    {store : Nat → Buffer → Except Fault Buffer} {refused : Setup → Option Fault} {b c : Backed}
    (hstore : Fits n store) (hreserve : Coupled seen Eq R (reserve n b) (reserve n c))
    (hpos : ∀ {b c}, R b c → c.stream.writePos = b.stream.writePos)
    (hrefused : ∀ {b c}, R b c → refused c.stream.setup = refused b.stream.setup)
    (hstored : ∀ {b c}, R b c → ∀ {f : Buffer → Except Fault Buffer} {buffer buffer' : Buffer},
      f b.stream.buffer = .ok buffer → f c.stream.buffer = .ok buffer' → ∀ n,
      R { b with stream := b.stream.advance buffer n } { c with stream := c.stream.advance buffer' n }) :
    Coupled seen Eq R (append n store refused b) (append n store refused c) := by
  have hroom : Coupled seen Eq
      (fun b c => R b c ∧ b.stream.HasRoom n ∧ c.stream.HasRoom n) (reserve n b) (reserve n c) :=
    hreserve.imp fun _ _ _ _ hb hc hv hbc =>
      ⟨hv, hbc, (hasRoom_of_reserve hb).1, (hasRoom_of_reserve hc).1⟩
  refine hroom.bind ?_
  rintro _ _ b c - ⟨hbc, hb, hc⟩
  obtain ⟨buffer, hbuffer, -⟩ := hstore _ _ hb.fits
  obtain ⟨buffer', hbuffer', -⟩ := hstore _ _ hc.fits
  rw [storeChecked_eq, storeChecked_eq, hrefused hbc, hbuffer, hbuffer']
  cases refused b.stream.setup with
  | some f => exact .error rfl
  | none =>
    rw [hpos hbc] at hbuffer'
    exact .ok rfl (hstored hbc hbuffer hbuffer' n)

/-- `x` keeps every transparent relation. -/
def Uniform {α : Type} (x : WriteM α) : Prop :=
  ∀ (seen : Fault → Option Fault) (R : Backed → Backed → Prop), Transparent seen R →
    ∀ b c, R b c → Coupled seen Eq R (x b) (x c)

/-- A write does the same to related streams. The induction follows what the write is made of. -/
theorem Writing.uniform {α : Type} {x : WriteM α} (hx : Writing x) : Uniform x := by
  intro seen R hR b c h
  induction hx generalizing b c with
  | pure a => exact .ok rfl h
  | throw f => exact .error rfl
  | reserve n => exact hR.reserve h n
  | append hstore refused =>
    exact coupled_append hstore (hR.reserve h _) hR.writePos_eq
      (fun hbc => congrArg refused (hR.strict_eq hbc)) hR.store
  | @writePos _ f _ ih =>
    change Coupled seen Eq R (f b.stream.writePos b) (f c.stream.writePos c)
    rw [hR.writePos_eq h]
    exact ih _ b c h
  | bind _ _ ihx ihf =>
    refine (ihx b c h).bind fun a _ b' c' ha h' => ?_
    rw [← ha]
    exact ihf a b' c' h'

end Stream

end Bitwire
