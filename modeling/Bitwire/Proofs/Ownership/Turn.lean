import Bitwire.Proofs.Reachable
import Bitwire.Proofs.Writing

/-!
# Turns of a stream

Whatever is done with a stream is a sequence of turns, in each of which at most one request goes to the
allocator. The storage of the stream tells which it can be: a first buffer is asked for when the stream
moves out of itself, and a larger one only in place of a buffer that it owns.

* `Stream.Turn`: a single turn.
* `Stream.Orderly`: an action that is a sequence of turns; `Writing.orderly`, `Op.orderly`: writes and
  operations.
* `Stream.Acts`, `Acts.turns`: what may be done with a stream.
* `Stream.Billed`, `turns_billed`: what turns cost.
-/

namespace Bitwire

namespace Stream

/-- A stream changes where it is, or it moves from inside itself to a buffer that is allocated for it, or
the buffer that it owns is reallocated. -/
inductive Turn : Backed → Backed → Prop
  | change {s s' : Stream} {a : Allocator} : s'.storage = s.storage → Turn ⟨s, a⟩ ⟨s', a⟩
  | promote {s s' : Stream} {a a' : Allocator} {bytes : Nat} {buffer : Buffer} :
      s.storage = .inline → Allocator.allocate bytes a = .ok buffer a' → s'.storage = .owned →
      Turn ⟨s, a⟩ ⟨s', a'⟩
  | enlarge {s s' : Stream} {a a' : Allocator} {bytes : Nat} {buffer : Buffer} :
      s.storage = .owned → Allocator.reallocate s.buffer bytes a = .ok buffer a' →
      s'.storage = .owned → Turn ⟨s, a⟩ ⟨s', a'⟩

/-- What is left by an action that returns, or that is stopped by a fault other than a refused request
for memory. -/
inductive Leaves {σ α : Type} : EStateM.Result Fault σ α → σ → Prop
  | ok {v : α} {s : σ} : Leaves (.ok v s) s
  | error {f : Fault} {s : σ} : ¬ f.Refusal → Leaves (.error f s) s

/-- What a sequence of two actions leaves is left by the first one if that is stopped, and else by the
second one. -/
theorem leaves_bind {σ α β : Type} {x : EStateM Fault σ α} {f : α → EStateM Fault σ β} {s s'' : σ}
    (h : Leaves ((x >>= f) s) s'') :
    (∃ v s', x s = .ok v s' ∧ Leaves (f v s') s'') ∨
      ∃ e, x s = .error e s'' ∧ ¬ e.Refusal := by
  generalize hr : (x >>= f) s = r at h
  cases h with
  | ok =>
    obtain ⟨v, s', hx, hf⟩ := bind_eq_ok_iff.1 hr
    exact .inl ⟨v, s', hx, hf ▸ .ok⟩
  | @error e _ hrefusal =>
    rcases bind_eq_error_iff.1 hr with hx | ⟨v, s', hx, hf⟩
    · exact .inr ⟨e, hx, hrefusal⟩
    · exact .inl ⟨v, s', hx, hf ▸ .error hrefusal⟩

/-- Unless it is refused memory, `x` is a sequence of turns. -/
def Orderly {α : Type} (x : WriteM α) : Prop :=
  ∀ b b', Leaves (x b) b' → Relation.ReflTransGen Turn b b'

/-! ## Actions -/

theorem Orderly.bind {α β : Type} {x : WriteM α} {f : α → WriteM β} (hx : Orderly x)
    (hf : ∀ v, Orderly (f v)) : Orderly (x >>= f) := by
  intro b b'' h
  rcases leaves_bind h with ⟨v, b', hv, h⟩ | ⟨e, he, hrefusal⟩
  · exact (hx b b' (hv ▸ .ok)).trans (hf v b' b'' h)
  · exact hx b b'' (he ▸ .error hrefusal)

theorem orderly_pure {α : Type} (v : α) : Orderly (pure v : WriteM α) := by
  intro b b' h
  cases h
  exact .refl

/-- A stream that is not a view gets a larger buffer in one turn. -/
theorem turn_grown {b : Backed} {bytes : Nat} (hw : b.stream.readOnly = false)
    (h : b.allocator.grants bytes = true) : Turn b (grown b bytes) := by
  unfold grown grownAllocator
  cases hs : b.stream.storage with
  | inline =>
    exact .promote hs (allocate_eq_ok_iff.2 ⟨h, rfl, by simp⟩) rfl
  | owned =>
    exact .enlarge hs (reallocate_eq_ok_iff.2 ⟨h, rfl, by simp⟩) rfl
  | borrowed => simp [readOnly, hs] at hw

theorem orderly_reserve (n : Nat) : Orderly (reserve n) := by
  intro b b' h
  have hall := reserved n b
  generalize reserve n b = r at h hall
  cases hall with
  | fits | stopped =>
    cases h
    exact .refl
  | grown hw _ _ hgranted =>
    cases h
    exact .single (turn_grown hw hgranted)
  | denied =>
    cases h with
    | error hrefusal => exact absurd (refusal_denial _ _) hrefusal

/-- Bits are stored where room was made for them, unless something is against it. -/
theorem orderly_append {n : Nat} {store : Nat → Buffer → Except Fault Buffer}
    {refused : Setup → Option Fault} (hstore : Fits n store) : Orderly (append n store refused) := by
  intro b b' h
  have hroom {b₁ : Backed} (hreserve : reserve n b = .ok () b₁) :
      Relation.ReflTransGen Turn b b₁ :=
    orderly_reserve n b b₁ (hreserve ▸ .ok)
  have hall := appended hstore refused b
  generalize append n store refused b = r at h hall
  cases hall with
  | full hreserve =>
    cases h with
    | error hrefusal => exact orderly_reserve n b b' (hreserve ▸ .error hrefusal)
  | refused hreserve _ =>
    cases h
    exact hroom hreserve
  | done hreserve =>
    cases h
    exact (hroom hreserve).tail (.change rfl)

/-- Writes are sequences of turns, of which only those that make room turn to the allocator. -/
theorem Writing.orderly {α : Type} {x : WriteM α} (hx : Writing x) : Orderly x := by
  induction hx with
  | pure v => exact orderly_pure v
  | throw f =>
    intro b b' h
    cases h
    exact .refl
  | reserve n => exact orderly_reserve n
  | append hstore refused => exact orderly_append hstore
  | @writePos _ f _ ih => exact fun b b' h => ih b.stream.writePos b b' h
  | bind _ _ ihx ihf => exact ihx.bind ihf

/-- What leaves a stream where it is, and does not turn to the allocator, is one turn. -/
theorem orderly_onStream {α : Type} {x : StreamM α}
    (hx : ∀ s v s', x.run s = .ok (v, s') → s'.storage = s.storage) : Orderly (onStream x) := by
  intro b b' h
  unfold onStream at h
  cases hrun : x.run b.stream with
  | ok r =>
    rw [hrun] at h
    cases h
    exact .single (.change (hx _ _ _ hrun))
  | error f =>
    rw [hrun] at h
    cases h
    exact .refl

/-! ## Operations -/

theorem orderly_op (op : Op) : Orderly op.perform := by
  cases op with
  | query x =>
    intro b b' h
    cases h
    exact .refl
  | position x =>
    exact (orderly_onStream fun _ _ _ h => (position_keeps h).1).bind fun _ => orderly_pure _
  | read x => exact orderly_onStream fun _ _ _ h => (read_keeps h).1
  | reserve n => exact (orderly_reserve n).bind fun _ => orderly_pure _
  | write x => exact x.writing.orderly.bind fun _ => orderly_pure _

/-- What may be done with a stream: an operation on it, or a transfer to it. -/
inductive Acts : Backed → Backed → Prop
  | perform {b b' : Backed} (op : Op) : Leaves (op.perform b) b' → Acts b b'
  | receive {b b' : Backed} (source : Stream) (n : Nat) : Leaves (transfer source n b) b' → Acts b b'

/-- Whatever is done with a stream is a sequence of turns. -/
theorem Acts.turns {b b' : Backed} (h : Acts b b') : Relation.ReflTransGen Turn b b' := by
  cases h with
  | perform op h => exact orderly_op op b b' h
  | receive source n h => exact (blind_transfer source n).writing.orderly b b' h

/-! ## What turns cost -/

/-- Number of buffers that a stream owns. -/
def owned (s : Stream) : Nat := if s.storage = .owned then 1 else 0

/-- What an allocator has counted before and after something was done with a stream. An
allocation makes it own a buffer, which it keeps; nothing is reallocated for one that owns none
afterwards, and nothing is given back. -/
structure Billed (s : Stream) (c : Counters) (s' : Stream) (c' : Counters) : Prop where
  allocations : c'.allocations + s.owned = c.allocations + s'.owned
  owned_le : s.owned ≤ s'.owned
  reallocations_le : c.reallocations ≤ c'.reallocations
  reallocations_eq : s'.owned = 0 → c'.reallocations = c.reallocations
  releases : c'.releases = c.releases

theorem Billed.trans {s s' s'' : Stream} {c c' c'' : Counters} (h : Billed s c s' c')
    (h' : Billed s' c' s'' c'') : Billed s c s'' c'' where
  allocations := by have := h.allocations; have := h'.allocations; omega
  owned_le := Nat.le_trans h.owned_le h'.owned_le
  reallocations_le := Nat.le_trans h.reallocations_le h'.reallocations_le
  reallocations_eq h0 :=
    (h'.reallocations_eq h0).trans (h.reallocations_eq (Nat.eq_zero_of_le_zero (h0 ▸ h'.owned_le)))
  releases := h'.releases.trans h.releases

theorem Turn.billed {b b' : Backed} (h : Turn b b') :
    Billed b.stream b.allocator.counters b'.stream b'.allocator.counters ∧
      b'.allocator.shown = b.allocator.shown := by
  cases h with
  | @change s s' a hs =>
    have howned : s'.owned = s.owned := by unfold owned; rw [hs]
    exact ⟨⟨congrArg (a.counters.allocations + ·) howned.symm, Nat.le_of_eq howned.symm,
      Nat.le_refl _, fun _ => rfl, rfl⟩, rfl⟩
  | promote hs halloc hs' =>
    obtain ⟨-, -, rfl⟩ := allocate_eq_ok_iff.1 halloc
    refine ⟨⟨?_, ?_, Nat.le_refl _, fun _ => rfl, rfl⟩, rfl⟩
    · simp [owned, hs, hs', Allocator.tally]
    · simp [owned, hs]
  | enlarge hs hrealloc hs' =>
    obtain ⟨-, -, rfl⟩ := reallocate_eq_ok_iff.1 hrealloc
    refine ⟨⟨?_, ?_, Nat.le_succ _, fun h0 => ?_, rfl⟩, rfl⟩
    · simp [owned, hs, hs', Allocator.tally]
    · simp [owned, hs, hs']
    · simp [owned, hs'] at h0

theorem turns_billed {b b' : Backed} (h : Relation.ReflTransGen Turn b b') :
    Billed b.stream b.allocator.counters b'.stream b'.allocator.counters ∧
      b'.allocator.shown = b.allocator.shown := by
  induction h with
  | refl => exact ⟨⟨rfl, Nat.le_refl _, Nat.le_refl _, fun _ => rfl, rfl⟩, rfl⟩
  | tail _ hturn ih =>
    obtain ⟨hbilled, hshown⟩ := ih
    obtain ⟨hbilled', hshown'⟩ := hturn.billed
    exact ⟨hbilled.trans hbilled', hshown'.trans hshown⟩

end Stream

end Bitwire
