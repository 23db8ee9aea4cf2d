import Bitwire.Proofs.Reachable

/-!
# Sessions

The steps of a session bring about reachable streams only: what holds of every reachable stream holds
of the stream in each slot, after any steps without a fault. So the results about reachable streams, which
say nothing of slots, are results about sessions, and every workspace that a session comes to is one from
which two sessions can be compared.

* `Workspace.Sound`: there are only reachable streams in the slots.
* `Sound.perform`: a step that succeeds keeps a workspace sound.
* `sound_steps`: a session without a fault goes from empty slots to reachable streams.
-/

namespace Bitwire

open Bitwire.Stream

/-- The first slot. -/
def Slot.first : Slot := ⟨0, Nat.zero_lt_succ 7⟩

variable {count : Nat}

namespace Workspace

/-- All streams in the slots are reachable. -/
def Sound (w : Workspace count) : Prop := ∀ s, some s ∈ w.slots → Reachable s

theorem sound_start (allocator : Allocator) : (start allocator : Workspace count).Sound := by
  intro s h
  obtain ⟨-, h⟩ := Vector.mem_replicate.1 h
  contradiction

/-! ## Slots -/

/-- The stream in a slot, if there is one. -/
def stream? (w : Workspace count) (slot : Slot count) : Option Stream := w.slots.get slot

theorem mem_of_stream? {w : Workspace count} {slot : Slot count} {s : Stream}
    (h : w.stream? slot = some s) :
    some s ∈ w.slots := by
  rw [← h]
  exact Vector.getElem_mem slot.isLt

@[simp] theorem stream?_start (allocator : Allocator) (slot : Slot count) :
    (start allocator).stream? slot = none := by
  change (Vector.replicate count none)[slot] = none
  simp

theorem stream?_put (w : Workspace count) (slot i : Slot count) (s : Option Stream) :
    (w.put slot s).stream? i = if slot = i then s else w.stream? i := by
  change (w.slots.set slot s)[i] = if slot = i then s else w.slots[i]
  simp only [Fin.getElem_fin, Vector.getElem_set, Fin.ext_iff]

section Slots

variable {w : Workspace count} {slot : Slot count}

theorem get_bind {α : Type} (f : Workspace count → WorkspaceM count α) : (get >>= f) w = f w w := rfl

theorem streamAt_none (h : w.stream? slot = none) : streamAt slot w = .error (.emptySlot slot) w := by
  have hslot : w.slots[slot] = none := h
  rw [streamAt, get_bind, hslot]
  rfl

theorem streamAt_some {s : Stream} (h : w.stream? slot = some s) : streamAt slot w = .ok s w := by
  have hslot : w.slots[slot] = some s := h
  rw [streamAt, get_bind, hslot]
  rfl

theorem streamAt_bind_none {α : Type} {f : Stream → WorkspaceM count α} (h : w.stream? slot = none) :
    (streamAt slot >>= f) w = .error (.emptySlot slot) w :=
  bind_eq_error_iff.2 (.inl (streamAt_none h))

theorem streamAt_bind_some {α : Type} {f : Stream → WorkspaceM count α} {s : Stream}
    (h : w.stream? slot = some s) : (streamAt slot >>= f) w = f s w := by
  change EStateM.bind (streamAt slot) f w = _
  unfold EStateM.bind
  rw [streamAt_some h]

theorem put_put (s t : Option Stream) : (w.put slot s).put slot t = w.put slot t := by
  unfold put
  rw [Vector.set_set]

theorem put_comm {i : Slot count} (h : slot ≠ i) (s t : Option Stream) :
    (w.put slot s).put i t = (w.put i t).put slot s := by
  unfold put
  rw [Vector.set_comm _ _ (Fin.val_ne_of_ne h)]

theorem onSlot_none {α : Type} {x : WriteM α} (h : w.stream? slot = none) :
    onSlot slot x w = .error (.emptySlot slot) w :=
  streamAt_bind_none h

theorem onSlot_some {α : Type} {x : WriteM α} {s : Stream} (h : w.stream? slot = some s) :
    onSlot slot x w = match x ⟨s, w.allocator⟩ with
      | .ok a b => .ok a { w.put slot (some b.stream) with allocator := b.allocator }
      | .error f b => .error f { w.put slot (some b.stream) with allocator := b.allocator } := by
  refine (streamAt_bind_some h).trans ?_
  dsimp only
  simp only [put_put]
  rfl

theorem drop_none (h : w.stream? slot = none) : drop slot w = .ok () w := by
  have hslot : w.slots[slot] = none := h
  rw [drop, get_bind, hslot]
  rfl

theorem drop_some {s : Stream} (h : w.stream? slot = some s) :
    drop slot w = (do askAllocator s.release; modify (·.put slot none) : WorkspaceM count Unit) w := by
  have hslot : w.slots[slot] = some s := h
  rw [drop, get_bind, hslot]

end Slots

/-! ## Parts of steps -/

theorem streamAt_eq_ok {slot : Slot count} {s : Stream} {w w' : Workspace count}
    (h : streamAt slot w = .ok s w') : some s ∈ w.slots ∧ w' = w := by
  cases hs : w.stream? slot with
  | none =>
    rw [streamAt_none hs] at h
    contradiction
  | some t =>
    rw [streamAt_some hs] at h
    cases h
    exact ⟨mem_of_stream? hs, rfl⟩

theorem askAllocator_eq_ok_iff {α : Type} {x : AllocM α} {v : α} {w w' : Workspace count} :
    askAllocator x w = .ok v w' ↔
      ∃ a, x w.allocator = .ok v a ∧ w' = { w with allocator := a } := by
  unfold askAllocator
  cases x w.allocator with
  | ok v' a =>
    constructor
    · rintro ⟨⟩
      exact ⟨a, rfl, rfl⟩
    · rintro ⟨_, ⟨⟩, rfl⟩
      rfl
  | error f a => simp

theorem askAllocator_eq_error {α : Type} {x : AllocM α} {e : Fault} {w w' : Workspace count}
    (h : askAllocator x w = .error e w') : ∃ a, x w.allocator = .error e a := by
  unfold askAllocator at h
  cases hx : x w.allocator with
  | ok v a =>
    rw [hx] at h
    contradiction
  | error f a =>
    rw [hx] at h
    cases h
    exact ⟨a, rfl⟩

/-- What succeeds on the stream in a slot leaves another one there. -/
theorem onSlot_eq_ok {α : Type} {slot : Slot count} {x : WriteM α} {v : α} {w w' : Workspace count}
    (h : onSlot slot x w = .ok v w') :
    ∃ s b, some s ∈ w.slots ∧ x ⟨s, w.allocator⟩ = .ok v b ∧
      w'.slots = (w.put slot (some b.stream)).slots := by
  cases hs : w.stream? slot with
  | none =>
    rw [onSlot_none hs] at h
    contradiction
  | some s =>
    rw [onSlot_some hs] at h
    cases hx : x ⟨s, w.allocator⟩ with
    | ok a b =>
      rw [hx] at h
      cases h
      exact ⟨s, b, mem_of_stream? hs, hx, rfl⟩
    | error f b =>
      rw [hx] at h
      contradiction

namespace Sound

variable {w w' : Workspace count}

theorem of_slots_eq (hw : w.Sound) (h : w'.slots = w.slots) : w'.Sound := by
  unfold Sound
  rw [h]
  exact hw

theorem put (hw : w.Sound) (slot : Slot count) {s : Option Stream} (hs : ∀ t ∈ s, t.Reachable) :
    (w.put slot s).Sound := by
  intro t h
  have h : some t ∈ w.slots.set slot s slot.isLt := h
  rcases Vector.mem_or_eq_of_mem_set h with h | rfl
  · exact hw t h
  · exact hs t rfl

theorem drop {v : Unit} (hw : w.Sound) {slot : Slot count} (h : Workspace.drop slot w = .ok v w') :
    w'.Sound := by
  cases hs : w.stream? slot with
  | none =>
    rw [drop_none hs] at h
    cases h
    exact hw
  | some s =>
    rw [drop_some hs] at h
    obtain ⟨_, w₁, hrelease, h⟩ := bind_eq_ok_iff.1 h
    obtain ⟨a, -, rfl⟩ := askAllocator_eq_ok_iff.1 hrelease
    cases h
    have hasked : Sound { w with allocator := a } := hw
    exact hasked.put slot fun t ht => absurd ht (Option.not_mem_none t)

theorem replace {v : Unit} (hw : w.Sound) {slot : Slot count} {s : Stream} (hs : s.Reachable)
    (h : Workspace.replace slot s w = .ok v w') : w'.Sound := by
  obtain ⟨_, w₁, hdrop, h⟩ := bind_eq_ok_iff.1 h
  cases h
  exact (hw.drop hdrop).put slot fun t ht => Option.some.inj ht ▸ hs

theorem report {r : Report} (hw : w.Sound) {slot : Slot count} {answer : Answer}
    (h : Workspace.report slot answer w = .ok r w') : w'.Sound := by
  obtain ⟨s, w₁, hat, hpure⟩ := bind_eq_ok_iff.1 h
  obtain ⟨-, rfl⟩ := streamAt_eq_ok hat
  obtain ⟨-, rfl⟩ := pure_eq_ok_iff.1 hpure
  exact hw

/-! ## Steps -/

/-- A step that succeeds leaves reachable streams in the slots. -/
theorem perform {step : Step count} {r : Report} (hw : w.Sound) (h : step.perform w = .ok r w') :
    w'.Sound := by
  cases step with
  | create slot setup origin =>
    obtain ⟨s, w₁, hask, hrest⟩ := bind_eq_ok_iff.1 h
    obtain ⟨_, w₂, hreplace, hreport⟩ := bind_eq_ok_iff.1 hrest
    obtain ⟨a, hmake, rfl⟩ := askAllocator_eq_ok_iff.1 hask
    have hasked : Sound { w with allocator := a } := hw
    exact (hasked.replace (.made setup origin hmake) hreplace).report hreport
  | clone slot source =>
    obtain ⟨s, w₁, hat, hrest⟩ := bind_eq_ok_iff.1 h
    obtain ⟨s', w₂, hask, hrest⟩ := bind_eq_ok_iff.1 hrest
    obtain ⟨_, w₃, hreplace, hreport⟩ := bind_eq_ok_iff.1 hrest
    obtain ⟨hs, rfl⟩ := streamAt_eq_ok hat
    obtain ⟨a, hclone, rfl⟩ := askAllocator_eq_ok_iff.1 hask
    have hasked : Sound { w₁ with allocator := a } := hw
    exact (hasked.replace (.cloned (hw s hs) hclone) hreplace).report hreport
  | drop slot =>
    obtain ⟨_, w₁, hdrop, hpure⟩ := bind_eq_ok_iff.1 h
    obtain ⟨-, rfl⟩ := pure_eq_ok_iff.1 hpure
    exact hw.drop hdrop
  | counters =>
    cases h
    exact hw
  | act slot op =>
    obtain ⟨answer, w₁, hact, hreport⟩ := bind_eq_ok_iff.1 h
    obtain ⟨s, b, hs, hop, hslots⟩ := onSlot_eq_ok hact
    have hput := hw.put slot fun t ht => Option.some.inj ht ▸ (hw s hs).next (.perform hop)
    exact (hput.of_slots_eq hslots).report hreport
  | transfer slot source bits =>
    obtain ⟨other, w₁, hat, hrest⟩ := bind_eq_ok_iff.1 h
    obtain ⟨⟨n, other'⟩, w₂, hmove, hrest⟩ := bind_eq_ok_iff.1 hrest
    obtain ⟨_, w₃, hback, hreport⟩ := bind_eq_ok_iff.1 hrest
    obtain ⟨hother, rfl⟩ := streamAt_eq_ok hat
    obtain ⟨s, b, hs, htransfer, hslots⟩ := onSlot_eq_ok hmove
    cases hback
    have hput := hw.put slot fun t ht =>
      Option.some.inj ht ▸ (hw s hs).next (.receive htransfer)
    exact ((hput.of_slots_eq hslots).put source fun t ht =>
      Option.some.inj ht ▸ (hw other hother).next (.send htransfer)).report hreport

end Sound

theorem Sound.steps {w : Workspace count} (hw : w.Sound) (xs : List (Except Fault (Step count)))
    (h : ∀ r ∈ (steps xs w).1, ∃ report, r = .ok report) : (steps xs w).2.Sound := by
  induction xs generalizing w with
  | nil => exact hw
  | cons x xs ih =>
    cases x with
    | error f =>
      obtain ⟨_, hf⟩ := h (.error f) (List.mem_singleton_self _)
      contradiction
    | ok step =>
      unfold Workspace.steps at h ⊢
      cases hstep : step.perform w with
      | ok r w₁ =>
        rw [hstep] at h
        exact ih (hw.perform hstep) fun r hr => h r (List.mem_cons_of_mem _ hr)
      | error f w₁ =>
        rw [hstep] at h
        obtain ⟨_, hf⟩ := h (.error f) (List.mem_singleton_self _)
        contradiction

/-- After a session without a fault, there are only reachable streams in the slots. -/
theorem sound_steps (allocator : Allocator) (xs : List (Except Fault (Step count)))
    (h : ∀ r ∈ (steps xs (start allocator)).1, ∃ report, r = .ok report) :
    (steps xs (start allocator)).2.Sound :=
  (sound_start allocator).steps xs h

end Workspace

end Bitwire
