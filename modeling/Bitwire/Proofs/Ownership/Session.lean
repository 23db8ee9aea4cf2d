import Mathlib.Algebra.BigOperators.Group.Finset.Basic
import Mathlib.Data.Fintype.Basic
import Bitwire.Proofs.Ownership.Pool
import Bitwire.Proofs.Session

/-!
# Buffers of a session

A session is a run of a pool, in which the streams that are still there are those in the slots. So its
buffers are those of the streams in the slots, also after a fault, and none is left when all slots have
been emptied. The books of a pool are kept by `Pool.Exact`; what they say of sessions is the result here.

* `Held`: the streams that a run of a pool leaves.
* `Workspace.streams`: the streams in the slots.
* `held_perform`, `held_steps`: a step, and the steps of a session.
* `live_steps`, `run_balanced`: what is out after some steps, and after a whole session.
-/

namespace Bitwire

open Bitwire.Stream

/-! ## Streams that are left -/

/-- The streams that are still there. -/
def remaining (ms : Multiset Member) : Multiset Stream :=
  (ms.filter fun m => m.alive = true).map Member.stream

/-- Some run of a pool leaves these streams, and the allocator. -/
def Held (a : Allocator) (ss : Multiset Stream) : Prop :=
  ∃ memory ms, Relation.ReflTransGen Pool.Step (Pool.start memory) ⟨a, ms⟩ ∧ remaining ms = ss

section Remaining

variable {m : Member} {ms : Multiset Member} {s : Stream} {ss : Multiset Stream}

theorem remaining_cons_alive (h : m.alive = true) :
    remaining (m ::ₘ ms) = m.stream ::ₘ remaining ms := by
  rw [remaining, Multiset.filter_cons_of_pos ms h, Multiset.map_cons, remaining]

theorem remaining_cons_dropped (h : m.alive = false) : remaining (m ::ₘ ms) = remaining ms := by
  rw [remaining, Multiset.filter_cons_of_neg ms (by simp [h]), remaining]

theorem mem_remaining_iff : s ∈ remaining ms ↔ ∃ m ∈ ms, m.alive = true ∧ m.stream = s := by
  simp only [remaining, Multiset.mem_map, Multiset.mem_filter, and_assoc]

theorem exists_member (h : remaining ms = s ::ₘ ss) :
    ∃ m rest, m.alive = true ∧ m.stream = s ∧ ms = m ::ₘ rest ∧ remaining rest = ss := by
  obtain ⟨m, hm, halive, rfl⟩ := mem_remaining_iff.1 (h ▸ Multiset.mem_cons_self s ss)
  obtain ⟨rest, rfl⟩ := Multiset.exists_cons_of_mem hm
  rw [remaining_cons_alive halive, Multiset.cons_inj_right] at h
  exact ⟨m, rest, halive, rfl, rfl, h⟩

theorem countP_remaining (ms : Multiset Member) :
    (remaining ms).countP (fun s => s.storage = .owned) =
      ms.countP fun m => m.alive = true ∧ m.stream.storage = .owned := by
  rw [remaining, Multiset.countP_map, Multiset.filter_filter, Multiset.countP_eq_card_filter]
  simp only [and_comm]

end Remaining

namespace Held

variable {a a' : Allocator} {s s' t t' : Stream} {ss : Multiset Stream}

theorem create {setup : Setup} {origin : Origin} (h : Held a ss)
    (hmake : origin.make setup a = .ok s a') : Held a' (s ::ₘ ss) := by
  obtain ⟨memory, ms, hrun, rfl⟩ := h
  exact ⟨_, _, hrun.tail (.create hmake), remaining_cons_alive rfl⟩

theorem clone (h : Held a ss) (hs : s ∈ ss) (hclone : s.clone a = .ok s' a') :
    Held a' (s' ::ₘ ss) := by
  obtain ⟨memory, ms, hrun, rfl⟩ := h
  obtain ⟨m, hm, halive, rfl⟩ := mem_remaining_iff.1 hs
  exact ⟨_, _, hrun.tail (.clone hm halive hclone), remaining_cons_alive rfl⟩

theorem act (h : Held a (s ::ₘ ss)) (hacts : Acts ⟨s, a⟩ ⟨s', a'⟩) : Held a' (s' ::ₘ ss) := by
  obtain ⟨memory, ms, hrun, hms⟩ := h
  obtain ⟨m, rest, halive, rfl, rfl, rfl⟩ := exists_member hms
  exact ⟨_, _, hrun.tail (.act halive hacts), remaining_cons_alive halive⟩

theorem transfer {n k : Nat} (h : Held a (s ::ₘ t ::ₘ ss))
    (htransfer : Stream.transfer t n ⟨s, a⟩ = .ok (k, t') ⟨s', a'⟩) :
    Held a' (s' ::ₘ t' ::ₘ ss) := by
  obtain ⟨memory, ms, hrun, hms⟩ := h
  obtain ⟨m, rest, halive, rfl, rfl, hrest⟩ := exists_member hms
  obtain ⟨source, rest, halive', rfl, rfl, rfl⟩ := exists_member hrest
  have hm : (m.become s' a a').alive = true := halive
  have hsource : Member.alive { source with stream := t' } = true := halive'
  refine ⟨_, _, hrun.tail (.transfer halive halive' htransfer), ?_⟩
  rw [remaining_cons_alive hm, remaining_cons_alive hsource]
  rfl

theorem drop (h : Held a (s ::ₘ ss)) (hdrop : s.release a = .ok () a') : Held a' ss := by
  obtain ⟨memory, ms, hrun, hms⟩ := h
  obtain ⟨m, rest, halive, rfl, rfl, rfl⟩ := exists_member hms
  exact ⟨_, _, hrun.tail (.drop halive hdrop), remaining_cons_dropped rfl⟩

/-- The buffers that are out belong to the streams that are left, and there are none once no stream is
left. -/
theorem counted (h : Held a ss) : ∃ c, a.counters? = some c ∧ c.releases ≤ c.allocations ∧
    c.live = ss.countP (fun s => s.storage = .owned) ∧ (ss = 0 → c.allocations = c.releases) := by
  obtain ⟨memory, ms, hrun, rfl⟩ := h
  have hexact := Pool.exact_of_run hrun
  obtain ⟨hle, hlive⟩ := hexact.live
  rw [← countP_remaining] at hlive
  dsimp only at hle hlive
  refine ⟨_, Allocator.counters?_of_shown hexact.shown, hle, hlive, fun hnone => ?_⟩
  rw [hnone, Multiset.countP_zero, Counters.live] at hlive
  omega

end Held

variable {count : Nat}

namespace Workspace

variable {w w' : Workspace count} {slot : Slot count}

/-! ## Streams in the slots -/

/-- What is in a slot. -/
def content : Option Stream → Multiset Stream
  | none => 0
  | some s => {s}

/-- The streams in the slots. -/
def streams (w : Workspace count) : Multiset Stream := ∑ i : Slot count, content (w.stream? i)

theorem streams_congr (h : ∀ i, w.stream? i = w'.stream? i) : w.streams = w'.streams :=
  Finset.sum_congr rfl fun i _ => by rw [h]

@[simp] theorem streams_start (a : Allocator) : (start a : Workspace count).streams = 0 :=
  Finset.sum_eq_zero fun i _ => by rw [stream?_start, content]

theorem streams_of_some {s : Stream} (h : w.stream? slot = some s) :
    w.streams = s ::ₘ (w.put slot none).streams := by
  have hrest : ∀ i ∈ Finset.univ.erase slot, w.stream? i = (w.put slot none).stream? i := by
    intro i hi
    rw [stream?_put, if_neg (Finset.ne_of_mem_erase hi).symm]
  have hempty : (w.put slot none).stream? slot = none := by rw [stream?_put, if_pos rfl]
  calc w.streams
      = content (w.stream? slot) + ∑ i ∈ Finset.univ.erase slot, content (w.stream? i) :=
        (Finset.add_sum_erase _ _ (Finset.mem_univ slot)).symm
    _ = s ::ₘ ∑ i ∈ Finset.univ.erase slot, content ((w.put slot none).stream? i) := by
        rw [h, content, Multiset.singleton_add, Finset.sum_congr rfl fun i hi => by rw [hrest i hi]]
    _ = s ::ₘ (w.put slot none).streams := by
        rw [streams, ← Finset.add_sum_erase _ _ (Finset.mem_univ slot), hempty, content, zero_add]

theorem streams_put_some (w : Workspace count) (slot : Slot count) (s : Stream) :
    (w.put slot (some s)).streams = s ::ₘ (w.put slot none).streams := by
  have h : (w.put slot (some s)).stream? slot = some s := by rw [stream?_put, if_pos rfl]
  rw [streams_of_some h, put_put]

theorem put_none (h : w.stream? slot = none) : (w.put slot none).streams = w.streams := by
  refine streams_congr fun i => ?_
  rw [stream?_put]
  split
  · rename_i heq
    rw [← heq, h]
  · rfl

/-! ## Parts of steps -/

/-- A slot can always be emptied. -/
theorem exists_drop (ss : Multiset Stream) (slot : Slot count) (h : Held w.allocator (ss + w.streams)) :
    ∃ w', drop slot w = .ok () w' ∧ Held w'.allocator (ss + w'.streams) ∧
      ∀ i, w'.stream? i = if slot = i then none else w.stream? i := by
  cases hs : w.stream? slot with
  | none =>
    refine ⟨w, drop_none hs, h, fun i => ?_⟩
    split
    · rename_i heq
      rw [← heq, hs]
    · rfl
  | some s =>
    obtain ⟨a, hrelease⟩ := release_eq_ok s w.allocator
    rw [streams_of_some hs, Multiset.add_cons] at h
    refine ⟨{ w.put slot none with allocator := a }, ?_, h.drop hrelease,
      fun i => stream?_put w slot i none⟩
    rw [drop_some hs]
    exact bind_eq_ok_iff.2 ⟨(), _, askAllocator_eq_ok_iff.2 ⟨a, hrelease, rfl⟩, rfl⟩

/-- A stream can always take the place of what is in a slot. -/
theorem exists_replace {s : Stream} (slot : Slot count) (h : Held w.allocator (s ::ₘ w.streams)) :
    ∃ w', replace slot s w = .ok () w' ∧ Held w'.allocator w'.streams := by
  rw [← Multiset.singleton_add] at h
  obtain ⟨w', hdrop, hheld, hstream⟩ := exists_drop _ slot h
  refine ⟨w'.put slot (some s), bind_eq_ok_iff.2 ⟨(), w', hdrop, rfl⟩, ?_⟩
  rw [streams_put_some, put_none (by rw [hstream, if_pos rfl]), ← Multiset.singleton_add]
  exact hheld

theorem leaves_streamAt_bind {α : Type} {f : Stream → WorkspaceM count α}
    (h : Leaves ((streamAt slot >>= f) w) w') :
    w' = w ∨ ∃ s, w.stream? slot = some s ∧ Leaves (f s w) w' := by
  cases hs : w.stream? slot with
  | none =>
    rw [streamAt_bind_none hs] at h
    cases h
    exact .inl rfl
  | some s =>
    rw [streamAt_bind_some hs] at h
    exact .inr ⟨s, rfl, h⟩

/-- A report changes nothing. -/
theorem leaves_report {answer : Answer} (h : Leaves (report slot answer w) w') : w' = w := by
  rcases leaves_streamAt_bind h with rfl | ⟨s, -, h⟩
  · rfl
  · cases h
    rfl

/-- What is left with a report was left by what the report is about. -/
theorem leaves_of_report {α : Type} {x : WorkspaceM count α} {answer : α → Answer}
    (h : Leaves ((x >>= fun v => report slot (answer v)) w) w') : Leaves (x w) w' := by
  rcases leaves_bind h with ⟨v, w₁, hx, hreport⟩ | ⟨e, hx, hrefusal⟩
  · obtain rfl := leaves_report hreport
    rw [hx]
    exact .ok
  · rw [hx]
    exact .error hrefusal

theorem held_replace {s : Stream} {answer : Answer} (h : Held w.allocator (s ::ₘ w.streams))
    (hleaves : Leaves ((do replace slot s; report slot answer : WorkspaceM count Report) w) w') :
    Held w'.allocator w'.streams := by
  obtain ⟨w₁, hreplace, hheld⟩ := exists_replace slot h
  have hreplaced := leaves_of_report hleaves
  rw [hreplace] at hreplaced
  cases hreplaced
  exact hheld

/-- What is done with the stream in a slot, and leaves it there. -/
theorem held_onSlot {α : Type} {x : WriteM α} (h : Held w.allocator w.streams)
    (hx : ∀ b b', Leaves (x b) b' → Acts b b') (hleaves : Leaves (onSlot slot x w) w') :
    Held w'.allocator w'.streams := by
  cases hs : w.stream? slot with
  | none =>
    rw [onSlot_none hs] at hleaves
    cases hleaves
    exact h
  | some s =>
    have hacts {b : Backed} (hb : Leaves (x ⟨s, w.allocator⟩) b) :
        Held b.allocator (w.put slot (some b.stream)).streams := by
      rw [streams_of_some hs] at h
      rw [streams_put_some]
      exact h.act (hx _ b hb)
    rw [onSlot_some hs] at hleaves
    cases hresult : x ⟨s, w.allocator⟩ with
    | ok v b =>
      rw [hresult] at hleaves
      cases hleaves
      exact hacts (hresult ▸ .ok)
    | error e b =>
      rw [hresult] at hleaves
      cases hleaves with
      | error hrefusal => exact hacts (hresult ▸ .error hrefusal)

/-- What is moved from the stream in one slot to that in another one. -/
theorem held_transfer {source : Slot count} {n k : Nat} {other other' : Stream} (hne : slot ≠ source)
    (h : Held w.allocator w.streams) (hother : w.stream? source = some other)
    (hmove : onSlot slot (Stream.transfer other n) w = .ok (k, other') w') :
    Held w'.allocator (w'.put source (some other')).streams := by
  cases hs : w.stream? slot with
  | none =>
    rw [onSlot_none hs] at hmove
    contradiction
  | some s =>
    have hother' : (w.put slot none).stream? source = some other := by
      rw [stream?_put, if_neg hne, hother]
    rw [streams_of_some hs, streams_of_some hother'] at h
    rw [onSlot_some hs] at hmove
    cases htransfer : Stream.transfer other n ⟨s, w.allocator⟩ with
    | ok r b =>
      rw [htransfer] at hmove
      cases hmove
      change Held _ ((w.put slot (some b.stream)).put source (some other')).streams
      rw [put_comm hne, streams_put_some, put_comm hne.symm, streams_put_some]
      exact h.transfer htransfer
    | error e b =>
      rw [htransfer] at hmove
      contradiction

end Workspace

/-! ## Steps -/

theorem allocate_refused {bytes : Nat} {a a' : Allocator} {e : Fault}
    (h : Allocator.allocate bytes a = .error e a') : e.Refusal := by
  obtain ⟨rfl, -⟩ := allocate_eq_error h
  exact trivial

/-- Only where memory is refused is no stream made. -/
theorem make_refused {setup : Setup} {origin : Origin} {a a' : Allocator} {e : Fault}
    (h : origin.make setup a = .error e a') : e.Refusal := by
  obtain ⟨bytes, halloc⟩ := make_error h
  exact allocate_refused halloc

theorem clone_refused {s : Stream} {a a' : Allocator} {e : Fault} (h : s.clone a = .error e a') :
    e.Refusal := by
  obtain ⟨bytes, halloc⟩ := clone_error h
  exact allocate_refused halloc

/-- Bits are moved between different streams. -/
def Step.Apart : Step count → Prop
  | transfer slot source _ => slot ≠ source
  | _ => True

namespace Workspace

variable {w w' : Workspace count}

/-- A step is a run of a pool, also when it is stopped by a fault. -/
theorem held_perform {step : Step count} (hapart : step.Apart) (h : Held w.allocator w.streams)
    (hleaves : Leaves (step.perform w) w') : Held w'.allocator w'.streams := by
  cases step with
  | create slot setup origin =>
    rcases leaves_bind hleaves with ⟨s, w₁, hask, hleaves⟩ | ⟨e, hask, hrefusal⟩
    · obtain ⟨a, hmake, rfl⟩ := askAllocator_eq_ok_iff.1 hask
      exact held_replace (w := { w with allocator := a }) (h.create hmake) hleaves
    · obtain ⟨a, hmake⟩ := askAllocator_eq_error hask
      exact absurd (make_refused hmake) hrefusal
  | clone slot source =>
    rcases leaves_streamAt_bind hleaves with rfl | ⟨other, hother, hleaves⟩
    · exact h
    · have hmem : other ∈ w.streams := streams_of_some hother ▸ Multiset.mem_cons_self _ _
      rcases leaves_bind hleaves with ⟨s, w₁, hask, hleaves⟩ | ⟨e, hask, hrefusal⟩
      · obtain ⟨a, hclone, rfl⟩ := askAllocator_eq_ok_iff.1 hask
        exact held_replace (w := { w with allocator := a }) (h.clone hmem hclone) hleaves
      · obtain ⟨a, hclone⟩ := askAllocator_eq_error hask
        exact absurd (clone_refused hclone) hrefusal
  | drop slot =>
    obtain ⟨w₁, hdrop, hheld, -⟩ := exists_drop 0 slot (by rwa [zero_add])
    rcases leaves_bind hleaves with ⟨_, w₂, hok, hpure⟩ | ⟨e, herror, -⟩
    · rw [hdrop] at hok
      cases hok
      cases hpure
      rwa [zero_add] at hheld
    · rw [hdrop] at herror
      contradiction
  | counters =>
    cases hleaves
    exact h
  | act slot op =>
    exact held_onSlot h (fun _ _ => .perform op) (leaves_of_report hleaves)
  | transfer slot source bits =>
    rcases leaves_streamAt_bind hleaves with rfl | ⟨other, hother, hleaves⟩
    · exact h
    · rcases leaves_bind hleaves with ⟨⟨n, other'⟩, w₁, hmove, hleaves⟩ | ⟨e, hmove, hrefusal⟩
      · have hmoved := held_transfer hapart h hother hmove
        cases leaves_of_report hleaves
        exact hmoved
      · have hstopped : Leaves (onSlot slot (Stream.transfer other (bits.getD other.payload)) w) w' := by
          rw [hmove]
          exact .error hrefusal
        exact held_onSlot h (fun _ _ => .receive other _) hstopped

/-! ## Sessions -/

/-- The steps of a session are a run of a pool. -/
theorem held_steps (xs : List (Except Fault (Step count))) (hapart : ∀ step, .ok step ∈ xs → step.Apart)
    (hgranted : ∀ e, .error e ∈ (steps xs w).1 → ¬ e.Refusal) (h : Held w.allocator w.streams) :
    Held (steps xs w).2.allocator (steps xs w).2.streams := by
  induction xs generalizing w with
  | nil => exact h
  | cons x xs ih =>
    cases x with
    | error e => exact h
    | ok step =>
      have hstep := hapart step List.mem_cons_self
      have hrest : ∀ step, .ok step ∈ xs → step.Apart :=
        fun step hmem => hapart step (List.mem_cons_of_mem _ hmem)
      unfold steps at hgranted ⊢
      cases hresult : step.perform w with
      | ok r w₁ =>
        rw [hresult] at hgranted
        exact ih hrest (fun e he => hgranted e (List.mem_cons_of_mem _ he))
          (held_perform hstep h (hresult ▸ .ok))
      | error e w₁ =>
        rw [hresult] at hgranted
        have hleaves : Leaves (step.perform w) w₁ :=
          hresult ▸ .error (hgranted e (List.mem_singleton_self _))
        exact held_perform hstep h hleaves

theorem held_start (memory : Memory) :
    Held (start (.counting {} memory) : Workspace count).allocator
      (start (.counting {} memory) : Workspace count).streams := by
  rw [streams_start]
  exact ⟨memory, 0, .refl, rfl⟩

/-- After any steps in which no memory is refused, the buffers that are out are those of the streams in
the slots. -/
theorem live_steps (memory : Memory) (xs : List (Except Fault (Step count)))
    (hapart : ∀ step, .ok step ∈ xs → step.Apart)
    (hgranted : ∀ e, .error e ∈ (steps xs (start (.counting {} memory))).1 → ¬ e.Refusal) :
    ∃ c, (steps xs (start (.counting {} memory))).2.allocator.counters? = some c ∧
      c.live = (steps xs (start (.counting {} memory))).2.streams.countP
        fun s => s.storage = .owned := by
  obtain ⟨c, hc, -, hlive, -⟩ := (held_steps xs hapart hgranted (held_start memory)).counted
  exact ⟨c, hc, hlive⟩

/-- All slots can be emptied. -/
theorem exists_forM_drop (slots : List (Slot count)) (h : Held w.allocator w.streams) :
    ∃ w', slots.forM drop w = .ok () w' ∧ Held w'.allocator w'.streams ∧
      ∀ i, w'.stream? i = if i ∈ slots then none else w.stream? i := by
  induction slots generalizing w with
  | nil => exact ⟨w, rfl, h, fun i => by simp⟩
  | cons slot slots ih =>
    obtain ⟨w₁, hdrop, hheld, hstream⟩ := exists_drop 0 slot (by rwa [zero_add])
    rw [zero_add] at hheld
    obtain ⟨w₂, hdrops, hheld, hstream'⟩ := ih hheld
    refine ⟨w₂, bind_eq_ok_iff.2 ⟨(), w₁, hdrop, hdrops⟩, hheld, fun i => ?_⟩
    rw [hstream', hstream]
    by_cases hi : i ∈ slots
    · simp [hi]
    · simp [hi, eq_comm]

/-- A session in which no memory is refused gives back all that it was handed out. -/
theorem run_balanced (memory : Memory) (xs : List (Except Fault (Step count)))
    (hapart : ∀ step, .ok step ∈ xs → step.Apart)
    (hgranted : ∀ e, .error e ∈ (run (.counting {} memory) xs).1 → ¬ e.Refusal) :
    ∃ c, (run (.counting {} memory) xs).2 = some c ∧ c.allocations = c.releases := by
  obtain ⟨w', hfinish, hheld, hstream⟩ :=
    exists_forM_drop (List.finRange count) (held_steps xs hapart hgranted (held_start memory))
  have hempty : w'.streams = 0 :=
    Finset.sum_eq_zero fun i _ => by rw [hstream, if_pos (List.mem_finRange i), content]
  obtain ⟨c, hc, -, -, hbalanced⟩ := hheld.counted
  refine ⟨c, ?_, hbalanced hempty⟩
  unfold run
  dsimp only
  rw [show finish.run (steps xs (start (.counting {} memory))).2 = .ok () w' from hfinish]
  exact hc

end Workspace

end Bitwire
