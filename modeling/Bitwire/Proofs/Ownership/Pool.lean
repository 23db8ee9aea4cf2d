import Mathlib.Algebra.BigOperators.Group.Multiset.Basic
import Mathlib.Data.Multiset.Count
import Mathlib.Logic.Relation
import Bitwire.Proofs.Ownership.Turn

/-!
# Who owns the buffers

Streams come and go, all with one counting allocator. A buffer that the allocator handed out belongs to
one stream, from its beginning or from the moment on at which it moves out of itself, and it is given
back when that stream is dropped. So the buffers not given back are those of the streams that own one,
however the life of each stream went.

* `Pool`, `Pool.Step`: streams with one allocator, and what may happen to them.
* `Pool.Exact`: what the allocator has counted, and what it has counted for each stream.
* `ownership_exact`: what holds after any run.
-/

namespace Bitwire

open Bitwire.Stream

/-! ## Runs -/

/-- These calls, and those that the allocator has counted from one moment to another. -/
def Counters.charge (calls : Counters) (a a' : Allocator) : Counters where
  allocations := calls.allocations + (a'.counters.allocations - a.counters.allocations)
  reallocations := calls.reallocations + (a'.counters.reallocations - a.counters.reallocations)
  releases := calls.releases + (a'.counters.releases - a.counters.releases)

/-- A stream, whether it is still there, and how often the allocator was called for it. -/
structure Member where
  stream : Stream
  alive : Bool
  calls : Counters

/-- A new stream. -/
def Member.born (s : Stream) (a a' : Allocator) : Member := ⟨s, true, Counters.charge {} a a'⟩

/-- What has become of a member while the allocator went from one state to another. -/
def Member.become (m : Member) (s : Stream) (a a' : Allocator) : Member :=
  { m with stream := s, calls := m.calls.charge a a' }

/-- Streams that share an allocator, those that were dropped included. -/
structure Pool where
  allocator : Allocator
  members : Multiset Member

namespace Pool

/-- No streams, and nothing counted. -/
def start (memory : Memory) : Pool := ⟨.counting {} memory, 0⟩

/-- A stream is made, or copied from another one; something is done with it; bits are moved to it from
another one; it is dropped. No request for memory is refused. A stream is replaced by making a new one
and then dropping it. -/
inductive Step : Pool → Pool → Prop
  | create {a a' : Allocator} {rest : Multiset Member} {setup : Setup} {origin : Origin} {s : Stream} :
      origin.make setup a = .ok s a' → Step ⟨a, rest⟩ ⟨a', Member.born s a a' ::ₘ rest⟩
  | clone {a a' : Allocator} {rest : Multiset Member} {m : Member} {s : Stream} :
      m ∈ rest → m.alive = true → m.stream.clone a = .ok s a' →
      Step ⟨a, rest⟩ ⟨a', Member.born s a a' ::ₘ rest⟩
  | act {a a' : Allocator} {rest : Multiset Member} {m : Member} {s : Stream} :
      m.alive = true → Acts ⟨m.stream, a⟩ ⟨s, a'⟩ →
      Step ⟨a, m ::ₘ rest⟩ ⟨a', m.become s a a' ::ₘ rest⟩
  | transfer {a a' : Allocator} {rest : Multiset Member} {m source : Member} {n k : Nat}
      {s s' : Stream} :
      m.alive = true → source.alive = true →
      Stream.transfer source.stream n ⟨m.stream, a⟩ = .ok (k, s') ⟨s, a'⟩ →
      Step ⟨a, m ::ₘ source ::ₘ rest⟩
        ⟨a', m.become s a a' ::ₘ { source with stream := s' } ::ₘ rest⟩
  | drop {a a' : Allocator} {rest : Multiset Member} {m : Member} :
      m.alive = true → m.stream.release a = .ok () a' →
      Step ⟨a, m ::ₘ rest⟩ ⟨a', { m.become m.stream a a' with alive := false } ::ₘ rest⟩

end Pool

/-! ## New streams and dropped ones -/

namespace Stream

section Refused

variable {a a' : Allocator} {f : Fault}

theorem withCapacity_error {setup : Setup} {bytes : Nat} (h : withCapacity setup bytes a = .error f a') :
    Allocator.allocate bytes a = .error f a' := by
  unfold withCapacity at h
  split at h
  · contradiction
  · rcases bind_eq_error_iff.1 h with h | ⟨_, _, -, h⟩
    · exact h
    · contradiction

theorem ofBytes_error {setup : Setup} {src : List UInt8} (h : ofBytes setup src a = .error f a') :
    Allocator.allocate src.length a = .error f a' := by
  rw [ofBytes_eq] at h
  rcases bind_eq_error_iff.1 h with h | ⟨_, _, -, h⟩
  · exact withCapacity_error h
  · contradiction

/-- Only where a buffer is refused is no stream made. -/
theorem make_error {setup : Setup} {origin : Origin} (h : origin.make setup a = .error f a') :
    ∃ bytes, Allocator.allocate bytes a = .error f a' := by
  cases origin with
  | empty | view => contradiction
  | withCapacity bytes => exact ⟨_, withCapacity_error h⟩
  | ofBytes src => exact ⟨_, ofBytes_error h⟩
  | wrap src copy =>
    cases copy with
    | true => exact ⟨_, ofBytes_error h⟩
    | false => contradiction

/-- Only where a buffer is refused is no copy made. -/
theorem clone_error {s : Stream} (h : s.clone a = .error f a') :
    ∃ bytes, Allocator.allocate bytes a = .error f a' := by
  cases hs : s.storage with
  | owned =>
    rw [clone_owned hs] at h
    rcases bind_eq_error_iff.1 h with h | ⟨_, _, -, h⟩
    · exact ⟨_, h⟩
    · contradiction
  | inline | borrowed =>
    simp only [clone, hs] at h
    contradiction

end Refused

section Counting

variable {a a' : Allocator} {s s' : Stream}

theorem withCapacity_counted {setup : Setup} {bytes : Nat} (h : withCapacity setup bytes a = .ok s a') :
    a' = a.tally fun c => { c with allocations := c.allocations + s.owned } := by
  unfold withCapacity at h
  by_cases hi : bytes ≤ inlineBytes
  · rw [if_pos hi] at h
    cases h
    rfl
  · rw [if_neg hi] at h
    obtain ⟨buffer, a₁, halloc, h⟩ := bind_eq_ok_iff.1 h
    cases h
    obtain ⟨-, -, rfl⟩ := allocate_eq_ok_iff.1 halloc
    rfl

theorem ofBytes_counted {setup : Setup} {src : List UInt8} (h : ofBytes setup src a = .ok s a') :
    a' = a.tally fun c => { c with allocations := c.allocations + s.owned } := by
  obtain ⟨t, hmade, rfl⟩ := ofBytes_eq_ok h
  have hcounted := withCapacity_counted hmade
  exact hcounted

/-- A new stream costs an allocation if it owns a buffer, and nothing otherwise. -/
theorem make_counted {setup : Setup} {origin : Origin} (h : origin.make setup a = .ok s a') :
    a' = a.tally fun c => { c with allocations := c.allocations + s.owned } := by
  cases origin with
  | empty | view =>
    cases h
    rfl
  | withCapacity bytes => exact withCapacity_counted h
  | ofBytes src => exact ofBytes_counted h
  | wrap src copy =>
    cases copy with
    | true => exact ofBytes_counted h
    | false =>
      cases h
      rfl

/-- A copy costs an allocation if it owns a buffer. -/
theorem clone_counted (h : s.clone a = .ok s' a') :
    a' = a.tally fun c => { c with allocations := c.allocations + s'.owned } := by
  unfold owned
  cases hs : s.storage with
  | owned =>
    rw [clone_owned hs] at h
    obtain ⟨fresh, a₁, halloc, h⟩ := bind_eq_ok_iff.1 h
    obtain ⟨-, -, rfl⟩ := allocate_eq_ok_iff.1 halloc
    obtain ⟨rfl, rfl⟩ := pure_eq_ok_iff.1 h
    rw [if_pos hs]
  | inline | borrowed =>
    simp only [clone, hs] at h
    cases h
    rw [hs]
    rfl

/-- A stream that is dropped gives back the buffer that it owns. -/
theorem release_counted (h : s.release a = .ok () a') :
    a' = a.tally fun c => { c with releases := c.releases + s.owned } := by
  unfold owned
  cases hs : s.storage with
  | owned | inline | borrowed =>
    simp only [release, hs] at h
    cases h
    rfl

end Counting

end Stream

/-! ## The counters -/

/-- The buffer of a stream that is still there. -/
def Member.held (m : Member) : Nat := if m.alive then m.stream.owned else 0

/-- The buffer of a stream that was dropped. -/
def Member.returned (m : Member) : Nat := if m.alive then 0 else m.stream.owned

/-- What was called for a stream: an allocation if it owns a buffer, reallocations only then, and a
release if it owned one when it was dropped. -/
structure Member.Exact (m : Member) : Prop where
  allocations : m.calls.allocations = m.stream.owned
  reallocations : m.stream.owned = 0 → m.calls.reallocations = 0
  releases : m.calls.releases = m.returned

/-- Every buffer that was handed out is held by a stream or was given back by one. -/
structure Pool.Exact (p : Pool) : Prop where
  shown : p.allocator.shown = true
  allocations : p.allocator.counters.allocations =
    (p.members.map Member.held).sum + (p.members.map Member.returned).sum
  releases : p.allocator.counters.releases = (p.members.map Member.returned).sum
  members : ∀ m ∈ p.members, m.Exact

namespace Member

variable {m : Member} {a a' : Allocator}

theorem held_of_alive (h : m.alive = true) : m.held = m.stream.owned := if_pos h

theorem returned_of_alive (h : m.alive = true) : m.returned = 0 := if_pos h

theorem exact_born (s : Stream) (a : Allocator) :
    (born s a (a.tally fun c => { c with allocations := c.allocations + s.owned })).Exact where
  allocations := by
    change 0 + (a.counters.allocations + s.owned - a.counters.allocations) = s.owned
    omega
  reallocations _ := by
    change 0 + (a.counters.reallocations - a.counters.reallocations) = 0
    omega
  releases := by
    change 0 + (a.counters.releases - a.counters.releases) = 0
    omega

theorem Exact.become (h : m.Exact) (halive : m.alive = true) {s : Stream}
    (hb : Billed m.stream a.counters s a'.counters) : (m.become s a a').Exact where
  allocations := by
    change m.calls.allocations + (a'.counters.allocations - a.counters.allocations) = s.owned
    have := hb.allocations
    have := hb.owned_le
    have := h.allocations
    omega
  reallocations h0 := by
    change m.calls.reallocations + (a'.counters.reallocations - a.counters.reallocations) = 0
    have hbefore : m.stream.owned = 0 := Nat.eq_zero_of_le_zero (h0 ▸ hb.owned_le)
    have := h.reallocations hbefore
    have := hb.reallocations_eq h0
    omega
  releases := by
    change m.calls.releases + (a'.counters.releases - a.counters.releases) =
      if m.alive then 0 else s.owned
    have hreturned := h.releases
    have := hb.releases
    rw [returned, if_pos halive] at hreturned
    rw [if_pos halive]
    omega

/-- The release of a stream that is dropped is the only one it has. -/
theorem Exact.dropped (h : m.Exact) (halive : m.alive = true) :
    Exact { m.become m.stream a
      (a.tally fun c => { c with releases := c.releases + m.stream.owned }) with alive := false } where
  allocations := by
    change m.calls.allocations + (a.counters.allocations - a.counters.allocations) = m.stream.owned
    have := h.allocations
    omega
  reallocations h0 := by
    change m.calls.reallocations + (a.counters.reallocations - a.counters.reallocations) = 0
    have := h.reallocations h0
    omega
  releases := by
    change m.calls.releases + (a.counters.releases + m.stream.owned - a.counters.releases) =
      m.stream.owned
    have := h.releases.trans (returned_of_alive halive)
    omega

end Member

namespace Pool

theorem exact_start (memory : Memory) : (start memory).Exact :=
  ⟨rfl, rfl, rfl, fun m h => absurd h (Multiset.notMem_zero m)⟩

section Cons

variable {a a' : Allocator} {m : Member} {rest : Multiset Member}

theorem sum_held_cons (h : m.alive = true) :
    ((m ::ₘ rest).map Member.held).sum = m.stream.owned + (rest.map Member.held).sum := by
  rw [Multiset.map_cons, Multiset.sum_cons, Member.held_of_alive h]

theorem sum_returned_cons (h : m.alive = true) :
    ((m ::ₘ rest).map Member.returned).sum = (rest.map Member.returned).sum := by
  rw [Multiset.map_cons, Multiset.sum_cons, Member.returned_of_alive h, Nat.zero_add]

/-- The books with a stream that is still there. -/
theorem exact_cons_alive (h : m.alive = true) :
    Exact ⟨a, m ::ₘ rest⟩ ↔ a.shown = true ∧
      a.counters.allocations =
        m.stream.owned + ((rest.map Member.held).sum + (rest.map Member.returned).sum) ∧
      a.counters.releases = (rest.map Member.returned).sum ∧ m.Exact ∧ ∀ x ∈ rest, x.Exact := by
  constructor
  · rintro ⟨hshown, halloc, hrelease, hmembers⟩
    dsimp only at halloc hrelease
    rw [sum_held_cons h, sum_returned_cons h, Nat.add_assoc] at halloc
    rw [sum_returned_cons h] at hrelease
    exact ⟨hshown, halloc, hrelease, Multiset.forall_mem_cons.1 hmembers⟩
  · rintro ⟨hshown, halloc, hrelease, hmembers⟩
    refine ⟨hshown, ?_, ?_, Multiset.forall_mem_cons.2 hmembers⟩
    · dsimp only
      rw [sum_held_cons h, sum_returned_cons h, Nat.add_assoc, halloc]
    · dsimp only
      rw [sum_returned_cons h, hrelease]

/-- A new stream enters the books with the allocation it took. -/
theorem Exact.born (h : Exact ⟨a, rest⟩) {s : Stream}
    (ha : a' = a.tally fun c => { c with allocations := c.allocations + s.owned }) :
    Exact ⟨a', Member.born s a a' ::ₘ rest⟩ := by
  subst ha
  have halloc : a.counters.allocations = _ := h.allocations
  dsimp only at halloc
  refine (exact_cons_alive rfl).2 ⟨h.shown, ?_, h.releases, Member.exact_born s a, h.members⟩
  change a.counters.allocations + s.owned = s.owned + _
  omega

/-- What is done with a stream enters the books with what it cost. -/
theorem Exact.become (h : Exact ⟨a, m ::ₘ rest⟩) (halive : m.alive = true) {s : Stream}
    (hacts : Acts ⟨m.stream, a⟩ ⟨s, a'⟩) : Exact ⟨a', m.become s a a' ::ₘ rest⟩ := by
  obtain ⟨hbilled, hshown'⟩ := turns_billed hacts.turns
  obtain ⟨hshown, halloc, hrelease, hm, hrest⟩ := (exact_cons_alive halive).1 h
  have hcost : a'.counters.allocations + m.stream.owned = a.counters.allocations + s.owned :=
    hbilled.allocations
  refine (exact_cons_alive (m := m.become s _ _) halive).2
    ⟨hshown'.trans hshown, ?_, hbilled.releases.trans hrelease, hm.become halive hbilled, hrest⟩
  change a'.counters.allocations = s.owned + _
  omega

/-- A stream from which bits were moved owns what it owned. -/
theorem Exact.sent (h : Exact ⟨a, m ::ₘ rest⟩) (halive : m.alive = true) {s : Stream}
    (hs : s.storage = m.stream.storage) : Exact ⟨a, { m with stream := s } ::ₘ rest⟩ := by
  have howned : s.owned = m.stream.owned := by unfold owned; rw [hs]
  obtain ⟨hshown, halloc, hrelease, hm, hrest⟩ := (exact_cons_alive halive).1 h
  have hreturned : Member.returned { m with stream := s } = 0 := Member.returned_of_alive halive
  have hsent : Member.Exact { m with stream := s } :=
    ⟨hm.allocations.trans howned.symm, fun h0 => hm.reallocations (howned ▸ h0),
      (hm.releases.trans (Member.returned_of_alive halive)).trans hreturned.symm⟩
  rw [← howned] at halloc
  exact (exact_cons_alive (m := { m with stream := s }) halive).2
    ⟨hshown, halloc, hrelease, hsent, hrest⟩

/-- A stream that is dropped leaves the books with the release of its buffer. -/
theorem Exact.drop (h : Exact ⟨a, m ::ₘ rest⟩) (halive : m.alive = true)
    (ha : a' = a.tally fun c => { c with releases := c.releases + m.stream.owned }) :
    Exact ⟨a', { m.become m.stream a a' with alive := false } ::ₘ rest⟩ := by
  subst ha
  obtain ⟨hshown, halloc, hrelease, hm, hrest⟩ := (exact_cons_alive halive).1 h
  have hdropped := hm.dropped halive (a := a)
  refine ⟨hshown, ?_, ?_, Multiset.forall_mem_cons.2 ⟨hdropped, hrest⟩⟩
  · rw [Multiset.map_cons, Multiset.map_cons, Multiset.sum_cons, Multiset.sum_cons]
    change a.counters.allocations = 0 + _ + (m.stream.owned + _)
    omega
  · rw [Multiset.map_cons, Multiset.sum_cons]
    change a.counters.releases + m.stream.owned = m.stream.owned + _
    omega

/-- Every step keeps the books. -/
theorem Exact.step {p p' : Pool} (h : p.Exact) (hstep : Step p p') : p'.Exact := by
  cases hstep with
  | create hmake => exact h.born (make_counted hmake)
  | clone _ _ hclone => exact h.born (clone_counted hclone)
  | act halive hacts => exact h.become halive hacts
  | transfer halive halive' htransfer =>
    have hleaves : Leaves (Stream.transfer _ _ _) _ := htransfer ▸ Leaves.ok
    have h' := h.become halive (.receive _ _ hleaves)
    rw [Multiset.cons_swap] at h' ⊢
    obtain ⟨-, -, rfl, -⟩ := transfer_eq_ok htransfer
    exact h'.sent halive' rfl
  | drop halive hdrop => exact h.drop halive (release_counted hdrop)

end Cons

theorem exact_of_run {memory : Memory} {p : Pool}
    (h : Relation.ReflTransGen Step (start memory) p) : p.Exact := by
  induction h with
  | refl => exact exact_start memory
  | tail _ hstep ih => exact ih.step hstep

end Pool

/-- The buffers that are held belong to the streams that are still there and own one. -/
theorem sum_held (ms : Multiset Member) : (ms.map Member.held).sum =
    ms.countP fun m => m.alive = true ∧ m.stream.storage = .owned := by
  induction ms using Multiset.induction with
  | empty => rfl
  | cons m ms ih =>
    have hone : m.held = if m.alive = true ∧ m.stream.storage = .owned then 1 else 0 := by
      unfold Member.held owned
      cases m.alive <;> simp
    rw [Multiset.map_cons, Multiset.sum_cons, ih, Multiset.countP_cons, hone, Nat.add_comm]

theorem Pool.Exact.live {p : Pool} (h : p.Exact) :
    p.allocator.counters.releases ≤ p.allocator.counters.allocations ∧
      p.allocator.counters.live =
        p.members.countP fun m => m.alive = true ∧ m.stream.storage = .owned := by
  have halloc := h.allocations
  have hrelease := h.releases
  rw [← sum_held]
  unfold Counters.live
  omega

theorem Allocator.counters?_of_shown {a : Allocator} (h : a.shown = true) :
    a.counters? = some a.counters :=
  if_pos h

/-- After any run of steps, whatever memory there is, the number of live buffers is that of the streams
that are still there and own one, and as many buffers were given back as were handed out once all streams
are dropped. For each stream there was one allocation if it owns a buffer and none otherwise, reallocations
only in the first case, and one release if it was dropped and owned a buffer then.

The moments at which the allocator is called are these. Whatever is done with a stream is a sequence of
turns, of which one that allocates takes a stream from inside itself to a buffer of its own, and one that
reallocates finds the stream with such a buffer. A stream that is made or copied costs an allocation if
it owns a buffer, and no other call; one that is dropped costs a release if it owns one, and no other
call. -/
theorem ownership_exact {memory : Memory} {p : Pool}
    (h : Relation.ReflTransGen Pool.Step (Pool.start memory) p) :
    (∃ c, p.allocator.counters? = some c ∧ c.releases ≤ c.allocations ∧
      c.live = p.members.countP (fun m => m.alive = true ∧ m.stream.storage = .owned) ∧
      ((∀ m ∈ p.members, m.alive = false) → c.allocations = c.releases)) ∧
    (∀ m ∈ p.members,
      m.calls.allocations = (if m.stream.storage = .owned then 1 else 0) ∧
      (m.stream.storage ≠ .owned → m.calls.reallocations = 0) ∧
      m.calls.releases = (if m.alive = false ∧ m.stream.storage = .owned then 1 else 0)) ∧
    (∀ b b', Acts b b' → Relation.ReflTransGen Turn b b') ∧
    (∀ (a a' : Allocator) (s : Stream),
      (∃ setup origin, Origin.make setup origin a = .ok s a') ∨
        (∃ t : Stream, t.clone a = .ok s a') →
      a' = a.tally fun c => { c with allocations := c.allocations + s.owned }) ∧
    ∀ (a a' : Allocator) (s : Stream), s.release a = .ok () a' →
      a' = a.tally fun c => { c with releases := c.releases + s.owned } := by
  have hexact := Pool.exact_of_run h
  obtain ⟨hle, hlive⟩ := hexact.live
  refine ⟨⟨_, Allocator.counters?_of_shown hexact.shown, hle, hlive, fun hdropped => ?_⟩,
    fun m hm => ?_, fun _ _ => Acts.turns, ?_, fun _ _ _ => release_counted⟩
  · have hnone : p.members.countP (fun m => m.alive = true ∧ m.stream.storage = .owned) = 0 :=
      Multiset.countP_eq_zero.2 fun m hm hheld => by simp [hdropped m hm] at hheld
    rw [hnone, Counters.live] at hlive
    omega
  · have hmember := hexact.members m hm
    refine ⟨hmember.allocations, fun hne => hmember.reallocations (if_neg hne), ?_⟩
    rw [hmember.releases]
    unfold Member.returned owned
    cases m.alive <;> simp
  · rintro a a' s (⟨setup, origin, hmake⟩ | ⟨t, hclone⟩)
    · exact make_counted hmake
    · exact clone_counted hclone

/-- A stream moves out of itself, is copied, and is dropped while the copy is still there. -/
theorem ownership_exact_copied :
    ∃ p : Pool, Relation.ReflTransGen Pool.Step (Pool.start .ample) p ∧ Multiset.card p.members = 2 ∧
      p.allocator.counters? = some ⟨2, 0, 1⟩ ∧
      p.members.countP (fun m => m.alive = true ∧ m.stream.storage = .owned) = 1 := by
  have hempty : (empty {}).buffer.size = inlineBytes := Buffer.size_zeros _
  obtain ⟨s, hs, hsize, hreserve⟩ : ∃ s : Stream, s.storage = .owned ∧
      s.buffer.size = growTarget 4096 ∧
      reserve 4096 ⟨empty {}, .counting {}⟩ = .ok () ⟨s, .counting ⟨1, 0, 0⟩⟩ := by
    have hfull : ¬ (empty {}).writePos + 4096 ≤ (empty {}).capacity := by
      rw [capacity, hempty]
      decide
    have hroom : (empty {}).buffer.size ≤ growTarget 4096 := by
      rw [hempty]
      decide
    refine ⟨_, rfl, size_grown hroom (.counting {}), reserve_eq_ok_iff.2 ⟨rfl, by decide, ?_⟩⟩
    rw [if_neg hfull]
    exact ⟨by decide, rfl⟩
  have hperform : Op.perform (.reserve 4096) ⟨empty {}, .counting {}⟩ =
      .ok .none ⟨s, .counting ⟨1, 0, 0⟩⟩ := bind_eq_ok_iff.2 ⟨_, _, hreserve, rfl⟩
  have hclone : s.clone (.counting ⟨1, 0, 0⟩) = .ok s (.counting ⟨2, 0, 0⟩) := by
    have halloc : Allocator.allocate s.buffer.size (.counting ⟨1, 0, 0⟩) =
        .ok (.zeros s.buffer.size) (.counting ⟨2, 0, 0⟩) :=
      allocate_eq_ok_iff.2 ⟨by rw [hsize]; decide, rfl, rfl⟩
    rw [clone_owned hs]
    exact bind_eq_ok_iff.2 ⟨_, _, halloc, rfl⟩
  have hmake : Origin.empty.make {} (.counting {}) = .ok (empty {}) (.counting {}) := rfl
  have hrelease : s.release (.counting ⟨2, 0, 0⟩) = .ok () (.counting ⟨2, 0, 1⟩) := by
    simp only [release, hs]
    rfl
  let m₀ : Member := .born (empty {}) (.counting {}) (.counting {})
  let m₁ : Member := m₀.become s (.counting {}) (.counting ⟨1, 0, 0⟩)
  let m₂ : Member := .born s (.counting ⟨1, 0, 0⟩) (.counting ⟨2, 0, 0⟩)
  have h₀ : Pool.Step (.start .ample) ⟨.counting {}, m₀ ::ₘ 0⟩ := .create hmake
  have h₁ : Pool.Step ⟨.counting {}, m₀ ::ₘ 0⟩ ⟨.counting ⟨1, 0, 0⟩, m₁ ::ₘ 0⟩ :=
    .act rfl (.perform (.reserve 4096) (hperform ▸ .ok))
  have h₂ : Pool.Step ⟨.counting ⟨1, 0, 0⟩, m₁ ::ₘ 0⟩ ⟨.counting ⟨2, 0, 0⟩, m₁ ::ₘ m₂ ::ₘ 0⟩ :=
    Multiset.cons_swap m₂ m₁ 0 ▸ .clone (Multiset.mem_cons_self m₁ 0) rfl hclone
  have hrun := (((Relation.ReflTransGen.single h₀).tail h₁).tail h₂).tail (.drop rfl hrelease)
  obtain ⟨⟨c, hc, -, hlive, -⟩, -, -⟩ := ownership_exact hrun
  cases hc
  exact ⟨_, hrun, rfl, rfl, hlive.symm⟩

end Bitwire
