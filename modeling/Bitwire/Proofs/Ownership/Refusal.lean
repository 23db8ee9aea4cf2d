import Bitwire.Proofs.Operations
import Bitwire.Proofs.Ownership.Session

/-!
# What a fault leaves behind

A fault can stop a constructor, a copy, an operation or a transfer. The streams that are left still own
what they owned, or a buffer that they got before they were stopped, and give it back when they are
dropped. One fault is different: a request for a new buffer is counted before it is refused, so that the
counters tell of a buffer that nobody was ever given. A refused request for a larger buffer is counted,
too, but leaves the old one with its stream.

* `Stream.Charged`, `governs_charged`: what is counted for a stream until it is stopped.
* `Pool.Stop`, `Pool.Drop`: a step that is stopped, and the end of a stream.
* `Pool.Balanced`: the books, with buffers that nobody has.
* `live_after_fault`: what is left when all streams have been dropped.
-/

namespace Bitwire

open Bitwire.Stream

namespace Stream

/-! ## What is counted for a stream -/

/-- Number of buffers that were counted but that nobody has. -/
def lost : Option Fault → Nat
  | some (.cannotAllocate _) => 1
  | _ => 0

theorem lost_eq_zero_iff {f : Fault} : lost (some f) = 0 ↔ ∀ bytes, f ≠ .cannotAllocate bytes := by
  unfold lost
  split
  · rename_i bytes heq
    cases heq
    exact ⟨nofun, fun h => absurd rfl (h bytes)⟩
  · rename_i hne
    exact ⟨fun _ bytes heq => hne bytes (congrArg some heq), fun _ => rfl⟩

theorem lost_of_not_refusal {f : Fault} (h : ¬ f.Refusal) : lost (some f) = 0 := by
  refine lost_eq_zero_iff.2 fun bytes heq => ?_
  rw [heq] at h
  exact h trivial

/-- What an allocator counts while something is done with a stream, until that returns or is stopped by a
fault: nothing is given back, and each allocation is a buffer that the stream owns afterwards, or one that
is lost. -/
structure Charged (b : Backed) (f : Option Fault) (b' : Backed) : Prop where
  shown : b'.allocator.shown = b.allocator.shown
  releases : b'.allocator.counters.releases = b.allocator.counters.releases
  allocations : b'.allocator.counters.allocations + b.stream.owned =
    b.allocator.counters.allocations + b'.stream.owned + lost f

theorem charged_of_storage {b b' : Backed} {f : Option Fault} (ha : b'.allocator = b.allocator)
    (hs : b'.stream.storage = b.stream.storage) (hf : lost f = 0) : Charged b f b' := by
  have howned : b'.stream.owned = b.stream.owned := by unfold owned; rw [hs]
  exact ⟨by rw [ha], by rw [ha], by rw [ha, howned, hf, Nat.add_zero]⟩

theorem shown_grownAllocator (s : Stream) (a : Allocator) : (s.grownAllocator a).shown = a.shown := rfl

theorem releases_grownAllocator (s : Stream) (a : Allocator) :
    (s.grownAllocator a).counters.releases = a.counters.releases := by
  unfold grownAllocator Allocator.tally
  dsimp only
  split <;> rfl

/-- A request for another buffer makes the stream own one; a request for a larger one changes nothing
about that. -/
theorem charged_grown (b : Backed) (bytes : Nat) : Charged b none (grown b bytes) where
  shown := shown_grownAllocator _ _
  releases := releases_grownAllocator _ _
  allocations := by
    unfold grown grownAllocator Allocator.tally owned lost
    by_cases hs : b.stream.storage = .owned
    · simp [hs]
    · simp [hs]

/-- A buffer that is refused is lost, unless the stream keeps the one that it has. -/
theorem charged_denied (b : Backed) (bytes : Nat) :
    Charged b (some (b.stream.denial bytes)) (denied b) where
  shown := shown_grownAllocator _ _
  releases := releases_grownAllocator _ _
  allocations := by
    unfold denied grownAllocator Allocator.tally owned lost denial
    by_cases hs : b.stream.storage = .owned
    · simp [hs]
    · simp [hs]

theorem governs_charged : Governs (fun _ => True) Charged where
  done _ := charged_of_storage rfl rfl rfl
  stopped _ _ hf := charged_of_storage rfl rfl (lost_of_not_refusal hf)
  grown b m _ _ _ _ := charged_grown b (growTarget m)
  denied b m _ _ _ := charged_denied b (growTarget m)
  stored _ _ _ _ _ := charged_of_storage rfl rfl rfl
  trans h h' :=
    { shown := h'.shown.trans h.shown
      releases := h'.releases.trans h.releases
      allocations := by
        have hfirst := h.allocations
        have hsecond := h'.allocations
        have hnone : lost none = 0 := rfl
        omega }

/-- What may be stopped by a fault: an operation on a stream, or a transfer to it. -/
inductive Stopped (f : Fault) (b b' : Backed) : Prop
  | perform (op : Op) : op.perform b = .error f b' → Stopped f b b'
  | receive (source : Stream) (n : Nat) : transfer source n b = .error f b' → Stopped f b b'

theorem Stopped.charged {f : Fault} {b b' : Backed} (h : Stopped f b b') : Charged b (some f) b' := by
  cases h with
  | perform op h =>
    obtain ⟨requests, hasks⟩ := op.exists_asks b
    have hcharged := governs_charged.op (fun _ _ hstorage _ => charged_of_storage rfl hstorage rfl)
      hasks fun _ _ => trivial
    rwa [h] at hcharged
  | receive source n h =>
    obtain ⟨requests, hasks, -, -⟩ := takes_transfer source n b
    have hcharged := governs_charged.asks hasks fun _ _ => trivial
    rwa [h] at hcharged

end Stream

/-! ## Pools -/

namespace Pool

/-- A constructor, a copy, an operation or a transfer is stopped by a fault. What was done before it stays;
the source of a transfer may have been read in part. -/
inductive Stop (f : Fault) : Pool → Pool → Prop
  | create {a a' : Allocator} {rest : Multiset Member} {setup : Setup} {origin : Origin} :
      origin.make setup a = .error f a' → Stop f ⟨a, rest⟩ ⟨a', rest⟩
  | clone {a a' : Allocator} {rest : Multiset Member} {m : Member} :
      m ∈ rest → m.alive = true → m.stream.clone a = .error f a' → Stop f ⟨a, rest⟩ ⟨a', rest⟩
  | act {a a' : Allocator} {rest : Multiset Member} {m : Member} {s : Stream} :
      m.alive = true → Stopped f ⟨m.stream, a⟩ ⟨s, a'⟩ →
      Stop f ⟨a, m ::ₘ rest⟩ ⟨a', m.become s a a' ::ₘ rest⟩
  | transfer {a a' : Allocator} {rest : Multiset Member} {m source : Member} {n position : Nat}
      {s : Stream} :
      m.alive = true → source.alive = true →
      Stream.transfer source.stream n ⟨m.stream, a⟩ = .error f ⟨s, a'⟩ →
      Stop f ⟨a, m ::ₘ source ::ₘ rest⟩
        ⟨a', m.become s a a' ::ₘ
          { source with stream := { source.stream with readPos := position } } ::ₘ rest⟩

/-- A stream is dropped. -/
inductive Drop : Pool → Pool → Prop
  | drop {a a' : Allocator} {rest : Multiset Member} {m : Member} :
      m.alive = true → m.stream.release a = .ok () a' →
      Drop ⟨a, m ::ₘ rest⟩ ⟨a', { m.become m.stream a a' with alive := false } ::ₘ rest⟩

/-- Every buffer that was counted is held by a stream, or was given back by one, or is one of those that
nobody has. -/
structure Balanced (p : Pool) (missing : Nat) : Prop where
  shown : p.allocator.shown = true
  allocations : p.allocator.counters.allocations =
    (p.members.map Member.held).sum + (p.members.map Member.returned).sum + missing
  releases : p.allocator.counters.releases = (p.members.map Member.returned).sum

theorem Exact.balanced {p : Pool} (h : p.Exact) : p.Balanced 0 :=
  ⟨h.shown, h.allocations, h.releases⟩

section Cons

variable {a a' : Allocator} {m : Member} {rest : Multiset Member} {missing : Nat}

/-- The books with a stream that is still there. -/
theorem balanced_cons_alive (h : m.alive = true) :
    Balanced ⟨a, m ::ₘ rest⟩ missing ↔ a.shown = true ∧
      a.counters.allocations = m.stream.owned +
        ((rest.map Member.held).sum + (rest.map Member.returned).sum + missing) ∧
      a.counters.releases = (rest.map Member.returned).sum := by
  constructor
  · rintro ⟨hshown, halloc, hrelease⟩
    dsimp only at halloc hrelease
    rw [sum_held_cons h, sum_returned_cons h] at halloc
    rw [sum_returned_cons h] at hrelease
    exact ⟨hshown, by omega, hrelease⟩
  · rintro ⟨hshown, halloc, hrelease⟩
    refine ⟨hshown, ?_, ?_⟩
    · dsimp only
      rw [sum_held_cons h, sum_returned_cons h]
      omega
    · dsimp only
      rw [sum_returned_cons h, hrelease]

/-- A refused buffer is one that nobody has. -/
theorem Balanced.refuse {bytes : Nat} {f : Fault} (h : Balanced ⟨a, rest⟩ 0)
    (halloc : Allocator.allocate bytes a = .error f a') : Balanced ⟨a', rest⟩ (lost (some f)) := by
  obtain ⟨rfl, rfl⟩ := allocate_eq_error halloc
  exact ⟨h.shown, congrArg (· + 1) h.allocations, h.releases⟩

theorem Balanced.act {s : Stream} {f : Fault} (h : Balanced ⟨a, m ::ₘ rest⟩ 0)
    (halive : m.alive = true) (hcharged : Charged ⟨m.stream, a⟩ (some f) ⟨s, a'⟩) :
    Balanced ⟨a', m.become s a a' ::ₘ rest⟩ (lost (some f)) := by
  obtain ⟨hshown, hsum, hrelease⟩ := (balanced_cons_alive halive).1 h
  have hcost := hcharged.allocations
  dsimp only at hcost
  refine (balanced_cons_alive (m := m.become s a a') halive).2
    ⟨hcharged.shown.trans hshown, ?_, hcharged.releases.trans hrelease⟩
  change a'.counters.allocations = s.owned + _
  omega

/-- A stream from which bits were moved owns what it owned. -/
theorem Balanced.sent {s : Stream} (h : Balanced ⟨a, m ::ₘ rest⟩ missing) (halive : m.alive = true)
    (hs : s.storage = m.stream.storage) :
    Balanced ⟨a, { m with stream := s } ::ₘ rest⟩ missing := by
  have howned : s.owned = m.stream.owned := by unfold owned; rw [hs]
  obtain ⟨hshown, hsum, hrelease⟩ := (balanced_cons_alive halive).1 h
  rw [← howned] at hsum
  exact (balanced_cons_alive (m := { m with stream := s }) halive).2 ⟨hshown, hsum, hrelease⟩

/-- Whatever is stopped, all buffers are accounted for, but for one that was refused. -/
theorem Balanced.stop {p p' : Pool} {f : Fault} (h : p.Balanced 0) (hstop : Stop f p p') :
    p'.Balanced (lost (some f)) := by
  cases hstop with
  | create hmake =>
    obtain ⟨bytes, halloc⟩ := make_error hmake
    exact h.refuse halloc
  | clone _ _ hclone =>
    obtain ⟨bytes, halloc⟩ := clone_error hclone
    exact h.refuse halloc
  | act halive hstopped => exact h.act halive hstopped.charged
  | transfer halive halive' htransfer =>
    have h' := h.act halive (Stopped.receive _ _ htransfer).charged
    rw [Multiset.cons_swap] at h' ⊢
    exact h'.sent halive' rfl

/-- A stream that is dropped gives back what it owns. -/
theorem Balanced.drop {p p' : Pool} (h : p.Balanced missing) (hdrop : Drop p p') :
    p'.Balanced missing := by
  cases hdrop with
  | @drop a _ _ m halive hrelease =>
    obtain ⟨hshown, hsum, hgiven⟩ := (balanced_cons_alive halive).1 h
    obtain rfl := release_counted hrelease
    refine ⟨hshown, ?_, ?_⟩
    · rw [Multiset.map_cons, Multiset.map_cons, Multiset.sum_cons, Multiset.sum_cons]
      change a.counters.allocations = 0 + _ + (m.stream.owned + _) + _
      omega
    · rw [Multiset.map_cons, Multiset.sum_cons]
      change a.counters.releases + m.stream.owned = m.stream.owned + _
      omega

end Cons

theorem Balanced.drops {p p' : Pool} {missing : Nat} (h : p.Balanced missing)
    (hdrops : Relation.ReflTransGen Drop p p') : p'.Balanced missing := by
  induction hdrops with
  | refl => exact h
  | tail _ hdrop ih => exact ih.drop hdrop

/-- All streams can be dropped. -/
theorem exists_drops (p : Pool) :
    ∃ p', Relation.ReflTransGen Drop p p' ∧ ∀ m ∈ p'.members, m.alive = false := by
  -- by induction on the number of streams that are still there
  obtain ⟨n, hn⟩ : ∃ n, p.members.countP (fun m => m.alive = true) = n := ⟨_, rfl⟩
  induction n generalizing p with
  | zero => exact ⟨p, .refl, fun m hm => eq_false_of_ne_true (Multiset.countP_eq_zero.1 hn m hm)⟩
  | succ n ih =>
    have hpos : 0 < p.members.countP (fun m => m.alive = true) := by omega
    obtain ⟨m, hm, halive⟩ := Multiset.countP_pos.1 hpos
    obtain ⟨rest, hrest⟩ := Multiset.exists_cons_of_mem hm
    obtain ⟨a, ms⟩ := p
    dsimp only at hrest hn
    subst hrest
    obtain ⟨a', hrelease⟩ := release_eq_ok m.stream a
    rw [Multiset.countP_cons, if_pos halive] at hn
    obtain ⟨p', hdrops, hall⟩ :=
      ih ⟨a', { m.become m.stream a a' with alive := false } ::ₘ rest⟩ <| by
        rw [Multiset.countP_cons, if_neg Bool.false_ne_true]
        omega
    exact ⟨p', .head (.drop halive hrelease) hdrops, hall⟩

/-- Streams that were dropped hold nothing. -/
theorem Balanced.live {p : Pool} {missing : Nat} (h : p.Balanced missing)
    (hall : ∀ m ∈ p.members, m.alive = false) :
    p.allocator.counters.releases ≤ p.allocator.counters.allocations ∧
      p.allocator.counters.live = missing := by
  have hheld : (p.members.map Member.held).sum = 0 := by
    rw [sum_held, Multiset.countP_eq_zero]
    exact fun m hm hm' => Bool.false_ne_true ((hall m hm).symm.trans hm'.1)
  have hsum := h.allocations
  have hgiven := h.releases
  unfold Counters.live
  omega

end Pool

/-- Whatever stops a run of streams with one counting allocator, and whichever request the memory refuses,
all streams that are left can be dropped. After that the counters tell of no live buffer, unless what
stopped the run was a refused request for a new buffer: then they tell of one, though all that were handed
out have been given back. -/
theorem live_after_fault {memory : Memory} {p p' : Pool} {f : Fault}
    (hrun : Relation.ReflTransGen Pool.Step (Pool.start memory) p) (hstop : Pool.Stop f p p') :
    (∃ p'', Relation.ReflTransGen Pool.Drop p' p'' ∧ ∀ m ∈ p''.members, m.alive = false) ∧
    ∀ p'', Relation.ReflTransGen Pool.Drop p' p'' → (∀ m ∈ p''.members, m.alive = false) →
      ∃ c, p''.allocator.counters? = some c ∧ c.releases ≤ c.allocations ∧
        (c.live = 0 ↔ ∀ bytes, f ≠ .cannotAllocate bytes) ∧
        ∀ bytes, f = .cannotAllocate bytes → c.live = 1 := by
  have hstopped := (Pool.exact_of_run hrun).balanced.stop hstop
  refine ⟨Pool.exists_drops p', fun p'' hdrops hall => ?_⟩
  have hbalanced := hstopped.drops hdrops
  obtain ⟨hle, hlive⟩ := hbalanced.live hall
  refine ⟨_, Allocator.counters?_of_shown hbalanced.shown, hle, ?_, ?_⟩
  · rw [hlive]
    exact lost_eq_zero_iff
  · rintro bytes rfl
    exact hlive

/-- A stream with a buffer of its own is read past its end, and dropped. -/
theorem live_after_fault_read :
    ∃ p p' p'' : Pool, Relation.ReflTransGen Pool.Step (Pool.start .ample) p ∧ Pool.Stop .endOfStream p p' ∧
      Relation.ReflTransGen Pool.Drop p' p'' ∧ (∀ m ∈ p''.members, m.alive = false) ∧
      p''.allocator.counters? = some ⟨1, 0, 1⟩ ∧ Counters.live ⟨1, 0, 1⟩ = 0 := by
  let s : Stream := ⟨{}, .owned, .zeros 300, 0, 0⟩
  let m : Member := .born s (.counting {}) (.counting ⟨1, 0, 0⟩)
  let m₁ : Member := m.become s (.counting ⟨1, 0, 0⟩) (.counting ⟨1, 0, 0⟩)
  let m₂ : Member := { m₁.become s (.counting ⟨1, 0, 0⟩) (.counting ⟨1, 0, 1⟩) with alive := false }
  have hmake : (Origin.withCapacity 300).make {} (.counting {}) = .ok s (.counting ⟨1, 0, 0⟩) := rfl
  have hread : Op.perform (.read .bit) ⟨s, .counting ⟨1, 0, 0⟩⟩ =
      .error .endOfStream ⟨s, .counting ⟨1, 0, 0⟩⟩ := rfl
  have hrelease : s.release (.counting ⟨1, 0, 0⟩) = .ok () (.counting ⟨1, 0, 1⟩) := rfl
  have hrun : Relation.ReflTransGen Pool.Step (Pool.start .ample) ⟨.counting ⟨1, 0, 0⟩, m ::ₘ 0⟩ :=
    .single (.create hmake)
  have hstop : Pool.Stop .endOfStream ⟨.counting ⟨1, 0, 0⟩, m ::ₘ 0⟩
      ⟨.counting ⟨1, 0, 0⟩, m₁ ::ₘ 0⟩ := .act rfl (.perform _ hread)
  have hdrop : Relation.ReflTransGen Pool.Drop ⟨.counting ⟨1, 0, 0⟩, m₁ ::ₘ 0⟩
      ⟨.counting ⟨1, 0, 1⟩, m₂ ::ₘ 0⟩ := .single (.drop rfl hrelease)
  have hall : ∀ x ∈ m₂ ::ₘ 0, x.alive = false :=
    Multiset.forall_mem_cons.2 ⟨rfl, fun x hx => absurd hx (Multiset.notMem_zero x)⟩
  obtain ⟨-, hlive⟩ := live_after_fault hrun hstop
  obtain ⟨c, hc, -, hzero, -⟩ := hlive _ hdrop hall
  cases hc
  exact ⟨_, _, _, hrun, hstop, hdrop, hall, rfl, hzero.2 nofun⟩

/-- A buffer of 2⁶³ bytes is refused. No stream was ever made, and one buffer is live. -/
theorem live_after_refused_buffer :
    Workspace.run (.counting {}) [.ok (.create .first {} (.withCapacity (2 ^ 63)))] =
      ([.error (.cannotAllocate (2 ^ 63))], some ⟨1, 0, 0⟩) ∧ Counters.live ⟨1, 0, 0⟩ ≠ 0 :=
  ⟨rfl, by decide⟩

/-- Memory for a single buffer is not enough to copy a stream that owns it. What was handed out is given
back, and still one buffer is live. -/
example :
    let single : Memory :=
      ⟨fun requests bytes => requests = 0 ∧ bytes < Memory.limit, fun h => (of_decide_eq_true h).2⟩
    let copied : List (Except Fault Step) :=
      [.ok (.create .first {} (.withCapacity 300)), .ok (.clone .first .first)]
    (Workspace.run (.counting {} single) copied).2 = some ⟨2, 0, 1⟩ ∧ Counters.live ⟨2, 0, 1⟩ = 1 := by
  decide +kernel

end Bitwire
