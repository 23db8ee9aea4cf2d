import Bitwire.Proofs.Operations
import Bitwire.Proofs.Ownership.Turn
import Bitwire.Proofs.Reserve

/-!
# How a buffer grows

A buffer that is too small for what is requested gets twice the bits, or beyond 2²³ bits so many more. So
what is requested when a buffer grows is more than twice as much as the last time, or more by 2²³ bits,
however the positions were moved in between. Both the number of requests to the allocator and the size of
the buffer are bounded by the largest number of bits that room was ever requested for.

* `Paced`: how the requested numbers of bits rise with the number of calls.
* `Stream.Grown`: the size of a buffer, and what it has cost.
* `Stream.Lone`: the life of a stream, with its requests.
* `growth_amortized`: the bounds, after any run.
-/

namespace Bitwire

open Bitwire.Stream

/-! ## The pace of growth -/

/-- The `k`th buffer was requested for `m` bits. Up to 2²³ bits each request is for more than twice as
many bits as the one before, and from then on for more than 2²³ bits more. -/
structure Paced (k m : Nat) : Prop where
  doubled : m ≤ 2 ^ 23 → 2 ^ (k + 10) < m
  stepped : 2 ^ 23 < m → k ≤ 12 + m / 2 ^ 23

namespace Paced

/-- The first buffer is requested for more bits than there are inside a stream. -/
theorem first {m : Nat} (h : 8 * inlineBytes < m) : Paced 1 m where
  doubled _ := h
  stepped _ := by omega

theorem doubled_le {k m : Nat} (h : Paced k m) (hm : m ≤ 2 ^ 23) : k ≤ 12 := by
  refine Nat.le_of_not_lt fun hk => ?_
  have hpow : 2 ^ 23 ≤ 2 ^ (k + 10) := Nat.pow_le_pow_right (by omega) (by omega)
  have := h.doubled hm
  omega

theorem le {k m : Nat} (h : Paced k m) : k ≤ 12 + m / 2 ^ 23 := by
  by_cases hm : m ≤ 2 ^ 23
  · exact Nat.le_trans (h.doubled_le hm) (Nat.le_add_right _ _)
  · exact h.stepped (Nat.lt_of_not_le hm)

/-- A buffer is requested once the last one is too small. -/
theorem next {k m m' : Nat} (h : Paced k m) (hm : 8 * growTarget m < m') : Paced (k + 1) m' := by
  unfold growTarget growBits growthStep bytesFor at hm
  split at hm
  · -- beyond the threshold the requests rise by steps
    have := h.stepped (by omega)
    exact ⟨fun _ => by omega, fun _ => by omega⟩
  · rename_i hle
    refine ⟨fun _ => ?_, fun _ => ?_⟩
    · have := h.doubled (by omega)
      rw [Nat.add_right_comm, Nat.pow_succ]
      omega
    · have := h.doubled_le (by omega)
      omega

end Paced

theorem Allocator.counters?_tally (a : Allocator) (f : Counters → Counters) :
    (a.tally f).counters? = a.counters?.map f := by
  unfold Allocator.counters? Allocator.tally
  dsimp only
  split <;> rfl

namespace Stream

/-! ## Buffers -/

/-- Where and how large the buffer of a stream is, and what it has cost, if room was never requested for
more than `most` bits. -/
inductive Grown (most : Nat) (b : Backed) : Prop
  | inside : b.stream.storage = .inline → b.stream.buffer.size = inlineBytes →
      b.allocator.counters? = some {} → Grown most b
  | outside {m : Nat} {c : Counters} : b.stream.storage = .owned →
      b.stream.buffer.size = growTarget m → m ≤ most → b.allocator.counters? = some c →
      Paced c.requests m → Grown most b

namespace Grown

variable {most : Nat} {b b' : Backed}

theorem of_undisturbed (h : Grown most b) (h' : Undisturbed b b') : Grown most b' := by
  cases h with
  | inside hs hsize hc =>
    exact .inside (h'.storage.trans hs) (h'.size.trans hsize)
      (h'.allocator.symm ▸ hc)
  | outside hs hsize hm hc hpaced =>
    exact .outside (h'.storage.trans hs) (h'.size.trans hsize) hm
      (h'.allocator.symm ▸ hc) hpaced

/-- A buffer that is too small for `m` bits is exchanged for a larger one. -/
theorem grow (h : Grown most b) {m : Nat} (hm : m ≤ most) (hfull : b.stream.capacity < m) :
    Grown most (grown b (growTarget m)) := by
  have hsize := size_le_growTarget hfull
  unfold capacity at hfull
  cases h with
  | inside hs hinside hc =>
    refine .outside (c := { allocations := 1 }) rfl (size_grown hsize b.allocator) hm ?_
      (.first (hinside ▸ hfull))
    unfold grown grownAllocator
    rw [Allocator.counters?_tally, hc, hs]
    rfl
  | @outside _ c hs houtside _ hc hpaced =>
    refine .outside (c := { c with reallocations := c.reallocations + 1 }) rfl
      (size_grown hsize b.allocator) hm ?_ (hpaced.next (houtside ▸ hfull))
    unfold grown grownAllocator
    rw [Allocator.counters?_tally, hc, hs]
    rfl

/-- The bounds on the cost and on the size. -/
theorem bounds (h : Grown most b) :
    (∃ c, b.allocator.counters? = some c ∧ c.allocations + c.reallocations ≤ 12 + most / 2 ^ 23) ∧
      (most ≤ 2 ^ 23 → b.stream.capacity ≤ 8 * bytesFor (max 2048 (2 * most))) ∧
      (2 ^ 23 < most → b.stream.capacity ≤ 8 * bytesFor (most + 2 ^ 23)) := by
  unfold capacity bytesFor
  cases h with
  | inside _ hsize hc =>
    rw [hsize, inlineBytes]
    exact ⟨⟨_, hc, Nat.zero_le _⟩, fun _ => by omega, fun _ => by omega⟩
  | @outside m c _ hsize hm hc hpaced =>
    have hcost : c.requests ≤ 12 + m / 2 ^ 23 := hpaced.le
    have hmono : m / 2 ^ 23 ≤ most / 2 ^ 23 := Nat.div_le_div_right hm
    rw [hsize]
    unfold growTarget growBits growthStep bytesFor
    refine ⟨⟨c, hc, Nat.le_trans hcost (Nat.add_le_add_left hmono 12)⟩, fun _ => ?_, fun _ => ?_⟩
    · split <;> omega
    · split <;> omega

end Grown

/-- Requests for at most so many bits keep the bounds, and storing does not touch them. -/
theorem governs_grown (most : Nat) : Governs (· ≤ most)
    fun b f b' => (∀ e, f = some e → ¬ e.Refusal) → Grown most b → Grown most b' where
  done _ _ h := h
  stopped _ _ _ _ h := h
  grown _ _ hm _ hfull _ _ h := h.grow hm hfull
  denied _ _ _ _ _ hgranted := absurd (refusal_denial _ _) (hgranted _ rfl)
  stored _ _ _ _ hsize _ h := h.of_undisturbed ⟨rfl, rfl, hsize⟩
  trans h h' hgranted hgrown := h' hgranted (h nofun hgrown)

/-! ## Runs -/

/-- The life of a stream that is made empty with an allocator of its own, on any machine, and the
positions up to which room was requested in it: operations, transfers to it and transfers from it, as
long as no request for memory is refused. -/
inductive Lone : Backed → List Nat → Prop
  | made (setup : Setup) (memory : Memory) : Lone ⟨empty setup, .counting {} memory⟩ []
  | perform {b b' : Backed} {op : Op} {requests more : List Nat} :
      Lone b requests → op.Asks b more → Leaves (op.perform b) b' → Lone b' (requests ++ more)
  | receive {b b' : Backed} {source : Stream} {n : Nat} {requests more : List Nat} :
      Lone b requests → Asks (transfer source n) b more → Leaves (transfer source n b) b' →
      Lone b' (requests ++ more)
  | send {b other other' : Backed} {s : Stream} {n k : Nat} {requests : List Nat} :
      Lone b requests → transfer b.stream n other = .ok (k, s) other' →
      Lone { b with stream := s } requests

theorem Leaves.eq_left {σ α : Type} {r : EStateM.Result Fault σ α} {s : σ} (h : Leaves r s) :
    s = left r ∧ ∀ e, fault? r = some e → ¬ e.Refusal := by
  cases h with
  | ok => exact ⟨rfl, nofun⟩
  | error hf =>
    refine ⟨rfl, ?_⟩
    rintro _ ⟨⟩
    exact hf

/-- What requests room for `most` bits at most keeps the bounds. -/
theorem Grown.asks {most : Nat} {b b' : Backed} {α : Type} {x : WriteM α} {requests : List Nat}
    (h : Grown most b) (hasks : Asks x b requests) (hmost : ∀ r ∈ requests, r ≤ most)
    (hleaves : Leaves (x b) b') : Grown most b' := by
  obtain ⟨rfl, hgranted⟩ := hleaves.eq_left
  exact (governs_grown most).asks hasks hmost hgranted h

theorem Grown.perform {most : Nat} {b b' : Backed} {op : Op} {requests : List Nat} (h : Grown most b)
    (hasks : op.Asks b requests) (hmost : ∀ r ∈ requests, r ≤ most)
    (hleaves : Leaves (op.perform b) b') : Grown most b' := by
  obtain ⟨rfl, hgranted⟩ := hleaves.eq_left
  exact (governs_grown most).op (fun _ _ hstorage hsize _ h => h.of_undisturbed ⟨rfl, hstorage, hsize⟩)
    hasks hmost hgranted h

/-- The bounds hold from the beginning, and every step keeps them. -/
theorem Lone.grown {b : Backed} {requests : List Nat} (h : Lone b requests) {most : Nat}
    (hmost : ∀ r ∈ requests, r ≤ most) : Grown most b := by
  induction h with
  | made => exact .inside rfl (Buffer.size_zeros _) rfl
  | perform _ hasks hleaves ih =>
    obtain ⟨hbefore, hmore⟩ := List.forall_mem_append.1 hmost
    exact (ih hbefore).perform hasks hmore hleaves
  | receive _ hasks hleaves ih =>
    obtain ⟨hbefore, hmore⟩ := List.forall_mem_append.1 hmost
    exact (ih hbefore).asks hasks hmore hleaves
  | send _ hsend ih =>
    obtain ⟨-, -, rfl, -⟩ := transfer_eq_ok hsend
    exact (ih hmost).of_undisturbed ⟨rfl, rfl, rfl⟩

/-- If room was never requested for more than `most` bits, then the allocator was called for a buffer 12
times at most, and once more for each 2²³ of these bits, and the buffer has at most twice as many bits or,
beyond 2²³ bits, so many more, rounded up to whole bytes; it always has the 2048 bits of the buffer inside
a stream. This is so after any run, whatever its writes, and wherever the positions were moved. A run can go
on with each operation and each transfer that is not refused memory. -/
theorem growth_amortized {b : Backed} {requests : List Nat} (h : Lone b requests) {most : Nat}
    (hmost : ∀ r ∈ requests, r ≤ most) :
    (∃ c, b.allocator.counters? = some c ∧ c.allocations + c.reallocations ≤ 12 + most / 2 ^ 23) ∧
    (most ≤ 2 ^ 23 → b.stream.capacity ≤ 8 * bytesFor (max 2048 (2 * most))) ∧
    (2 ^ 23 < most → b.stream.capacity ≤ 8 * bytesFor (most + 2 ^ 23)) ∧
    (∀ (op : Op) (b' : Backed), Leaves (op.perform b) b' →
      ∃ more, op.Asks b more ∧ Lone b' (requests ++ more)) ∧
    ∀ (source : Stream) (n : Nat) (b' : Backed), Leaves (transfer source n b) b' →
      ∃ more, Asks (transfer source n) b more ∧ Lone b' (requests ++ more) := by
  obtain ⟨hcost, hdouble, hstep⟩ := (h.grown hmost).bounds
  refine ⟨hcost, hdouble, hstep, fun op b' hleaves => ?_, fun source n b' hleaves => ?_⟩
  · obtain ⟨more, hasks⟩ := op.exists_asks b
    exact ⟨more, hasks, h.perform hasks hleaves⟩
  · obtain ⟨more, hasks, -⟩ := takes_transfer source n b
    exact ⟨more, hasks, h.receive hasks hleaves⟩

/-- Room for 4096 bits, requested in a new stream. -/
theorem growth_amortized_reserved :
    ∃ b, reserve 4096 ⟨empty {}, .counting {}⟩ = .ok () b ∧ Lone b [4096] ∧
      (∃ c, b.allocator.counters? = some c ∧ c.allocations + c.reallocations ≤ 12) ∧
      b.stream.capacity ≤ 8192 := by
  have hroom : (empty {}).Grants (.counting {}) 4096 := ⟨rfl, by decide, .inr (by decide)⟩
  obtain ⟨b, hreserve⟩ := grants_iff.1 hroom
  have hperform : Op.perform (.reserve 4096) ⟨empty {}, .counting {}⟩ = .ok .none b :=
    bind_eq_ok_iff.2 ⟨(), b, hreserve, rfl⟩
  have hrun : Lone b [4096] := .perform (.made {} .ample) (.reserve 4096) (hperform ▸ .ok)
  have hmost : ∀ r ∈ [4096], r ≤ 4096 := fun r hr => Nat.le_of_eq (List.mem_singleton.1 hr)
  obtain ⟨hcost, hdouble, -⟩ := growth_amortized hrun hmost
  exact ⟨b, hreserve, hrun, hcost, hdouble (by omega)⟩

end Stream

end Bitwire
