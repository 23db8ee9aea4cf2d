import Mathlib.Algebra.Group.Nat.Defs
import Bitwire.Proofs.Reachable
import Bitwire.Proofs.Requests

/-!
# Room made in advance

Room that was made for some bits is there for all writes that append no more of them, whatever they are:
none of them turns to the allocator. Making room shows in nothing but the capacity.

* `Append`, `Append.performAll`: writing operations and transfers, one after the other.
* `Stream.Undisturbed`: neither the allocator nor the buffer was touched, but for the bits in it.
* `takes_performAll`: appends request room for their bits only.
* `reserve_sufficient`: what making room does, and what it is good for.
-/

namespace Bitwire

open Bitwire.Stream

/-- Something that appends to a stream: a writing operation, or a transfer from another stream. -/
inductive Append
  | write (op : WriteOp)
  | transfer (source : Stream) (n : Nat)

namespace Append

/-- Number of bits that are appended at a position of a stream with a host order. -/
def size (o : ByteOrder) (position : Nat) : Append → Nat
  | write op => (op.bits o position).length
  | transfer _ n => n

/-- Does it, and forgets what it answers. -/
def perform : Append → WriteM Unit
  | write op => do
    let _ ← op.perform
    pure ()
  | transfer source n => do
    let _ ← Stream.transfer source n
    pure ()

/-- Does one after the other. -/
def performAll : List Append → WriteM Unit
  | [] => pure ()
  | w :: ws => do
    w.perform
    performAll ws

/-- Number of bits that all of them append. -/
def totalSize (o : ByteOrder) (position : Nat) : List Append → Nat
  | [] => 0
  | w :: ws => w.size o position + totalSize o (position + w.size o position) ws

theorem takes_perform (w : Append) (b : Backed) :
    Takes w.perform b (w.size b.stream.setup.order b.stream.writePos) := by
  cases w with
  | write op => exact (op.takes b).bind fun _ b' _ _ _ => takes_pure () b'
  | transfer source n => exact (takes_transfer source n b).bind fun _ b' _ _ _ => takes_pure () b'

/-- Appends in a row request room for their bits, and for no others. -/
theorem takes_performAll (ws : List Append) (b : Backed) :
    Takes (performAll ws) b (totalSize b.stream.setup.order b.stream.writePos ws) := by
  induction ws generalizing b with
  | nil => exact takes_pure () b
  | cons w ws ih =>
    exact (w.takes_perform b).bind fun _ b' _ hpos hsetup => hpos ▸ hsetup ▸ ih b'

end Append

namespace Stream

/-- The allocator was not called, and the buffer is where it was, with the size that it had. -/
structure Undisturbed (b b' : Backed) : Prop where
  allocator : b'.allocator = b.allocator
  storage : b'.stream.storage = b.stream.storage
  size : b'.stream.buffer.size = b.stream.buffer.size

theorem Undisturbed.refl (b : Backed) : Undisturbed b b := ⟨rfl, rfl, rfl⟩

theorem Undisturbed.trans {b b' b'' : Backed} (h : Undisturbed b b') (h' : Undisturbed b' b'') :
    Undisturbed b b'' where
  allocator := h'.allocator.trans h.allocator
  storage := h'.storage.trans h.storage
  size := h'.size.trans h.size

/-- Requests within the capacity disturb nothing. -/
theorem governs_undisturbed (capacity : Nat) : Governs (· ≤ capacity)
    fun b _ b' => b.stream.capacity = capacity → Undisturbed b b' where
  done b _ := .refl b
  stopped b _ _ _ := .refl b
  grown _ _ hP _ hfull _ hcapacity := absurd hP (Nat.not_le.2 (hcapacity ▸ hfull))
  denied _ _ hP _ hfull hcapacity := absurd hP (Nat.not_le.2 (hcapacity ▸ hfull))
  stored _ _ _ _ hsize _ := ⟨rfl, rfl, hsize⟩
  trans h h' hcapacity := by
    have hfirst := h hcapacity
    refine hfirst.trans (h' ?_)
    rw [Stream.capacity, hfirst.size]
    exact hcapacity

/-- What takes no more bits than there is room for disturbs nothing, whether it returns or not. -/
theorem Takes.undisturbed {α : Type} {x : WriteM α} {b : Backed} {n : Nat} (h : Takes x b n)
    (hroom : b.stream.writePos + n ≤ b.stream.capacity) : Undisturbed b (left (x b)) := by
  obtain ⟨requests, hasks, hle, -⟩ := h
  exact (governs_undisturbed b.stream.capacity).asks hasks
    (fun r hr => Nat.le_trans (hle r hr) hroom) rfl

/-- If memory is not refused, there is room on a writable stream for all bits that 64-bit positions can
count, up to the step by which a buffer grows. -/
theorem exists_reserve {b : Backed} {n : Nat} (hw : b.stream.readOnly = false)
    (hlimit : b.stream.writePos + n + 8 * growthStep < positionLimit)
    (hgranted : ∀ f b', reserve n b = .error f b' → ¬ f.Refusal) : ∃ b', reserve n b = .ok () b' := by
  cases hrun : reserve n b with
  | ok _ b' => exact ⟨b', rfl⟩
  | error f b' => exact absurd (refusal_of_reserve hw hlimit hrun) (hgranted f b' hrun)

/-- Making room for some bits changes neither the positions nor the bytes of a stream that was written.
If they fit, nothing happens at all. Otherwise the allocator is called once, for another buffer in place
of the one inside the stream, or for a larger one in place of the one that it owns; it then has twice the
bits that were required or, beyond 2²³ bits, so many more. After that, no writes and transfers that in
total append at most these bits turn to the allocator, or change the capacity or where the buffer is,
even if one of them is stopped. -/
theorem reserve_sufficient {s : Stream} (hs : s.Reachable) (hw : s.readOnly = false) (a : Allocator)
    {more : Nat} (hlimit : s.writePos + more + 2 ^ 23 < 2 ^ 64)
    (hgranted : ∀ f b, reserve more ⟨s, a⟩ = .error f b → ¬ f.Refusal) :
    ∃ b, reserve more ⟨s, a⟩ = .ok () b ∧
      b.stream.writePos = s.writePos ∧ b.stream.readPos = s.readPos ∧ b.stream.bytes = s.bytes ∧
      s.writePos + more ≤ b.stream.capacity ∧
      (s.writePos + more ≤ s.capacity → b = ⟨s, a⟩) ∧
      (s.capacity < s.writePos + more →
        b.stream.storage = .owned ∧
        b.stream.capacity = 8 * bytesFor
          (if s.writePos + more ≤ 2 ^ 23 then (s.writePos + more) * 2 else s.writePos + more + 2 ^ 23) ∧
        b.allocator = a.tally fun c =>
          if s.storage = .owned then { c with reallocations := c.reallocations + 1 }
          else { c with allocations := c.allocations + 1 }) ∧
      ∀ ws : List Append, Append.totalSize s.setup.order s.writePos ws ≤ more →
        (left (Append.performAll ws b)).allocator = b.allocator ∧
        (left (Append.performAll ws b)).stream.capacity = b.stream.capacity ∧
        (left (Append.performAll ws b)).stream.storage = b.stream.storage ∧
        ∀ b', Append.performAll ws b = .ok () b' →
          b'.stream.writePos = s.writePos + Append.totalSize s.setup.order s.writePos ws := by
  have hposition : s.writePos + more + 8 * growthStep < positionLimit := by
    unfold positionLimit growthStep
    omega
  obtain ⟨b, hreserve⟩ := exists_reserve hw hposition hgranted
  obtain ⟨hext, hroom⟩ := hs.valid.extends_of_reserve hreserve
  obtain ⟨-, -, hgrown⟩ := reserve_eq_ok_iff.1 hreserve
  dsimp only at hgrown
  have hbytes : b.stream.bytes = s.bytes := by
    rw [hext.valid.bytes_eq, hs.valid.bytes_eq, hext.bits_eq, List.append_nil]
  have hpos : b.stream.writePos = s.writePos := hext.writePos_eq
  have hroom : s.writePos + more ≤ b.stream.capacity := hpos ▸ hroom.fits
  refine ⟨b, hreserve, hpos, hext.readPos_eq, hbytes, hroom, fun hfits => ?_,
    fun hfull => ?_, fun ws hws => ?_⟩
  · rwa [if_pos hfits] at hgrown
  · rw [if_neg (Nat.not_le.2 hfull)] at hgrown
    obtain ⟨-, rfl⟩ := hgrown
    refine ⟨rfl, ?_, rfl⟩
    rw [capacity, size_grown (size_le_growTarget hfull), growTarget]
    congr 2
    unfold growBits growthStep
    split <;> split <;> omega
  · have htakes := Append.takes_performAll ws b
    rw [hpos, hext.evolves.setup_eq] at htakes
    obtain ⟨hallocator, hstorage, hsize⟩ :=
      htakes.undisturbed (by rw [hpos]; exact Nat.le_trans (Nat.add_le_add_left hws _) hroom)
    refine ⟨hallocator, congrArg (8 * ·) hsize, hstorage, fun b' hall => ?_⟩
    obtain ⟨-, -, -, hok⟩ := htakes
    exact (hok () b' hall).1.trans (congrArg (· + _) hpos)

/-- An empty stream makes room for 4096 bits and moves out of itself. -/
theorem reserve_sufficient_empty :
    ∃ b, reserve 4096 ⟨empty {}, .counting {}⟩ = .ok () b ∧ b.stream.writePos = 0 ∧
      b.stream.capacity = 8192 ∧ b.allocator = .counting ⟨1, 0, 0⟩ ∧
      ∀ ws : List Append, Append.totalSize (empty {}).setup.order 0 ws ≤ 4096 →
        (left (Append.performAll ws b)).allocator = .counting ⟨1, 0, 0⟩ := by
  have hempty : (empty {}).buffer.size = inlineBytes := Buffer.size_zeros _
  have hfull : (empty {}).capacity < (empty {}).writePos + 4096 := by
    rw [capacity, hempty]
    decide
  have hlimit : (empty {}).writePos + 4096 + 2 ^ 23 < 2 ^ 64 := by
    change 0 + 4096 + 2 ^ 23 < 2 ^ 64
    omega
  have hroom : (empty {}).Grants (.counting {}) 4096 := ⟨rfl, by decide, .inr (by decide)⟩
  have hgranted (f : Fault) (b : Backed)
      (h : reserve 4096 ⟨empty {}, .counting {}⟩ = .error f b) : ¬ f.Refusal := by
    obtain ⟨b', hok⟩ := grants_iff.1 hroom
    rw [hok] at h
    cases h
  have hreachable : (empty {}).Reachable := .made {} .empty (a := .system) rfl
  obtain ⟨b, hreserve, hpos, -, -, -, -, hgrown, hall⟩ :=
    reserve_sufficient hreachable rfl (.counting {}) hlimit hgranted
  obtain ⟨-, hsize, hallocator⟩ := hgrown hfull
  exact ⟨b, hreserve, hpos, hsize, hallocator, fun ws hws => (hall ws hws).1.trans hallocator⟩

end Stream

end Bitwire
