import Mathlib.Data.Multiset.ZeroCons
import Mathlib.Logic.Relation
import Bitwire.Proofs.Ownership.Turn
import Bitwire.Proofs.Requests

/-!
# Views

A view shows bytes that belong to someone else. Every write makes room before anything else changes, and
a view is refused room even for no bits. So whatever is done with a view, and with copies of it, the bytes
stay and the allocator is never called.

* `Takes.barred`: what writes leaves a view as it was.
* `Stream.Shows`: a view of some bytes.
* `Gallery`, `Gallery.Step`: a view and its copies, and what may be done with them.
* `views_untouched`: what holds after any run.
-/

namespace Bitwire

namespace Stream

/-! ## Write protection -/

/-- A view is refused all room. -/
theorem reserve_of_readOnly {s : Stream} (h : s.readOnly = true) (n : Nat) (a : Allocator) :
    reserve n ⟨s, a⟩ = .error .readOnly ⟨s, a⟩ := by
  rw [reserve_eq, if_pos h]

/-- Neither requests nor checks change a view, and no bits are stored in it. -/
theorem governs_barred : Governs (fun _ => True) fun b _ b' => b.stream.readOnly = true → b' = b where
  done _ _ := rfl
  stopped _ _ _ _ := rfl
  grown _ _ _ hw _ _ hview := absurd hview (Bool.eq_false_iff.1 hw)
  denied _ _ _ hw _ hview := absurd hview (Bool.eq_false_iff.1 hw)
  stored _ _ _ hw _ hview := absurd hview (Bool.eq_false_iff.1 hw)
  trans h h' hview := by
    have heq := h hview
    exact (h' (heq ▸ hview)).trans heq

/-- What writes leaves a view as it was, and can return only if it appends nothing. -/
theorem Takes.barred {α : Type} {x : WriteM α} {b : Backed} {n : Nat} (h : Takes x b n)
    (hview : b.stream.readOnly = true) : (n = 0 ∧ ∃ v, x b = .ok v b) ∨ ∃ f, x b = .error f b := by
  obtain ⟨requests, hasks, -, hok⟩ := h
  have hleft := governs_barred.asks hasks (fun _ _ => trivial) hview
  cases hrun : x b with
  | ok v b' =>
    rw [hrun] at hleft
    obtain rfl : b' = b := hleft
    have := (hok v b' hrun).1
    exact .inl ⟨by omega, v, rfl⟩
  | error f b' =>
    rw [hrun] at hleft
    obtain rfl : b' = b := hleft
    exact .inr ⟨f, rfl⟩

/-- A transfer makes room even for no bits. -/
theorem transfer_of_readOnly {s : Stream} (h : s.readOnly = true) (source : Stream) (n : Nat)
    (a : Allocator) : ∃ f, transfer source n ⟨s, a⟩ = .error f ⟨s, a⟩ := by
  unfold transfer
  split
  · exact ⟨_, rfl⟩
  · exact ⟨_, bind_of_error (reserve_of_readOnly h n a)⟩

/-! ## Views -/

/-- A view of these bytes. -/
structure Shows (src : List UInt8) (s : Stream) : Prop where
  valid : s.Valid
  storage : s.storage = .borrowed
  bytes : s.buffer.toList = src
  aligned : s.writePos % 8 = 0

namespace Shows

variable {src : List UInt8} {s s' : Stream}

theorem view (setup : Setup) (src : List UInt8) : Shows src (view setup src) where
  valid := valid_view setup src
  storage := rfl
  bytes := rfl
  aligned := Nat.mul_mod_right 8 _

theorem readOnly (h : Shows src s) : s.readOnly = true := by
  unfold Stream.readOnly
  rw [h.storage]
  rfl

/-- Passing over bits changes nothing else. -/
theorem moveRead (h : Shows src s) {position : Nat} (hp : position ≤ s.writePos) :
    Shows src { s with readPos := position } where
  valid := h.valid.moveRead hp
  storage := h.storage
  bytes := h.bytes
  aligned := h.aligned

theorem position (h : Shows src s) {x : PositionOp} (hx : x.perform.run s = .ok ((), s')) :
    Shows src s' := by
  obtain ⟨hvalid, -⟩ := h.valid.position x hx
  cases x with
  | reset | resetWrite =>
    cases hx
    exact ⟨hvalid, h.storage, h.bytes, Nat.zero_mod 8⟩
  | resetRead =>
    cases hx
    exact h.moveRead (Nat.zero_le _)
  | setReadPos position =>
    rw [PositionOp.perform, run_setReadPos] at hx
    split at hx
    · cases hx
      exact h.moveRead ‹_›
    · contradiction
  | setWritePos position =>
    have hw := (setWritePos_eq_ok_iff.1 hx).1
    rw [h.readOnly] at hw
    contradiction
  | expectEnd =>
    rw [PositionOp.perform, run_expectEnd] at hx
    split at hx
    · cases hx
      exact h
    · contradiction

theorem read (h : Shows src s) {x : ReadOp} {v : Answer} (hx : x.perform.run s = .ok (v, s')) :
    Shows src s' := by
  obtain ⟨position, -, hp, rfl⟩ := x.reads s v s' h.valid.readPos_le hx
  exact h.moveRead hp

/-- What is done with the stream alone does not call the allocator. -/
theorem onStream {α : Type} {x : StreamM α} (h : Shows src s) (a : Allocator)
    (hx : ∀ v s', x.run s = .ok (v, s') → Shows src s') :
    ∃ s', left (Stream.onStream x ⟨s, a⟩) = ⟨s', a⟩ ∧ Shows src s' := by
  unfold Stream.onStream
  dsimp only
  cases hrun : x.run s with
  | ok r => exact ⟨r.2, rfl, hx r.1 r.2 hrun⟩
  | error f => exact ⟨s, rfl, h⟩

/-- Whatever is done with a view, it remains one, and the allocator is not called. -/
theorem perform (h : Shows src s) (op : Op) (a : Allocator) :
    ∃ s', left (op.perform ⟨s, a⟩) = ⟨s', a⟩ ∧ Shows src s' := by
  cases op with
  | query x => exact ⟨s, rfl, h⟩
  | position x =>
    rw [Op.perform, left_answer]
    exact h.onStream a fun _ _ => h.position
  | read x => exact h.onStream a fun _ _ => h.read
  | reserve n =>
    rw [Op.perform, left_answer, reserve_of_readOnly h.readOnly]
    exact ⟨s, rfl, h⟩
  | write x =>
    rw [Op.perform, left_answer]
    rcases (x.takes ⟨s, a⟩).barred h.readOnly with ⟨-, v, hok⟩ | ⟨f, hstop⟩
    · rw [hok]
      exact ⟨s, rfl, h⟩
    · rw [hstop]
      exact ⟨s, rfl, h⟩

/-- A view is copied without the allocator. -/
theorem clone_eq (h : Shows src s) (a : Allocator) : s.clone a = .ok s a := by
  simp only [clone, h.storage]
  rfl

/-- A view that is dropped has nothing to give back. -/
theorem release_eq (h : Shows src s) (a : Allocator) : s.release a = .ok () a := by
  simp only [release, h.storage]
  rfl

/-- A write to a view appends nothing: it is stopped, unless it has no bits to append. -/
theorem write (h : Shows src s) (op : WriteOp) (a : Allocator) :
    (op.bits s.setup.order s.writePos = [] ∧ op.perform ⟨s, a⟩ = .ok 0 ⟨s, a⟩) ∨
      ∃ f, op.perform ⟨s, a⟩ = .error f ⟨s, a⟩ := by
  rcases (op.takes ⟨s, a⟩).barred h.readOnly with ⟨h0, k, hok⟩ | hstop
  · obtain rfl : k = 0 := (op.appends s a k _ h.valid hok).1.trans h0
    exact .inl ⟨List.length_eq_zero_iff.1 h0, hok⟩
  · exact .inr hstop

end Shows

end Stream

open Bitwire.Stream

/-! ## Runs -/

/-- Views, and the allocator that they were given. -/
structure Gallery where
  allocator : Allocator
  views : Multiset Stream

namespace Gallery

/-- An operation on a view or a transfer to it, which may be stopped by any fault; a transfer from it; a
copy; the end of a view. -/
inductive Step : Gallery → Gallery → Prop
  | perform {a : Allocator} {rest : Multiset Stream} {s : Stream} {b : Backed} (op : Op) :
      left (op.perform ⟨s, a⟩) = b → Step ⟨a, s ::ₘ rest⟩ ⟨b.allocator, b.stream ::ₘ rest⟩
  | receive {a : Allocator} {rest : Multiset Stream} {s source : Stream} {b : Backed} (n : Nat) :
      left (transfer source n ⟨s, a⟩) = b → Step ⟨a, s ::ₘ rest⟩ ⟨b.allocator, b.stream ::ₘ rest⟩
  | send {a : Allocator} {rest : Multiset Stream} {s s' : Stream} {other other' : Backed} {n k : Nat} :
      transfer s n other = .ok (k, s') other' → Step ⟨a, s ::ₘ rest⟩ ⟨a, s' ::ₘ rest⟩
  | clone {a a' : Allocator} {views : Multiset Stream} {s s' : Stream} :
      s ∈ views → s.clone a = .ok s' a' → Step ⟨a, views⟩ ⟨a', s' ::ₘ views⟩
  | drop {a a' : Allocator} {rest : Multiset Stream} {s : Stream} :
      s.release a = .ok () a' → Step ⟨a, s ::ₘ rest⟩ ⟨a', rest⟩

/-- All views show these bytes, and the allocator is as it was. -/
structure Untouched (a : Allocator) (src : List UInt8) (g : Gallery) : Prop where
  allocator : g.allocator = a
  views : ∀ s ∈ g.views, Shows src s

theorem Untouched.step {a : Allocator} {src : List UInt8} {g g' : Gallery} (h : g.Untouched a src)
    (hstep : Step g g') : g'.Untouched a src := by
  obtain ⟨hallocator, hviews⟩ := h
  cases hstep with
  | perform op hleft =>
    obtain ⟨hs, hrest⟩ := Multiset.forall_mem_cons.1 hviews
    obtain ⟨s', heq, hs'⟩ := hs.perform op _
    obtain rfl := hleft.symm.trans heq
    exact ⟨hallocator, Multiset.forall_mem_cons.2 ⟨hs', hrest⟩⟩
  | receive n hleft =>
    obtain ⟨hs, hrest⟩ := Multiset.forall_mem_cons.1 hviews
    obtain ⟨f, hstop⟩ := transfer_of_readOnly hs.readOnly _ n _
    rw [hstop] at hleft
    obtain rfl := hleft
    exact ⟨hallocator, hviews⟩
  | send hsend =>
    obtain ⟨hs, hrest⟩ := Multiset.forall_mem_cons.1 hviews
    obtain ⟨-, hn, rfl, -⟩ := transfer_eq_ok hsend
    have hle := hs.valid.readPos_le
    unfold payload at hn
    exact ⟨hallocator, Multiset.forall_mem_cons.2 ⟨hs.moveRead (by omega), hrest⟩⟩
  | clone hs hclone =>
    rw [(hviews _ hs).clone_eq] at hclone
    cases hclone
    exact ⟨hallocator, Multiset.forall_mem_cons.2 ⟨hviews _ hs, hviews⟩⟩
  | drop hdrop =>
    obtain ⟨hs, hrest⟩ := Multiset.forall_mem_cons.1 hviews
    rw [hs.release_eq] at hdrop
    cases hdrop
    exact ⟨hallocator, hrest⟩

theorem untouched_of_run {a : Allocator} {setup : Setup} {src : List UInt8} {g : Gallery}
    (h : Relation.ReflTransGen Step ⟨a, {Stream.view setup src}⟩ g) : g.Untouched a src := by
  induction h with
  | refl =>
    refine ⟨rfl, fun s hs => ?_⟩
    rw [Multiset.mem_singleton.1 hs]
    exact .view setup src
  | tail _ hstep ih => exact ih.step hstep

end Gallery

/-- A view is made without the allocator. After any run of operations on it and on copies of it, the
allocator has not been called, and it is not called for further copies or when the views are dropped. Each
of them still shows the same bytes, with its write position at a byte boundary. It is refused room, also
for a transfer to it. A write that would append bits is stopped, and one that would append none returns
zero or is stopped; both leave the view as it was. -/
theorem views_untouched {setup : Setup} {src : List UInt8} {a a₁ : Allocator} {s : Stream} {g : Gallery}
    (hmake : (Origin.view src).make setup a = .ok s a₁)
    (hrun : Relation.ReflTransGen Gallery.Step ⟨a₁, {s}⟩ g) :
    g.allocator = a ∧
    ∀ v ∈ g.views,
      v.storage = .borrowed ∧ v.buffer.toList = src ∧ v.writePos % 8 = 0 ∧
      ∀ a' : Allocator, v.clone a' = .ok v a' ∧ v.release a' = .ok () a' ∧
        (∀ n, reserve n ⟨v, a'⟩ = .error .readOnly ⟨v, a'⟩) ∧
        (∀ source n, ∃ f, transfer source n ⟨v, a'⟩ = .error f ⟨v, a'⟩) ∧
        ∀ op : WriteOp,
          (op.bits v.setup.order v.writePos ≠ [] → ∃ f, op.perform ⟨v, a'⟩ = .error f ⟨v, a'⟩) ∧
          (op.bits v.setup.order v.writePos = [] →
            op.perform ⟨v, a'⟩ = .ok 0 ⟨v, a'⟩ ∨ ∃ f, op.perform ⟨v, a'⟩ = .error f ⟨v, a'⟩) := by
  cases hmake
  obtain ⟨hallocator, hviews⟩ := Gallery.untouched_of_run hrun
  refine ⟨hallocator, fun v hv => ?_⟩
  have h := hviews v hv
  refine ⟨h.storage, h.bytes, h.aligned, fun a' => ⟨h.clone_eq a', h.release_eq a',
    fun n => reserve_of_readOnly h.readOnly n a',
    fun source n => transfer_of_readOnly h.readOnly source n a', fun op => ⟨fun hbits => ?_, fun _ => ?_⟩⟩⟩
  · rcases h.write op a' with ⟨hnil, -⟩ | hstop
    · exact absurd hnil hbits
    · exact hstop
  · exact (h.write op a').imp_left And.right

/-- A view of one byte, copied, rewound and dropped. -/
theorem views_untouched_copied :
    ∃ g : Gallery, Relation.ReflTransGen Gallery.Step ⟨.counting {}, {Stream.view {} [0xA5]}⟩ g ∧
      Multiset.card g.views = 1 ∧ g.allocator = .counting {} ∧
      ∀ v ∈ g.views, v.buffer.toList = [0xA5] ∧
        ∃ f, (WriteOp.bit true).perform ⟨v, .counting {}⟩ = .error f ⟨v, .counting {}⟩ := by
  let s : Stream := .view {} [0xA5]
  let s₁ : Stream := { s with writePos := 0, readPos := 0 }
  have hmake : (Origin.view [0xA5]).make {} (.counting {}) = .ok s (.counting {}) := rfl
  have hclone : Gallery.Step ⟨.counting {}, {s}⟩ ⟨.counting {}, s ::ₘ {s}⟩ :=
    .clone (Multiset.mem_singleton_self s) rfl
  have hreset : Gallery.Step ⟨.counting {}, s ::ₘ {s}⟩ ⟨.counting {}, s₁ ::ₘ {s}⟩ :=
    .perform (b := ⟨s₁, .counting {}⟩) (.position .reset) rfl
  have hdrop : Gallery.Step ⟨.counting {}, s₁ ::ₘ {s}⟩ ⟨.counting {}, {s}⟩ := .drop rfl
  have hrun := ((Relation.ReflTransGen.single hclone).tail hreset).tail hdrop
  obtain ⟨hallocator, hviews⟩ := views_untouched hmake hrun
  refine ⟨_, hrun, rfl, hallocator, fun v hv => ?_⟩
  obtain ⟨-, hbytes, -, hcalls⟩ := hviews v hv
  obtain ⟨-, -, -, -, hwrites⟩ := hcalls (.counting {})
  exact ⟨hbytes, (hwrites (.bit true)).1 (List.cons_ne_nil _ _)⟩

end Bitwire
