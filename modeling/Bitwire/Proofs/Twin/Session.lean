import Mathlib.Data.List.Forall2
import Bitwire.Proofs.Session
import Bitwire.Proofs.Twin.Alike

/-!
# Two sessions side by side

Two sessions that perform the same steps on streams that are alike give reports that look the same.
What alike means, and how much of a report is looked at, is left open here: a likeness says which
streams and allocators are alike and shows that each operation keeps this up. From there it goes on to
steps and to whole sessions.

* `coupled_make`: new streams for different setups.
* `Observer`: what is looked at of faults, answers and snapshots.
* `Likeness`: what is alike, and what an operation does to what is alike.
* `Likeness.coupled_perform`: a step on two workspaces that are alike.
* `Likeness.reports_alike`: whole sessions.
-/

namespace Bitwire

open Bitwire.Stream

/-! ## New streams -/

/-- The streams are set up with `p` and with `q` and are the same otherwise. -/
def SetUp (p q : Setup) (s t : Stream) : Prop := s.setup = p ∧ t = { s with setup := q }

section Make

variable {seen : Fault → Option Fault} {R : Allocator → Allocator → Prop} {p q : Setup}
  {a b : Allocator} (h : R a b)
  (hallocate : ∀ bytes, Coupled seen Eq R (Allocator.allocate bytes a) (Allocator.allocate bytes b))
include h hallocate

theorem coupled_withCapacity (bytes : Nat) :
    Coupled seen (SetUp p q) R (withCapacity p bytes a) (withCapacity q bytes b) := by
  unfold withCapacity
  split
  · exact .ok ⟨rfl, rfl⟩ h
  · refine (hallocate bytes).bind ?_
    rintro buffer _ _ _ rfl h'
    exact .ok ⟨rfl, rfl⟩ h'

theorem coupled_ofBytes (src : List UInt8) :
    Coupled seen (SetUp p q) R (ofBytes p src a) (ofBytes q src b) := by
  rw [ofBytes_eq, ofBytes_eq]
  refine (coupled_withCapacity h hallocate src.length).bind ?_
  rintro s _ _ _ ⟨rfl, rfl⟩ h'
  exact .ok ⟨rfl, rfl⟩ h'

/-- Allocators that hand out buffers alike lead to new streams that differ in their setups at most. -/
theorem coupled_make (origin : Origin) :
    Coupled seen (SetUp p q) R (origin.make p a) (origin.make q b) := by
  cases origin with
  | empty | view => exact .ok ⟨rfl, rfl⟩ h
  | withCapacity bytes => exact coupled_withCapacity h hallocate bytes
  | ofBytes src => exact coupled_ofBytes h hallocate src
  | wrap src copy =>
    cases copy with
    | true => exact coupled_ofBytes h hallocate src
    | false => exact .ok ⟨rfl, rfl⟩ h

end Make

variable {count : Nat}

/-! ## Observers and likenesses -/

/-- What is looked at. The comparison of two sessions ends with a fault that is given no look. -/
structure Observer where
  fault : Fault → Option Fault
  answer : Answer → Answer
  snapshot : Snapshot → Snapshot

namespace Observer

/-- What is looked at of a report. -/
def report (o : Observer) (r : Report) : Report := ⟨o.answer r.answer, r.state.map o.snapshot⟩

/-- What is looked at of what came of a step. -/
def look (o : Observer) : Except Fault Report → Except (Option Fault) Report
  | .ok r => .ok (o.report r)
  | .error f => .error (o.fault f)

end Observer

/-- The operations that are performed in a session, each with the stream that it is performed on, all
satisfy `P`. -/
def Workspace.Throughout (P : Op → Stream → Prop) :
    List (Except Fault (Step count)) → Workspace count → Prop
  | .ok x :: xs, w =>
    (∀ slot op s, x = .act slot op → w.stream? slot = some s → P op s) ∧
      ∀ r w', x.perform w = .ok r w' → Throughout P xs w'
  | _, _ => True

/-- What holds of an operation on every stream holds wherever it is performed. -/
theorem Workspace.throughout_of_forall {P : Op → Stream → Prop} {xs : List (Except Fault (Step count))}
    (h : ∀ slot op, .ok (.act slot op) ∈ xs → ∀ s, P op s) (w : Workspace count) : Throughout P xs w := by
  induction xs generalizing w with
  | nil => trivial
  | cons x xs ih =>
    cases x with
    | error f => trivial
    | ok x =>
      refine ⟨?_, fun r w' _ => ih (fun slot op hop => h slot op (List.mem_cons_of_mem _ hop)) w'⟩
      rintro slot op s rfl -
      exact h slot op List.mem_cons_self s

/-- Setups, streams and allocators that look the same to an observer, and how operations keep that
up. Only allowed operations are compared. -/
structure Likeness (o : Observer) where
  Setups : Setup → Setup → Prop
  Streams : Stream → Stream → Prop
  Allocators : Allocator → Allocator → Prop
  Allowed : Op → Stream → Prop
  alike {s t : Stream} : Streams s t → s.Alike t
  snapshot_eq {s t : Stream} : Streams s t → o.snapshot s.snapshot = o.snapshot t.snapshot
  counters_eq {a b : Allocator} : Allocators a b →
    o.answer (.counters a.counters?) = o.answer (.counters b.counters?)
  make {p q : Setup} {a b : Allocator} (origin : Origin) : Setups p q → Allocators a b →
    Coupled o.fault Streams Allocators (origin.make p a) (origin.make q b)
  clone {s t : Stream} {a b : Allocator} : Streams s t → Allocators a b →
    Coupled o.fault Streams Allocators (s.clone a) (t.clone b)
  release {s t : Stream} {a b : Allocator} : Streams s t → Allocators a b →
    Coupled o.fault Eq Allocators (s.release a) (t.release b)
  perform {s t : Stream} {a b : Allocator} {op : Op} : Allowed op s → Streams s t → Allocators a b →
    Coupled o.fault (fun v w => o.answer v = o.answer w)
      (fun b c => Streams b.stream c.stream ∧ Allocators b.allocator c.allocator)
      (op.perform ⟨s, a⟩) (op.perform ⟨t, b⟩)
  transfer {s t σ τ : Stream} {a b : Allocator} (n : Nat) : Streams s t → Streams σ τ →
    Allocators a b →
    Coupled o.fault (fun p q => p.1 = q.1 ∧ Streams p.2 q.2)
      (fun b c => Streams b.stream c.stream ∧ Allocators b.allocator c.allocator)
      (transfer σ n ⟨s, a⟩) (transfer τ n ⟨t, b⟩)

namespace Likeness

variable {o : Observer} (L : Likeness o)

/-- The allocators are alike, and so are the streams in each slot. -/
structure Workspaces (w w' : Workspace count) : Prop where
  allocator : L.Allocators w.allocator w'.allocator
  slots (slot : Slot count) : Option.Rel L.Streams (w.stream? slot) (w'.stream? slot)

/-- Steps that differ in the setup of a new stream at most. -/
inductive Steps : Except Fault (Step count) → Except Fault (Step count) → Prop
  | refused (f : Fault) : Steps (.error f) (.error f)
  | create (slot : Slot count) {p q : Setup} (origin : Origin) : L.Setups p q →
      Steps (.ok (.create slot p origin)) (.ok (.create slot q origin))
  | clone (slot source : Slot count) : Steps (.ok (.clone slot source)) (.ok (.clone slot source))
  | drop (slot : Slot count) : Steps (.ok (.drop slot)) (.ok (.drop slot))
  | counters : Steps (.ok .counters) (.ok .counters)
  | act (slot : Slot count) (op : Op) : Steps (.ok (.act slot op)) (.ok (.act slot op))
  | transfer (slot source : Slot count) (bits : Option Nat) :
      Steps (.ok (.transfer slot source bits)) (.ok (.transfer slot source bits))

variable {L} in
theorem Steps.refl (h : ∀ p, L.Setups p p) (x : Except Fault (Step count)) : L.Steps x x := by
  cases x with
  | error f => exact .refused f
  | ok x =>
    cases x with
    | create slot p origin => exact .create slot origin (h p)
    | clone slot source => exact .clone slot source
    | drop slot => exact .drop slot
    | counters => exact .counters
    | act slot op => exact .act slot op
    | transfer slot source bits => exact .transfer slot source bits

/-! ## Parts of steps -/

section Parts

open Workspace

variable {L} {w w' : Workspace count} (h : L.Workspaces w w')
include h

theorem Workspaces.put (slot : Slot count) {s t : Option Stream} (hs : Option.Rel L.Streams s t) :
    L.Workspaces (w.put slot s) (w'.put slot t) := by
  refine ⟨h.allocator, fun i => ?_⟩
  rw [Workspace.stream?_put, Workspace.stream?_put]
  split
  · exact hs
  · exact h.slots i

theorem Workspaces.slot_cases (slot : Slot count) :
    (w.stream? slot = none ∧ w'.stream? slot = none) ∨
      ∃ s t, w.stream? slot = some s ∧ w'.stream? slot = some t ∧ L.Streams s t := by
  have hslot := h.slots slot
  generalize w.stream? slot = x at hslot ⊢
  generalize w'.stream? slot = y at hslot ⊢
  cases hslot with
  | none => exact .inl ⟨rfl, rfl⟩
  | some hst => exact .inr ⟨_, _, rfl, rfl, hst⟩

theorem coupled_streamAt (slot : Slot count) :
    Coupled o.fault L.Streams L.Workspaces (Workspace.streamAt slot w) (Workspace.streamAt slot w') := by
  rcases h.slot_cases slot with ⟨hs, ht⟩ | ⟨s, t, hs, ht, hst⟩
  · rw [streamAt_none hs, streamAt_none ht]
    exact .error rfl
  · rw [streamAt_some hs, streamAt_some ht]
    exact .ok hst h

theorem coupled_askAllocator {α β : Type} {V : α → β → Prop} {x : AllocM α} {y : AllocM β}
    (hx : Coupled o.fault V L.Allocators (x w.allocator) (y w'.allocator)) :
    Coupled o.fault V L.Workspaces (Workspace.askAllocator x w) (Workspace.askAllocator y w') := by
  unfold Workspace.askAllocator
  generalize x w.allocator = r at hx ⊢
  generalize y w'.allocator = r' at hx ⊢
  cases hx with
  | ok hv ha => exact .ok hv ⟨ha, h.slots⟩
  | error hseen => exact .error hseen
  | left hlost => exact .left hlost
  | right hlost => exact .right hlost

theorem coupled_onSlot {α β : Type} {V : α → β → Prop} {x : WriteM α} {y : WriteM β} (slot : Slot count)
    (hx : ∀ s t, w.stream? slot = some s → L.Streams s t →
      Coupled o.fault V
        (fun b c => L.Streams b.stream c.stream ∧ L.Allocators b.allocator c.allocator)
        (x ⟨s, w.allocator⟩) (y ⟨t, w'.allocator⟩)) :
    Coupled o.fault V L.Workspaces (Workspace.onSlot slot x w) (Workspace.onSlot slot y w') := by
  rcases h.slot_cases slot with ⟨hs, ht⟩ | ⟨s, t, hs, ht, hst⟩
  · rw [onSlot_none hs, onSlot_none ht]
    exact .error rfl
  · have hcoupled := hx s t hs hst
    rw [onSlot_some hs, onSlot_some ht]
    generalize x ⟨s, w.allocator⟩ = r at hcoupled ⊢
    generalize y ⟨t, w'.allocator⟩ = r' at hcoupled ⊢
    cases hcoupled with
    | ok hv hb => exact .ok hv ⟨hb.2, (h.put slot (.some hb.1)).slots⟩
    | error hseen => exact .error hseen
    | left hlost => exact .left hlost
    | right hlost => exact .right hlost

theorem coupled_drop (slot : Slot count) :
    Coupled o.fault Eq L.Workspaces (Workspace.drop slot w) (Workspace.drop slot w') := by
  rcases h.slot_cases slot with ⟨hs, ht⟩ | ⟨s, t, hs, ht, hst⟩
  · rw [drop_none hs, drop_none ht]
    exact .ok rfl h
  · rw [drop_some hs, drop_some ht]
    refine (coupled_askAllocator h (L.release hst h.allocator)).bind fun _ _ w₁ w₁' _ h₁ => ?_
    exact .ok rfl (h₁.put slot .none)

theorem coupled_replace (slot : Slot count) {s t : Stream} (hs : L.Streams s t) :
    Coupled o.fault Eq L.Workspaces (Workspace.replace slot s w) (Workspace.replace slot t w') :=
  (coupled_drop h slot).bind fun _ _ _ _ _ h' => .ok rfl (h'.put slot (.some hs))

theorem coupled_report (slot : Slot count) {v v' : Answer} (hv : o.answer v = o.answer v') :
    Coupled o.fault (fun r r' => o.report r = o.report r') L.Workspaces
      (Workspace.report slot v w) (Workspace.report slot v' w') := by
  refine (coupled_streamAt h slot).bind fun s t _ _ hs h' => .ok ?_ h'
  simp only [Observer.report, hv, L.snapshot_eq hs, Option.map_some]

end Parts

/-! ## Steps -/

variable {L}

/-- A step on workspaces that are alike gives reports that look the same and leaves workspaces that
are alike. -/
theorem coupled_perform {x y : Step count} (hxy : L.Steps (.ok x) (.ok y)) {w w' : Workspace count}
    (h : L.Workspaces w w')
    (hallowed : ∀ slot op s, x = .act slot op → w.stream? slot = some s → L.Allowed op s) :
    Coupled o.fault (fun r r' => o.report r = o.report r') L.Workspaces (x.perform w)
      (y.perform w') := by
  cases hxy with
  | create slot origin hsetup =>
    refine (coupled_askAllocator h (L.make origin hsetup h.allocator)).bind ?_
    intro s t w₁ w₁' hst h₁
    refine (coupled_replace h₁ slot hst).bind fun _ _ w₂ w₂' _ h₂ => ?_
    exact coupled_report h₂ slot rfl
  | clone slot source =>
    refine (coupled_streamAt h source).bind fun s t w₁ w₁' hst h₁ => ?_
    refine (coupled_askAllocator h₁ (L.clone hst h₁.allocator)).bind fun s' t' w₂ w₂' hst' h₂ => ?_
    refine (coupled_replace h₂ slot hst').bind fun _ _ w₃ w₃' _ h₃ => ?_
    exact coupled_report h₃ slot rfl
  | drop slot => exact (coupled_drop h slot).bind fun _ _ _ _ _ h₁ => .ok rfl h₁
  | counters =>
    refine .ok ?_ h
    simp only [Observer.report, L.counters_eq h.allocator]
  | act slot op =>
    have hact := coupled_onSlot h slot fun s t hs hst =>
      L.perform (hallowed slot op s rfl hs) hst h.allocator
    exact hact.bind fun v v' w₁ w₁' hv h₁ => coupled_report h₁ slot hv
  | transfer slot source bits =>
    refine (coupled_streamAt h source).bind fun σ τ w₁ w₁' hst h₁ => ?_
    rw [(L.alike hst).payload_eq]
    have hmove := coupled_onSlot h₁ slot fun s t _ hst' =>
      L.transfer (bits.getD σ.payload) hst' hst h₁.allocator
    refine hmove.bind ?_
    rintro ⟨n, σ'⟩ ⟨_, τ'⟩ w₂ w₂' ⟨rfl, hst'⟩ h₂
    have hread : τ'.readPos = σ'.readPos := (L.alike hst').readPos_eq
    refine coupled_report (h₂.put source (.some hst')) slot ?_
    dsimp only
    rw [hread]

/-! ## Sessions -/

/-- Steps that differ in the setups of new streams at most, performed on workspaces that are alike,
give reports that look the same. Faults that end the comparison must not occur. -/
theorem reports_alike {xs ys : List (Except Fault (Step count))} (hxy : List.Forall₂ L.Steps xs ys)
    {w w' : Workspace count} (h : L.Workspaces w w') (hallowed : Workspace.Throughout L.Allowed xs w)
    (hleft : ∀ f, .error f ∈ (Workspace.steps xs w).1 → o.fault f ≠ none)
    (hright : ∀ f, .error f ∈ (Workspace.steps ys w').1 → o.fault f ≠ none) :
    (Workspace.steps xs w).1.map o.look = (Workspace.steps ys w').1.map o.look := by
  induction hxy generalizing w w' with
  | nil => rfl
  | @cons x y xs ys hxy _ ih =>
    cases x with
    | error f =>
      -- a step whose arguments are refused is the same on both sides and ends both sessions
      cases hxy
      rfl
    | ok x =>
      obtain ⟨y, rfl⟩ : ∃ y', y = .ok y' := by cases hxy <;> exact ⟨_, rfl⟩
      obtain ⟨hact, hrest⟩ := hallowed
      have hstep := coupled_perform hxy h hact
      unfold Workspace.steps at hleft hright ⊢
      generalize hx : x.perform w = r at hstep hleft ⊢
      generalize y.perform w' = r' at hstep hright ⊢
      cases hstep with
      | ok hr h₁ =>
        have hmore := ih h₁ (hrest _ _ hx) (fun f hf => hleft f (List.mem_cons_of_mem _ hf))
          fun f hf => hright f (List.mem_cons_of_mem _ hf)
        simp only [List.map_cons, hmore, Observer.look, hr]
      | error hseen => simp only [List.map_cons, List.map_nil, Observer.look, hseen]
      | left hlost => exact absurd hlost (hleft _ (List.mem_singleton_self _))
      | right hlost => exact absurd hlost (hright _ (List.mem_singleton_self _))

end Likeness

end Bitwire
