import Bitwire.Proofs.Twin.Setup

/-!
# The order of the host does not show

Two sessions whose streams are set up for different hosts, stream by stream, do the same: they write
the same bytes, read the same values, move the same positions and fail in the same steps with the same
faults. Only a question about the order itself tells them apart.

* `Stream.inOrder`: a stream set up for another host.
* `Observer.orderless`: an observer that does not look at the order.
* `orderLikeness`: each operation does the same on a stream set up for another host.
* `order_unobservable`: whole sessions.
-/

namespace Bitwire

/-- The facts about a stream without its order, and every other answer. -/
def Answer.hideOrder : Answer → Answer
  | facts f => facts { f with order := .little }
  | x => x

/-- Everything but the order of a host. -/
def Observer.orderless : Observer := ⟨some, Answer.hideOrder, id⟩

/-- A step without the order in the setup of a new stream. -/
def Step.hideOrder {count : Nat} : Step count → Step count
  | create slot setup origin => create slot { setup with order := .little } origin
  | x => x

/-- The setup for another host. -/
def Setup.inOrder (o : ByteOrder) (p : Setup) : Setup := { p with order := o }

namespace Stream

/-- The stream set up for another host. -/
def inOrder (s : Stream) (o : ByteOrder) : Stream := { s with setup := { s.setup with order := o } }

theorem inOrder_eq (s : Stream) (o : ByteOrder) : s.inOrder o = s.withSetup (.inOrder o) := rfl

/-- The stream of the second run is that of the first one, set up for another host. -/
def Reordered (b c : Backed) : Prop := ∃ o, c = ⟨b.stream.inOrder o, b.allocator⟩

theorem SetUpBy.reordered {o : ByteOrder} {b c : Backed} (h : SetUpBy (.inOrder o) b c) :
    Reordered b c := ⟨o, h⟩

/-- Writes do not look at the order. -/
theorem transparent_inOrder (o : ByteOrder) : Transparent some (SetUpBy (.inOrder o)) :=
  transparent_setUpBy fun _ => rfl

end Stream

open Bitwire.Stream

/-- An operation does the same on a stream set up for another host, and answers the same but for the
order itself. -/
theorem coupled_op_inOrder {op : Op}
    (hop : op ≠ .query .describe ∧ op ≠ .query .describeLines) {s : Stream} (hs : s.Valid)
    (o : ByteOrder) (a : Allocator) :
    Coupled some (fun v w => v.hideOrder = w.hideOrder) Reordered (op.perform ⟨s, a⟩)
      (op.perform ⟨s.inOrder o, a⟩) := by
  rw [inOrder_eq]
  refine (coupled_op_setUpBy hs (.inOrder o) a Answer.hideOrder (fun q hq => ?_) fun x _ =>
    x.writing.uniform some _ (transparent_inOrder o) _ _ rfl).imp
      fun _ _ _ _ _ _ hv hbc => ⟨hv, hbc.reordered⟩
  subst hq
  cases q with
  | describe => exact absurd rfl hop.1
  | describeLines => exact absurd rfl hop.2
  | facts | bytes | bitDump | hexDump => rfl

/-- Streams that differ in their order only are alike to an observer that does not look at it. -/
def orderLikeness : Likeness .orderless where
  Setups p q := ∃ o, q = { p with order := o }
  Streams s t := s.Valid ∧ ∃ o, t = s.inOrder o
  Allocators := Eq
  Allowed op _ := op ≠ .query .describe ∧ op ≠ .query .describeLines
  alike := by
    rintro s _ ⟨hs, o, rfl⟩
    exact hs.alike_withSetup (.inOrder o)
  snapshot_eq := by
    rintro s _ ⟨-, o, rfl⟩
    rfl
  counters_eq := by
    rintro a _ rfl
    rfl
  make := by
    rintro p _ a _ origin ⟨o, rfl⟩ rfl
    refine (coupled_make_setUpBy (.inOrder o) p origin a).imp fun s t _ _ _ _ hst ha => ?_
    obtain ⟨hs, -, rfl⟩ := hst
    exact ⟨⟨hs, o, rfl⟩, ha⟩
  clone := by
    rintro s _ a _ ⟨hs, o, rfl⟩ rfl
    refine (coupled_clone_setUpBy (.inOrder o) s a).imp fun s' t' _ _ _ _ hst ha => ?_
    obtain ⟨rfl, rfl⟩ := hst
    exact ⟨⟨hs, o, rfl⟩, ha⟩
  release := by
    rintro s _ a _ ⟨-, o, rfl⟩ rfl
    exact .refl _
  perform := by
    rintro s _ a _ op hop ⟨hs, o, rfl⟩ rfl
    refine (coupled_op_inOrder hop hs o a).imp fun v w b c hb _ hv hbc => ⟨hv, ?_⟩
    obtain ⟨o', rfl⟩ := hbc
    exact ⟨⟨(hs.perform hb).1, o', rfl⟩, rfl⟩
  transfer := by
    rintro s _ σ _ a _ n ⟨hs, o, rfl⟩ ⟨hσ, o', rfl⟩ rfl
    have hmove := coupled_transfer (transparent_inOrder o) n (hσ.alike_withSetup (.inOrder o'))
      (b := ⟨s, a⟩) (c := ⟨s.inOrder o, a⟩) rfl
    refine hmove.imp ?_
    rintro ⟨k, σ'⟩ ⟨_, τ'⟩ b _ hleft hright ⟨rfl, hmoved⟩ rfl
    obtain ⟨-, -, rfl, hext⟩ := transfer_eq_ok hleft
    obtain ⟨-, -, rfl, -⟩ := transfer_eq_ok hright
    exact ⟨⟨rfl, hmoved.left, o', rfl⟩, ⟨(hext hs).valid, o, rfl⟩, rfl⟩

/-! ## Sessions -/

variable {count : Nat}

theorem Step.eq_or_of_hideOrder_eq {x y : Step count} (h : x.hideOrder = y.hideOrder) :
    x = y ∨ ∃ slot p o origin,
      x = .create slot p origin ∧ y = .create slot { p with order := o } origin := by
  cases x with
  | create slot p origin =>
    cases y with
    | create slot' q origin' =>
      obtain ⟨rfl, hsetup, rfl⟩ := Step.create.inj h
      obtain ⟨-, hstrict⟩ := Setup.mk.inj hsetup
      exact .inr ⟨slot, p, q.order, origin, rfl, by rw [hstrict]⟩
    | _ => contradiction
  | _ =>
    cases y with
    | create => contradiction
    | _ => exact .inl h

/-- Steps that are the same without the orders of new streams. -/
theorem orderLikeness_steps {x y : Except Fault (Step count)}
    (h : x.map Step.hideOrder = y.map Step.hideOrder) : orderLikeness.Steps x y := by
  have hrefl (z : Except Fault (Step count)) :=
    Likeness.Steps.refl (L := orderLikeness) (fun p => ⟨p.order, rfl⟩) z
  cases x with
  | error f =>
    cases y with
    | error g =>
      cases h
      exact hrefl _
    | ok y => contradiction
  | ok x =>
    cases y with
    | error g => contradiction
    | ok y =>
      rcases Step.eq_or_of_hideOrder_eq (Except.ok.inj h) with rfl | ⟨slot, p, o, origin, rfl, rfl⟩
      · exact hrefl _
      · exact .create slot origin ⟨o, rfl⟩

theorem orderLikeness_start (a : Allocator) :
    orderLikeness.Workspaces (Workspace.start a : Workspace count) (Workspace.start a) := by
  refine ⟨rfl, fun slot => ?_⟩
  rw [Workspace.stream?_start]
  exact .none

/-- The order of the host does not show. Two sessions with the same steps, in which each stream may be
set up for one host or another, give the same reports up to the order itself: the same answers and
counts, the same positions and bytes, and the same fault, if there is one, in the same step. -/
theorem order_unobservable {xs ys : List (Except Fault (Step count))}
    (h : xs.map (Except.map Step.hideOrder) = ys.map (Except.map Step.hideOrder))
    (htext : ∀ slot q, .ok (.act slot (.query q)) ∈ xs → q ≠ .describe ∧ q ≠ .describeLines)
    (a : Allocator) :
    (Workspace.steps xs (.start a)).1.map Observer.orderless.look =
      (Workspace.steps ys (.start a)).1.map Observer.orderless.look := by
  have hsteps : List.Forall₂ orderLikeness.Steps xs ys := by
    rw [← List.forall₂_eq_eq_eq, List.forall₂_map_left_iff, List.forall₂_map_right_iff] at h
    exact h.imp fun _ _ => orderLikeness_steps
  refine Likeness.reports_alike hsteps (orderLikeness_start a) ?_ (fun f _ => Option.some_ne_none f)
    fun f _ => Option.some_ne_none f
  refine Workspace.throughout_of_forall (fun slot op hop s => ⟨?_, ?_⟩) _
  · rintro rfl
    exact (htext slot _ hop).1 rfl
  · rintro rfl
    exact (htext slot _ hop).2 rfl

/-- A number, written and read back on hosts of either order. -/
theorem order_unobservable_number :
    (Workspace.steps
      [.ok (.create .first { order := .little } .empty),
        .ok (.act .first (.write (.value (.int .u16) 0x1234#16))),
        .ok (.act .first (.read (.value (.int .u16))))]
      (.start .system)).1.map Observer.orderless.look =
    (Workspace.steps
      [.ok (.create .first { order := .big } .empty),
        .ok (.act .first (.write (.value (.int .u16) 0x1234#16))),
        .ok (.act .first (.read (.value (.int .u16))))]
      (.start .system)).1.map Observer.orderless.look :=
  order_unobservable (by rfl) (by simp) .system

end Bitwire
