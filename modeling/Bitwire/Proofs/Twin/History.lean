import Bitwire.Proofs.Twin.Face
import Bitwire.Proofs.Twin.Session

/-!
# Storage and history do not show

A stream looks the same whether its bytes are inside it or with an allocator, however large its buffer
is, and whatever was written to it and taken back. Streams with the same setup, the same positions and
the same bytes give the same answers for ever, as long as nothing asks for the capacity or the storage
and the allocator refuses neither of them a buffer. A stream that was rewound forgets what was behind
its new write position.

* `Observer.roomless`: an observer that does not look at capacity and storage.
* `Op.Discreet`: operations that do not show them.
* `coupled_op_twins`, `roomLikeness`: each discreet operation does the same on streams that look the
  same.
* `Workspace.Indistinguishable`: workspaces that no session tells apart.
* `history_unobservable`: streams that look the same, and streams that are rewound to the same bits.
-/

namespace Bitwire

/-- A fault without the capacity in its wording. The comparison ends where memory is refused, and where
the buffer that is needed is too large to be asked for. -/
def Fault.hideRoom : Fault → Option Fault
  | cannotAllocate _ => none
  | cannotGrow _ _ => none
  | additionOverflow => none
  | writePositionOutside position low _ => some (.writePositionOutside position low 0)
  | f => some f

/-- An answer that is not about the allocator. -/
def Answer.hideRoom : Answer → Answer
  | counters _ => counters .none
  | x => x

/-- The positions and the bytes. -/
def Snapshot.hideRoom (x : Snapshot) : Snapshot := { x with capacity := 0, storage := .inline }

/-- Everything but capacity, storage and allocator. -/
def Observer.roomless : Observer := ⟨Fault.hideRoom, Answer.hideRoom, Snapshot.hideRoom⟩

/-- The operation neither shows the capacity or the storage of a stream nor uncovers what is behind
its write position. -/
def Op.Discreet : Op → Stream → Prop
  | query .describe, _ => False
  | query .describeLines, _ => False
  | position (.setWritePos p), s => p ≤ s.writePos
  | _, _ => True

namespace Stream

/-! ## Operations on positions -/

/-- Positions move in the same way, or the same is wrong with them. -/
theorem Twins.run_position {s t : Stream} (h : s.Twins t) {x : PositionOp}
    (hx : (Op.position x).Discreet s) :
    (∃ s' t', x.perform.run s = .ok ((), s') ∧ x.perform.run t = .ok ((), t') ∧ s'.Twins t') ∨
      ∃ f g, x.perform.run s = .error f ∧ x.perform.run t = .error g ∧ f.hideRoom = g.hideRoom := by
  have halike := h.alike
  cases x with
  | reset | resetWrite =>
    have hreset := (h.agreeTo (Nat.zero_le _)).reset halike.left halike.right
    exact .inl ⟨_, _, rfl, rfl, hreset⟩
  | resetRead => exact .inl ⟨_, _, rfl, rfl, h.moveRead (Nat.zero_le _)⟩
  | setReadPos position =>
    have hiff : position ≤ t.writePos ↔ position ≤ s.writePos := by rw [halike.writePos_eq]
    simp only [PositionOp.perform, run_setReadPos, hiff]
    by_cases hp : position ≤ s.writePos
    · rw [if_pos hp, if_pos hp]
      exact .inl ⟨_, _, rfl, rfl, h.moveRead hp⟩
    · rw [if_neg hp, if_neg hp, halike.writePos_eq]
      exact .inr ⟨_, _, rfl, rfl, rfl⟩
  | setWritePos position =>
    have hp : position ≤ s.writePos := hx
    have hagree := h.agreeTo hp
    simp only [PositionOp.perform, run_setWritePos, h.readOnly_eq, halike.readPos_eq]
    cases s.readOnly with
    | true => exact .inr ⟨_, _, rfl, rfl, rfl⟩
    | false =>
      rw [if_neg Bool.false_ne_true, if_neg Bool.false_ne_true]
      by_cases h1 : s.readPos ≤ position
      · have hmoved := hagree.moveWrite halike.left halike.right halike.readPos_eq h1
        rw [if_pos ⟨h1, Nat.le_trans hp halike.left.writePos_le⟩,
          if_pos ⟨h1, Nat.le_trans hagree.le_right halike.right.writePos_le⟩]
        exact .inl ⟨_, _, rfl, rfl, hmoved⟩
      · rw [if_neg fun h => h1 h.1, if_neg fun h => h1 h.1]
        exact .inr ⟨_, _, rfl, rfl, rfl⟩
  | expectEnd =>
    simp only [PositionOp.perform, run_expectEnd, halike.payload_eq]
    by_cases h0 : s.payload = 0
    · rw [if_pos h0, if_pos h0]
      exact .inl ⟨_, _, rfl, rfl, h⟩
    · rw [if_neg h0, if_neg h0]
      exact .inr ⟨_, _, rfl, rfl, rfl⟩

theorem Twins.coupled_position {s t : Stream} (h : s.Twins t) {x : PositionOp}
    (hx : (Op.position x).Discreet s) (a b : Allocator) :
    Coupled Fault.hideRoom Eq (fun b c => b.stream.Twins c.stream) (onStream x.perform ⟨s, a⟩)
      (onStream x.perform ⟨t, b⟩) := by
  unfold onStream
  dsimp only
  rcases h.run_position hx with ⟨s', t', hs, ht, h'⟩ | ⟨f, g, hs, ht, hseen⟩
  · rw [hs, ht]
    exact .ok rfl h'
  · rw [hs, ht]
    exact .error hseen

/-! ## Writes -/

/-- What a write looks at, but for the room. -/
structure Level (b c : Backed) : Prop where
  setup_eq : c.stream.setup = b.stream.setup
  readOnly_eq : c.stream.readOnly = b.stream.readOnly
  writePos_eq : c.stream.writePos = b.stream.writePos

theorem Twins.level {s t : Stream} (h : s.Twins t) (a b : Allocator) : Level ⟨s, a⟩ ⟨t, b⟩ :=
  ⟨h.setup_eq, h.readOnly_eq, h.alike.writePos_eq⟩

/-- Room is made, or there is no memory for it. -/
theorem reserve_cases {n : Nat} {b : Backed} (hw : b.stream.readOnly = false)
    (hp : b.stream.writePos + n < positionLimit) :
    (∃ b', reserve n b = .ok () b' ∧ Level b b') ∨
      ∃ f b', reserve n b = .error f b' ∧ f.hideRoom = none := by
  rw [reserve_eq, hw, if_neg Bool.false_ne_true, if_neg (Nat.not_le.2 hp)]
  split
  · exact .inl ⟨b, rfl, rfl, rfl, rfl⟩
  · rename_i hfull
    split
    · exact .inr ⟨_, _, rfl, rfl⟩
    · rw [grow_eq (size_le_growTarget (Nat.lt_of_not_le hfull))]
      split
      · exact .inl ⟨_, rfl, rfl, hw.symm, rfl⟩
      · refine .inr ⟨_, _, rfl, ?_⟩
        unfold denial
        split <;> rfl

/-- Writes do not look at the storage, and at the room only to make more of it. -/
theorem transparent_level : Transparent Fault.hideRoom Level where
  strict_eq h := by rw [h.setup_eq]
  writePos_eq h := h.writePos_eq
  reserve {b c} h n := by
    cases hw : b.stream.readOnly with
    | true =>
      rw [reserve_eq, reserve_eq, h.readOnly_eq, hw]
      exact .error rfl
    | false =>
      by_cases hp : positionLimit ≤ b.stream.writePos + n
      · rw [reserve_eq, reserve_eq, h.readOnly_eq, h.writePos_eq, hw, if_neg Bool.false_ne_true,
          if_neg Bool.false_ne_true, if_pos hp, if_pos hp]
        exact .error rfl
      · -- the capacities differ: one run may have to grow its buffer where the other has room
        rcases reserve_cases hw (Nat.lt_of_not_le hp) with ⟨b', hb, hb'⟩ | ⟨f, b', hb, hlost⟩
        · have hw' := h.readOnly_eq.trans hw
          have hp' : c.stream.writePos + n < positionLimit := by
            rw [h.writePos_eq]
            exact Nat.lt_of_not_le hp
          rcases reserve_cases hw' hp' with ⟨c', hc, hc'⟩ | ⟨f, c', hc, hlost⟩
          · rw [hb, hc]
            exact .ok rfl ⟨by rw [hc'.setup_eq, h.setup_eq, hb'.setup_eq],
              by rw [hc'.readOnly_eq, h.readOnly_eq, hb'.readOnly_eq],
              by rw [hc'.writePos_eq, h.writePos_eq, hb'.writePos_eq]⟩
          · rw [hc]
            exact .right hlost
        · rw [hb]
          exact .left hlost
  store h _ _ _ _ _ n := ⟨h.setup_eq, h.readOnly_eq, congrArg (· + n) h.writePos_eq⟩

theorem Twins.coupled_write {s t : Stream} (h : s.Twins t) (op : WriteOp) (a b : Allocator) :
    Coupled Fault.hideRoom Eq (fun b c => b.stream.Twins c.stream) (op.perform ⟨s, a⟩)
      (op.perform ⟨t, b⟩) := by
  refine (op.writing.uniform _ _ transparent_level _ _ (h.level a b)).imp fun n m b' c' hb hc hn _ => ⟨hn, ?_⟩
  have hext := (op.appends s a n b' h.alike.left hb).2
  have hext' := (op.appends t b m c' h.alike.right hc).2
  rw [h.setup_eq, h.alike.writePos_eq] at hext'
  exact h.extends hext hext'

theorem Twins.coupled_reserve {s t : Stream} (h : s.Twins t) (n : Nat) (a b : Allocator) :
    Coupled Fault.hideRoom Eq (fun b c => b.stream.Twins c.stream) (reserve n ⟨s, a⟩)
      (reserve n ⟨t, b⟩) := by
  refine (transparent_level.reserve (h.level a b) n).imp fun _ _ b' c' hb hc hn _ => ⟨hn, ?_⟩
  exact h.extends (h.alike.left.extends_of_reserve hb).1 (h.alike.right.extends_of_reserve hc).1

theorem Twins.coupled_transfer {s t σ τ : Stream} (h : s.Twins t) (h' : σ.Twins τ) (n : Nat)
    (a b : Allocator) :
    Coupled Fault.hideRoom (fun p q => p.1 = q.1 ∧ p.2.Twins q.2)
      (fun b c => b.stream.Twins c.stream) (transfer σ n ⟨s, a⟩) (transfer τ n ⟨t, b⟩) := by
  refine (Stream.coupled_transfer transparent_level n h'.alike (h.level a b)).imp ?_
  rintro ⟨k, σ'⟩ ⟨_, τ'⟩ b' c' hb hc ⟨rfl, hmoved⟩ -
  obtain ⟨-, hn, rfl, hext⟩ := transfer_eq_ok hb
  obtain ⟨-, -, rfl, hext'⟩ := transfer_eq_ok hc
  have hle := h'.alike.left.readPos_le
  unfold payload at hn
  have hext' := hext' h.alike.right
  rw [h'.alike.readPos_eq, h'.alike.bitsFrom_eq (by omega)] at hext'
  exact ⟨⟨rfl, hmoved, h'.setup_eq, h'.readOnly_eq⟩, h.extends (hext h.alike.left) hext'⟩

end Stream

open Bitwire.Stream

/-! ## New streams and copies -/

theorem coupled_allocate (bytes : Nat) (a b : Allocator) :
    Coupled Fault.hideRoom Eq (fun _ _ => True) (Allocator.allocate bytes a)
      (Allocator.allocate bytes b) := by
  rcases allocate_cases bytes a with ⟨a', ha⟩ | ⟨a', ha⟩
  · rcases allocate_cases bytes b with ⟨b', hb⟩ | ⟨b', hb⟩
    · rw [ha, hb]
      exact .ok rfl trivial
    · rw [hb]
      exact .right rfl
  · rw [ha]
    exact .left rfl

theorem coupled_clone_twins {s t : Stream} (h : s.Twins t) (a b : Allocator) :
    Coupled Fault.hideRoom Twins (fun _ _ => True) (s.clone a) (t.clone b) := by
  -- one of them may own a buffer and ask for another where the other one does not
  rcases clone_cases s a with ⟨a', ha⟩ | ⟨a', ha⟩
  · rcases clone_cases t b with ⟨b', hb⟩ | ⟨b', hb⟩
    · rw [ha, hb]
      exact .ok h trivial
    · rw [hb]
      exact .right rfl
  · rw [ha]
    exact .left rfl

/-! ## Operations -/

/-- A discreet operation does the same on streams that look the same, and gives the same answer. -/
theorem coupled_op_twins {op : Op} {s t : Stream} (hop : op.Discreet s) (h : s.Twins t)
    (a b : Allocator) :
    Coupled Fault.hideRoom (fun v w => v.hideRoom = w.hideRoom) (fun b c => b.stream.Twins c.stream)
      (op.perform ⟨s, a⟩) (op.perform ⟨t, b⟩) := by
  cases op with
  | query q =>
    cases q with
    | describe | describeLines => exact absurd hop id
    | facts =>
      have hfacts : s.ask .facts = t.ask .facts := by
        simp only [ask, h.alike.payload_eq, h.alike.writtenBytes_eq, h.readOnly_eq, h.setup_eq]
      exact .ok (congrArg Answer.hideRoom hfacts) h
    | bytes | bitDump | hexDump =>
      refine .ok ?_ h
      simp only [ask, h.alike.bytes_eq, h.alike.writePos_eq]
  | position x =>
    exact (h.coupled_position hop a b).bind fun _ _ _ _ _ h' => .ok rfl h'
  | read x =>
    refine (coupled_onStream x.reading h.alike a b).imp fun v _ b' c' _ _ hv hbc => ?_
    obtain ⟨position, hp, rfl, rfl⟩ := hbc
    exact ⟨congrArg Answer.hideRoom hv, h.moveRead hp⟩
  | reserve n => exact (h.coupled_reserve n a b).bind fun _ _ _ _ _ h' => .ok rfl h'
  | write x =>
    refine (h.coupled_write x a b).bind fun n _ b' c' hn h' => .ok ?_ h'
    rw [hn]

/-- Streams that look the same are alike to an observer that does not look at the room. -/
def roomLikeness : Likeness .roomless where
  Setups := Eq
  Streams := Twins
  Allocators _ _ := True
  Allowed := Op.Discreet
  alike := Twins.alike
  snapshot_eq {s t} h := by
    simp only [Observer.roomless, Snapshot.hideRoom, Stream.snapshot, h.alike.writePos_eq,
      h.alike.readPos_eq, h.alike.bytes_eq]
  counters_eq _ := rfl
  make {p q a b} origin h _ := by
    subst h
    refine (coupled_make trivial (coupled_allocate · a b) origin).imp
      fun s t _ _ hs _ hst _ => ⟨?_, trivial⟩
    obtain ⟨rfl, rfl⟩ := hst
    exact ⟨⟨valid_make hs, valid_make hs, rfl, rfl⟩, rfl, rfl⟩
  clone h _ := coupled_clone_twins h _ _
  release {s t a b} _ _ := by
    obtain ⟨a', ha⟩ := release_eq_ok s a
    obtain ⟨b', hb⟩ := release_eq_ok t b
    rw [ha, hb]
    exact .ok rfl trivial
  perform hop h _ := (coupled_op_twins hop h _ _).imp fun _ _ _ _ _ _ hv h' => ⟨hv, h', trivial⟩
  transfer n h h' _ := (h.coupled_transfer h' n _ _).imp fun _ _ _ _ _ _ hv h' => ⟨hv, h', trivial⟩

/-! ## Sessions -/

variable {count : Nat}

/-- In each slot of the second workspace there is a stream that looks the same as in the first. -/
def Workspace.SameFace (w w' : Workspace count) : Prop :=
  ∀ slot : Slot count, Option.Rel Stream.SameFace (w.stream? slot) (w'.stream? slot)

/-- No request for memory is refused in a session, and none is too large to be made. -/
def Workspace.NeverRefused (xs : List (Except Fault (Step count))) (w : Workspace count) : Prop :=
  ∀ f, .error f ∈ (steps xs w).1 → ¬ f.Refusal ∧ f ≠ .additionOverflow

theorem Fault.hideRoom_ne_none {f : Fault} (h : ¬ f.Refusal ∧ f ≠ .additionOverflow) :
    f.hideRoom ≠ none := by
  cases f with
  | cannotAllocate | cannotGrow => exact absurd trivial h.1
  | additionOverflow => exact absurd rfl h.2
  | _ => exact Option.some_ne_none _

theorem Workspace.neverRefused_of_isOk {xs : List (Except Fault (Step count))} {w : Workspace count}
    (h : (steps xs w).1.all Except.isOk = true) : w.NeverRefused xs := by
  intro f hf
  have hok := List.all_eq_true.1 h _ hf
  contradiction

theorem Workspace.SameFace.roomLikeness {w w' : Workspace count} (h : w.SameFace w') (hw : w.Sound)
    (hw' : w'.Sound) : roomLikeness.Workspaces w w' := by
  refine ⟨trivial, fun slot => ?_⟩
  have hslot := h slot
  have hs : ∀ s, w.stream? slot = some s → s.Reachable := fun s hs =>
    hw s (Workspace.mem_of_stream? hs)
  have ht : ∀ t, w'.stream? slot = some t → t.Reachable := fun t ht =>
    hw' t (Workspace.mem_of_stream? ht)
  generalize w.stream? slot = x at hslot hs ⊢
  generalize w'.stream? slot = y at hslot ht ⊢
  cases hslot with
  | none => exact .none
  | some hst => exact .some ((twins_iff_sameFace (hs _ rfl).valid (ht _ rfl).valid).2 hst)

/-- Every session that is discreet and gets the memory it asks for gives reports that look the same on
both. -/
def Workspace.Indistinguishable (w w' : Workspace count) : Prop :=
  ∀ xs, w.Throughout Op.Discreet xs → w.NeverRefused xs → w'.NeverRefused xs →
    (steps xs w).1.map Observer.roomless.look = (steps xs w').1.map Observer.roomless.look

theorem indistinguishable_of_roomLikeness {w w' : Workspace count} (h : roomLikeness.Workspaces w w') :
    w.Indistinguishable w' := by
  intro xs hxs hleft hright
  have hsteps := List.forall₂_same.2 fun x (_ : x ∈ xs) =>
    Likeness.Steps.refl (L := roomLikeness) (fun _ => rfl) x
  exact Likeness.reports_alike hsteps h hxs
    (fun f hf => Fault.hideRoom_ne_none (hleft f hf))
    fun f hf => Fault.hideRoom_ne_none (hright f hf)

/-- However two streams came to look the same, wherever they are kept and whoever gave them memory, they
give the same answers, positions and bytes in every session, and the same fault, if there is one. And
what was behind the new write position of a stream that is rewound never shows again: two streams whose
bits agree up to there cannot be told apart from then on. -/
theorem history_unobservable {w w' : Workspace count} (hw : w.Sound) (hw' : w'.Sound)
    (hface : w.SameFace w') :
    w.Indistinguishable w' ∧
      ∀ (x : PositionOp) (position : Nat) (s t u v : Stream), x.Rewinds position →
        s.Reachable → t.Reachable → s.AgreeTo position t →
        x.perform.run s = .ok ((), u) → x.perform.run t = .ok ((), v) → v.readPos = u.readPos →
        ∀ slot, (w.put slot (some u)).Indistinguishable (w'.put slot (some v)) := by
  have halike := hface.roomLikeness hw hw'
  refine ⟨indistinguishable_of_roomLikeness halike, ?_⟩
  -- rewound streams are put among streams that look the same, so this is another case of the above
  intro x position s t u v hx hs ht hagree hu hv hread slot
  have htwins := hagree.rewound hs.valid ht.valid hx hu hv hread
  exact indistinguishable_of_roomLikeness (halike.put slot (.some htwins))

/-- A byte in a fresh stream and the same byte in front of another one that was taken back: padded with
zeros, both streams have the same bytes. -/
theorem history_unobservable_stale :
    ∃ s t : Stream, s.buffer.byteAt 1 = .ok 0 ∧ t.buffer.byteAt 1 = .ok 0xFF ∧
      Workspace.Indistinguishable ((Workspace.start .system).put .first (some s))
        ((Workspace.start (.counting {})).put .first (some t)) ∧
      (Workspace.steps [.ok (.act .first (.write (.padTo 2))), .ok (.act .first (.query .bytes))]
        ((Workspace.start .system).put .first (some s))).1.map Observer.roomless.look =
      (Workspace.steps [.ok (.act .first (.write (.padTo 2))), .ok (.act .first (.query .bytes))]
        ((Workspace.start (.counting {})).put .first (some t))).1.map Observer.roomless.look := by
  have hs : Reachable (filled {} [0xA5]) := reachable_filled {} (by decide)
  have ht : Reachable (filled {} [0xA5, 0xFF]) := reachable_filled {} (by decide)
  have hagree : AgreeTo 8 (filled {} [0xA5]) (filled {} [0xA5, 0xFF]) :=
    ⟨rfl, Eq.refl false, Nat.le_refl 8, (by decide : 8 ≤ 16), by decide +kernel⟩
  have hempty : (Workspace.start .system : Workspace).SameFace (Workspace.start (.counting {})) := by
    intro slot
    simp
  have hu := (setWritePos_eq_ok_iff (s := filled {} [0xA5])).2
    ⟨Eq.refl false, Nat.zero_le 8, hs.valid.writePos_le, rfl⟩
  have hv := (setWritePos_eq_ok_iff (s := filled {} [0xA5, 0xFF])).2
    ⟨Eq.refl false, Nat.zero_le 8, Nat.le_trans (by decide : 8 ≤ 16) ht.valid.writePos_le, rfl⟩
  have hlike := (history_unobservable (Workspace.sound_start _) (Workspace.sound_start _) hempty).2
    (.setWritePos 8) 8 _ _ _ _ (.setWritePos 8) hs ht hagree hu hv (Eq.refl 0) .first
  refine ⟨_, _, ?_, ?_, hlike, hlike _ ?_ ?_ ?_⟩
  · decide +kernel
  · decide +kernel
  · refine Workspace.throughout_of_forall (fun slot op hop _ => ?_) _
    have hop : slot = .first ∧ op = .write (.padTo 2) ∨ slot = .first ∧ op = .query .bytes := by
      simpa using hop
    obtain ⟨-, rfl⟩ | ⟨-, rfl⟩ := hop
    · trivial
    · trivial
  · exact Workspace.neverRefused_of_isOk (by decide +kernel)
  · exact Workspace.neverRefused_of_isOk (by decide +kernel)

end Bitwire
