import Bitwire.Proofs.Message
import Bitwire.Proofs.Wire.Write

/-!
# Sequences of changes

A sender that has sent a value sends the next one as a change of it, and the receiver updates what it
holds. The two sides need not hold the same: a sender compares floating-point values as numbers, so that
a zero is not sent where the receiver holds one of the other sign, and it compares addresses with flow
and scope, which do not go on the wire. What the receiver holds tracks what the sender sent last, and
every step keeps that, sent or not.

* `DeltaForm`: how a step is sent and received; `DeltaForm.marked`: whether it counts as changed.
* `Kind.Tracks`: what the receiver may hold for a value; `Tracks.of_same`: it stays so for one that
  counts as unchanged.
* `sendAll`, `receiveAll`: a sender that writes all steps to one stream, and a receiver that reads them
  from one stream.
* `Change.follows`: one step, `followed_of_sendAll`: all of them.
* `sentBits`, `exists_sendAll_eq_ok`: room for which a sender is not refused.
* `delta_tracks`: what the receiver holds after each step, and what the steps cost.
-/

namespace Bitwire

open Bitwire.Stream

/-! ## Steps -/

/-- How a step is sent: as a change of the last value, as changed, or as a change whose value is in its
mini code. -/
inductive DeltaForm
  | changed
  | unknown
  | mini
deriving DecidableEq

namespace DeltaForm

/-- The write of a step from `last` to `v`. -/
def write (k : Kind) (v last : k.Val) : DeltaForm → WriteOp
  | changed => .changed k v last
  | unknown => .changedUnknown k v
  | mini => .miniChanged k v last

/-- The read of a step by a receiver that holds `dest`: whether there was a change, and what it holds
then. -/
def receive (k : Kind) (dest : k.Val) : DeltaForm → StreamM (Bool × k.Val)
  | changed | unknown => k.readChanged dest
  | mini => k.readMiniChanged dest

/-- Whether a step counts as changed. -/
def marked (k : Kind) (v last : k.Val) : DeltaForm → Bool
  | changed | mini => !k.same v last
  | unknown => true

end DeltaForm

/-! ## What the receiver holds -/

/-- The same number, or the same pattern that is no number. -/
def Binary.Tracks {p : Precision} (dest v : Binary p) : Prop :=
  dest.same v = true ∨ v.isNaN = true ∧ dest = v

/-- What a receiver may hold for a value: an equal number or the same pattern where the kind is
floating-point, the same address up to flow and scope, and else the value itself. -/
def Kind.Tracks : (k : Kind) → k.Val → k.Val → Prop
  | single, dest, v => Binary.Tracks dest v
  | double, dest, v => Binary.Tracks dest v
  | socket, dest, v => dest.received = v.received
  | int _, dest, v => dest = v
  | bool, dest, v => dest = v
  | u24, dest, v => dest = v
  | guid, dest, v => dest = v
  | v4, dest, v => dest = v

namespace Binary

variable {p : Precision} {x y z : Binary p}

theorem same_iff : x.same y = true ↔ x.isNaN = false ∧ y.isNaN = false ∧ x.rank = y.rank := by
  simp [same, and_assoc]

theorem tracks_self (x : Binary p) : x.Tracks x := by
  cases h : x.isNaN with
  | true => exact .inr ⟨h, rfl⟩
  | false => exact .inl (same_iff.2 ⟨h, h, rfl⟩)

theorem Tracks.of_same (h : x.Tracks y) (hsame : z.same y = true) : x.Tracks z := by
  obtain ⟨hz, hy, hzy⟩ := same_iff.1 hsame
  rcases h with hxy | ⟨hnan, -⟩
  · obtain ⟨hx, -, hrank⟩ := same_iff.1 hxy
    exact .inl (same_iff.2 ⟨hx, hz, hrank.trans hzy.symm⟩)
  · rw [hy] at hnan
    contradiction

end Binary

namespace Kind

theorem received_received (a : Socket) : a.received.received = a.received := by
  cases a <;> rfl

/-- What comes back of a value tracks it. -/
theorem tracks_received (k : Kind) (v : k.Val) : k.Tracks (k.received v) v := by
  cases k with
  | single | double => exact Binary.tracks_self v
  | socket => exact received_received v
  | int | bool | u24 | guid | v4 => rfl

theorem tracks_self (k : Kind) (v : k.Val) : k.Tracks v v := by
  cases k with
  | single | double => exact Binary.tracks_self v
  | socket | int | bool | u24 | guid | v4 => rfl

/-- What is held for a value is held for one that counts as unchanged. -/
theorem Tracks.of_same {k : Kind} {dest last v : k.Val} (h : k.Tracks dest last)
    (hsame : k.same v last = true) : k.Tracks dest v := by
  cases k with
  | single | double => exact Binary.Tracks.of_same h hsame
  | socket =>
    obtain rfl := of_decide_eq_true hsame
    exact h
  | int | bool | u24 | guid | v4 =>
    obtain rfl := of_decide_eq_true hsame
    exact h

end Kind

/-! ## Steps on the wire -/

namespace Kind

theorem readChanged_eq {k : Kind} (hk : k ≠ bool) (dest : k.Val) :
    k.readChanged dest = readFlagged k.read dest := by
  cases k with
  | bool => exact absurd rfl hk
  | int | single | double | u24 | guid | v4 | socket => rfl

theorem readMiniChanged_eq {k : Kind} (hk : k ≠ bool) (dest : k.Val) :
    k.readMiniChanged dest = readFlagged k.readMini dest := by
  cases k with
  | bool => exact absurd rfl hk
  | int | single | double | u24 | guid | v4 | socket => rfl

section Flagged

variable {α : Type} (x : StreamM α) (dest : α) (position : Nat)

theorem decodes_readFlagged_false : Decodes (readFlagged x dest) position [false] (false, dest) :=
  .flag_false (.pure (false, dest) _)

theorem decodes_readFlagged_true {x} {bits : List Bool} {v : α}
    (hx : Decodes x (position + 1) bits v) :
    Decodes (readFlagged x dest) position (true :: bits) (true, v) :=
  .flag_true (hx.map fun v => (true, v))

end Flagged

theorem decodes_readToggled (dest b : Bool) (position : Nat) :
    Decodes (readToggled dest) position [b] (dest != b, b) :=
  (decodes_readBit b position).map fun b => (dest != b, b)

end Kind

namespace DeltaForm

variable {k : Kind} (form : DeltaForm) (o : ByteOrder) (p q : Nat)

/-- A flag stands for itself, whatever the last one was. -/
theorem bits_bool (v last : Bool) : (form.write .bool v last).bits o p = [v] := by
  cases form with
  | changed => rw [write, WriteOp.bits, Kind.changedCode, if_neg (by simp)]; rfl
  | unknown => rfl
  | mini => rfl

theorem decodes_bool (v last dest : Bool) :
    Decodes (form.receive .bool dest) q ((form.write .bool v last).bits o p) (dest != v, v) := by
  rw [bits_bool]
  cases form with
  | changed | unknown | mini => exact Kind.decodes_readToggled dest v q

section Numbers

variable (hk : k ≠ .bool) (v last dest : k.Val)
include hk

theorem bits_unmarked (h : form.marked k v last = false) :
    (form.write k v last).bits o p = [false] := by
  cases form with
  | changed =>
    have hsame : k.same v last = true := by simpa [marked] using h
    rw [write, WriteOp.bits, Kind.changedCode, if_pos ⟨hk, hsame⟩]
    rfl
  | unknown => contradiction
  | mini =>
    have hsame : k.same v last = true := by simpa [marked] using h
    rw [write, WriteOp.bits, if_neg hk, if_pos hsame]

theorem decodes_unmarked (h : form.marked k v last = false) :
    Decodes (form.receive k dest) q ((form.write k v last).bits o p) (false, dest) := by
  rw [form.bits_unmarked o p hk v last h]
  cases form with
  | changed | unknown =>
    rw [receive, Kind.readChanged_eq hk]
    exact Kind.decodes_readFlagged_false _ dest q
  | mini =>
    rw [receive, Kind.readMiniChanged_eq hk]
    exact Kind.decodes_readFlagged_false _ dest q

theorem decodes_marked (hexact : form = .mini → k.Exact) (h : form.marked k v last = true) :
    Decodes (form.receive k dest) q ((form.write k v last).bits o p) (true, k.received v) := by
  have hunknown : (k.unknownCode o v).bits p = true :: (k.code o v).bits (q + 1) := by
    rw [Kind.unknownCode, if_neg hk, Code.bits_cons, k.bits_code, k.bits_code]
    rfl
  cases form with
  | changed =>
    have hsame : ¬ k.same v last = true := by simpa [marked] using h
    rw [receive, Kind.readChanged_eq hk, write, WriteOp.bits, Kind.changedCode,
      if_neg fun hboth => hsame hboth.2, hunknown]
    exact Kind.decodes_readFlagged_true dest q (k.decodes_read o v _)
  | unknown =>
    rw [receive, Kind.readChanged_eq hk, write, WriteOp.bits, hunknown]
    exact Kind.decodes_readFlagged_true dest q (k.decodes_read o v _)
  | mini =>
    have hsame : ¬ k.same v last = true := by simpa [marked] using h
    obtain ⟨bits, hwire⟩ := (hexact rfl).exists_miniWire v
    obtain ⟨code, hcode, hbits⟩ := Kind.bits_mini o hwire
    have hmini : Code.checkedBits (p + 1) (k.mini o v) = code.bits (q + 1) := by
      rw [hcode, Code.checkedBits, hbits, hbits]
    rw [receive, Kind.readMiniChanged_eq hk, write, WriteOp.bits, if_neg hk, if_neg hsame, hmini]
    exact Kind.decodes_readFlagged_true dest q (k.decodes_readMini o (hexact rfl) v hcode _)

end Numbers

end DeltaForm

/-! ## Sequences of steps -/

/-- A value to be sent, and how. -/
structure Change (k : Kind) where
  form : DeltaForm
  value : k.Val

/-- What the write of a step leaves: the number of bits that it returned, and the write position. -/
structure Sent where
  cost : Nat
  position : Nat
deriving DecidableEq

/-- What the read of a step leaves: whether it reported a change, what the receiver holds, and the read
position. -/
structure Receipt (k : Kind) where
  changed : Bool
  dest : k.Val
  position : Nat

/-- Sends values one after the other, each as a step from the one before it. -/
def sendAll {k : Kind} : k.Val → List (Change k) → WriteM (List Sent)
  | _, [] => pure []
  | last, c :: cs => do
    let cost ← (c.form.write k c.value last).perform
    let position := (← get).stream.writePos
    let rest ← sendAll c.value cs
    pure (⟨cost, position⟩ :: rest)

/-- Receives steps one after the other, each into what the receiver holds after the one before it. -/
def receiveAll {k : Kind} : k.Val → List DeltaForm → StreamM (List (Receipt k))
  | _, [] => pure []
  | dest, form :: forms => do
    let (changed, dest) ← form.receive k dest
    let position := (← get).readPos
    let rest ← receiveAll dest forms
    pure (⟨changed, dest, position⟩ :: rest)

/-- The streams from which a receiver reads what was appended to `s`, which became `t`: the stream itself,
and a view of its bytes, which may be set up in another way. What `s` held has been read. -/
inductive Receives (s t : Stream) : Stream → Prop
  | own : Receives s t { t with readPos := s.writePos }
  | view (setup : Setup) : Receives s t { view setup t.bytes with readPos := s.writePos }

/-- After a step that began at the write position `start`, the receiver, which held `dest`, holds a value
that tracks the one that was sent. It reports whether the step counts as changed; one that does not costs
one bit and leaves what it holds as it was. Flags always cost one bit, and a change of one is reported
where there was one. What a step costs is what it appended, and the receiver has read exactly that. -/
structure Receipt.Follows {k : Kind} (r : Receipt k) (c : Change k) (sent : Sent) (start : Nat)
    (last dest : k.Val) : Prop where
  tracks : k.Tracks r.dest c.value
  flag : k ≠ .bool → r.changed = c.form.marked k c.value last
  unchanged : k ≠ .bool → c.form.marked k c.value last = false → sent.cost = 1 ∧ r.dest = dest
  toggled : k = .bool → sent.cost = 1 ∧ (r.changed = true ↔ r.dest ≠ dest)
  appended : sent.position = start + sent.cost
  position : r.position = sent.position

/-- The receipts follow the steps, which begin at the write position `start`, from a sender that sent
`last` before and a receiver that holds `dest`. -/
inductive Followed {k : Kind} :
    Nat → k.Val → k.Val → List (Change k) → List Sent → List (Receipt k) → Prop
  | nil {start : Nat} {last dest : k.Val} : Followed start last dest [] [] []
  | cons {start : Nat} {last dest : k.Val} {c : Change k} {sent : Sent} {r : Receipt k}
      {cs : List (Change k)} {sents : List Sent} {rs : List (Receipt k)} :
      r.Follows c sent start last dest → Followed sent.position c.value r.dest cs sents rs →
      Followed start last dest (c :: cs) (sent :: sents) (r :: rs)

theorem sendAll_cons_eq_ok {k : Kind} {last : k.Val} {c : Change k} {cs : List (Change k)}
    {sents : List Sent} {b b'' : Backed} (h : sendAll last (c :: cs) b = .ok sents b'') :
    ∃ cost b' rest, (c.form.write k c.value last).perform b = .ok cost b' ∧
      sendAll c.value cs b' = .ok rest b'' ∧ sents = ⟨cost, b'.stream.writePos⟩ :: rest := by
  obtain ⟨cost, b', h1, h⟩ := bind_eq_ok_iff.1 h
  obtain ⟨rest, b₂, h2, h⟩ := (bind_eq_ok_iff (x := sendAll c.value cs)).1 h
  obtain ⟨rfl, rfl⟩ := pure_eq_ok_iff.1 h
  exact ⟨cost, b', rest, h1, h2, rfl⟩

theorem run_receiveAll_cons {k : Kind} {dest dest' : k.Val} {form : DeltaForm} {forms : List DeltaForm}
    {changed : Bool} {rs : List (Receipt k)} {s s' s'' : Stream}
    (h : (form.receive k dest).run s = .ok ((changed, dest'), s'))
    (hs : (receiveAll dest' forms).run s' = .ok (rs, s'')) :
    (receiveAll dest (form :: forms)).run s = .ok (⟨changed, dest', s'.readPos⟩ :: rs, s'') := by
  have htail : (do
      let position := (← get).readPos
      let rest ← receiveAll dest' forms
      pure (⟨changed, dest', position⟩ :: rest) : StreamM (List (Receipt k))).run s' =
        .ok (⟨changed, dest', s'.readPos⟩ :: rs, s'') :=
    run_bind_eq_ok_iff.2 ⟨s', s', rfl, run_bind_eq_ok_iff.2 ⟨rs, s'', hs, rfl⟩⟩
  exact run_bind_eq_ok_iff.2 ⟨(changed, dest'), s', h, htail⟩

/-- The receiver, whose value tracks the last one, gets a step out of its bits, and follows it. -/
theorem Change.follows {k : Kind} {c : Change k} {last : k.Val} {s : Stream} {a : Allocator} {cost : Nat}
    {b : Backed} (hs : s.Valid) (hexact : c.form = .mini → k.Exact)
    (h : (c.form.write k c.value last).perform ⟨s, a⟩ = .ok cost b) :
    ∃ bits, s.Extends bits b.stream ∧ ∀ dest : k.Val, k.Tracks dest last →
      ∃ changed dest', Decodes (c.form.receive k dest) s.writePos bits (changed, dest') ∧
        Receipt.Follows ⟨changed, dest', b.stream.writePos⟩ c ⟨cost, b.stream.writePos⟩ s.writePos last
          dest := by
  obtain ⟨hcost, hext⟩ := WriteOp.appends _ s a cost b hs h
  refine ⟨_, hext, fun dest ht => ?_⟩
  have happended : b.stream.writePos = s.writePos + cost := by rw [hext.writePos_eq, ← hcost]
  obtain ⟨form, v⟩ := c
  by_cases hk : k = .bool
  · subst hk
    have hone : cost = 1 := hcost.trans (congrArg List.length (form.bits_bool _ _ v last))
    exact ⟨dest != v, v, form.decodes_bool _ _ _ v last dest,
      { tracks := rfl
        flag := fun hne => absurd rfl hne
        unchanged := fun hne => absurd rfl hne
        toggled := fun _ => ⟨hone, bne_iff_ne.trans ne_comm⟩
        appended := happended
        position := rfl }⟩
  · cases hmarked : form.marked k v last with
    | true =>
      exact ⟨true, k.received v, form.decodes_marked _ _ _ hk v last dest hexact hmarked,
        { tracks := k.tracks_received v
          flag := fun _ => hmarked.symm
          unchanged := fun _ hno => absurd (hmarked.symm.trans hno) nofun
          toggled := fun heq => absurd heq hk
          appended := happended
          position := rfl }⟩
    | false =>
      have hone : cost = 1 := hcost.trans (congrArg List.length (form.bits_unmarked _ _ hk v last hmarked))
      have hsame : k.same v last = true := by
        cases form with
        | changed | mini => simpa [DeltaForm.marked] using hmarked
        | unknown => contradiction
      exact ⟨false, dest, form.decodes_unmarked _ _ _ hk v last dest hmarked,
        { tracks := ht.of_same hsame
          flag := fun _ => hmarked.symm
          unchanged := fun _ _ => ⟨hone, rfl⟩
          toggled := fun heq => absurd heq hk
          appended := happended
          position := rfl }⟩

/-- What all steps append is read by a receiver that stands in front of it. The induction goes over the
steps, each of which begins where the one before it ended, on either side. What the receiver holds need
not be what was sent; that it tracks it is the invariant. -/
theorem followed_of_sendAll {k : Kind} {last : k.Val} {changes : List (Change k)} {s : Stream}
    {a : Allocator} {sents : List Sent} {b : Backed} (hs : s.Valid)
    (hexact : ∀ c ∈ changes, c.form = .mini → k.Exact) (h : sendAll last changes ⟨s, a⟩ = .ok sents b) :
    ∃ bits, s.Extends bits b.stream ∧ ∀ (dest : k.Val) (r : Stream), k.Tracks dest last → r.Valid →
      r.readPos = s.writePos → bits <+: r.bits.drop r.readPos →
      ∃ receipts, (receiveAll dest (changes.map (·.form))).run r = .ok (receipts, r.passed bits.length) ∧
        Followed s.writePos last dest changes sents receipts := by
  induction changes generalizing last s a sents with
  | nil =>
    obtain ⟨rfl, rfl⟩ := pure_eq_ok_iff.1 h
    exact ⟨[], .refl hs, fun dest r _ _ _ _ => ⟨[], rfl, .nil⟩⟩
  | cons c cs ih =>
    obtain ⟨cost, ⟨t, a'⟩, rest, h1, h2, rfl⟩ := sendAll_cons_eq_ok h
    obtain ⟨hc, hcs⟩ := List.forall_mem_cons.1 hexact
    obtain ⟨xs, hext, hstep⟩ := Change.follows hs hc h1
    obtain ⟨ys, hext', hall⟩ := ih hext.valid hcs h2
    refine ⟨xs ++ ys, hext.trans hext', fun dest r ht hr hpos hbits => ?_⟩
    obtain ⟨hxs, hys⟩ := prefix_passed hbits
    obtain ⟨changed, dest', hread, hfollows⟩ := hstep dest ht
    have hnext : (r.passed xs.length).readPos = t.writePos := by
      rw [hext.writePos_eq, ← hpos]
      rfl
    obtain ⟨receipts, hrest, hfollowed⟩ := hall dest' _ hfollows.tracks (hr.passed hxs) hnext hys
    have hrun := run_receiveAll_cons (hread r hr hpos hxs) hrest
    rw [hnext, passed_passed, ← List.length_append] at hrun
    exact ⟨_, hrun, .cons hfollows hfollowed⟩

/-- A receiver stands in front of what was appended. -/
theorem Receives.heard {s t r : Stream} {bits : List Bool} (hr : Receives s t r) (hs : s.Valid)
    (ht : s.Extends bits t) :
    r.Valid ∧ r.readPos = s.writePos ∧ bits <+: r.bits.drop r.readPos := by
  cases hr with
  | own =>
    have hle : s.writePos ≤ t.writePos := by rw [ht.writePos_eq]; exact Nat.le_add_right _ _
    exact ⟨ht.valid.moveRead hle, rfl, [], (List.append_nil bits).trans (ht.drop_writePos hs).symm⟩
  | view setup =>
    have hbits : (Stream.view setup t.bytes).bits =
        s.bits ++ (bits ++ List.replicate (padding t.writePos) false) := by
      rw [bits_view, ht.valid.bitsOf_bytes, ht.bits_eq, List.append_assoc]
    have hlen := (valid_view setup t.bytes).length_bits
    rw [hbits, List.length_append, hs.length_bits] at hlen
    have hle : s.writePos ≤ (Stream.view setup t.bytes).writePos := by omega
    refine ⟨(valid_view setup t.bytes).moveRead hle, rfl, ?_⟩
    change bits <+: (Stream.view setup t.bytes).bits.drop s.writePos
    rw [hbits, ← hs.length_bits, List.drop_left]
    exact List.prefix_append _ _

/-! ## Room for all steps -/

/-- A step has a format, if its value has one. -/
theorem DeltaForm.exists_wire {k : Kind} (form : DeltaForm) (v last : k.Val)
    (hexact : form = .mini → k.Exact) : ∃ bits, (form.write k v last).wire = some bits := by
  cases form with
  | changed | unknown => exact ⟨_, rfl⟩
  | mini =>
    obtain ⟨bits, hwire⟩ := (hexact rfl).exists_miniWire v
    rw [write, WriteOp.wire, hwire]
    split
    · exact ⟨_, rfl⟩
    · split <;> exact ⟨_, rfl⟩

/-- Number of bits that the steps have in their formats, from a sender that sent `last` before. -/
def sentBits {k : Kind} : k.Val → List (Change k) → Nat
  | _, [] => 0
  | last, c :: cs =>
    ((c.form.write k c.value last).wire.getD []).length + sentBits c.value cs

/-- No step is refused where there can be room for all of them. -/
theorem exists_sendAll_eq_ok {k : Kind} {last : k.Val} {changes : List (Change k)} {s : Stream}
    {a : Allocator} (hs : s.Valid) (hexact : ∀ c ∈ changes, c.form = .mini → k.Exact)
    (hroom : s.Admits a (sentBits last changes)) :
    ∃ sents b, sendAll last changes ⟨s, a⟩ = .ok sents b := by
  induction changes generalizing last s a with
  | nil => exact ⟨[], _, rfl⟩
  | cons c cs ih =>
    obtain ⟨hc, hcs⟩ := List.forall_mem_cons.1 hexact
    obtain ⟨bits, hwire⟩ := c.form.exists_wire c.value last hc
    rw [sentBits, hwire, Option.getD_some] at hroom
    obtain ⟨happend, hok⟩ := (WriteOp.writesWire hwire).refines hs a
    obtain ⟨⟨t, a'⟩, h1⟩ := hok (hroom.mono (Nat.le_add_right _ _))
    have hext := (happend _ _ h1).2
    have hrest := hroom.of_extends hext ((WriteOp.writing _).later h1)
    obtain ⟨sents, b, h2⟩ := ih hext.valid hcs hrest
    exact ⟨_, b, bind_eq_ok_iff.2 ⟨_, _, h1, bind_eq_ok_iff.2 ⟨_, _, rfl,
      (bind_eq_ok_iff (x := sendAll c.value cs)).2 ⟨sents, b, h2, rfl⟩⟩⟩⟩

/-! ## Whole runs -/

/-- A sender knows the value that it sent last and writes others to a stream, each as a step from the one
before it. A receiver, whose value tracks the last one, reads all these steps, from the same stream or from
a view of its bytes. After each step what it holds tracks what was sent, and it stands where the sender
stood then; the flags, and what a step costs, are those of the steps. The sender is not refused where
there can be room for all steps. -/
theorem delta_tracks {k : Kind} {last : k.Val} {changes : List (Change k)} {s : Stream}
    (hs : s.Reachable) (hexact : ∀ c ∈ changes, c.form = .mini → k.Exact) (a : Allocator) :
    (∀ sents b, sendAll last changes ⟨s, a⟩ = .ok sents b →
      ∀ dest r, k.Tracks dest last → Receives s b.stream r →
        ∃ receipts r', (receiveAll dest (changes.map (·.form))).run r = .ok (receipts, r') ∧
          r' = { r with readPos := b.stream.writePos } ∧
          Followed s.writePos last dest changes sents receipts) ∧
      (s.Admits a (sentBits last changes) → ∃ sents b, sendAll last changes ⟨s, a⟩ = .ok sents b) := by
  refine ⟨fun sents b h dest r ht hr => ?_, exists_sendAll_eq_ok hs.valid hexact⟩
  obtain ⟨bits, hext, hall⟩ := followed_of_sendAll hs.valid hexact h
  obtain ⟨hvalid, hpos, hbits⟩ := hr.heard hs.valid hext
  obtain ⟨receipts, hrun, hfollowed⟩ := hall dest r ht hvalid hpos hbits
  refine ⟨receipts, _, hrun, ?_, hfollowed⟩
  rw [passed, hpos, hext.writePos_eq]

/-- From zero to the other zero, which is not sent, and then twice to the same pattern that is no number,
which is sent both times. A view of the bytes, on a host of the other order, receives all three. -/
theorem delta_tracks_zeros :
    ∃ (b : Backed) (r : Stream) (receipts : List (Receipt .single)),
      sendAll (k := .single) ⟨0#32⟩
        [⟨.changed, ⟨0x80000000#32⟩⟩, ⟨.changed, ⟨0x7FC00000#32⟩⟩, ⟨.changed, ⟨0x7FC00000#32⟩⟩]
        ⟨empty { order := .little }, .system⟩ = .ok [⟨1, 1⟩, ⟨33, 34⟩, ⟨33, 67⟩] b ∧
      (receiveAll (k := .single) ⟨0#32⟩ [.changed, .changed, .changed]).run
        (view { order := .big } b.stream.bytes) = .ok (receipts, r) ∧
      receipts.map (·.changed) = [false, true, true] ∧
      receipts.map (·.dest) = [⟨0#32⟩, ⟨0x7FC00000#32⟩, ⟨0x7FC00000#32⟩] ∧
      receipts.map (·.position) = [1, 34, 67] := by
  let changes : List (Change .single) :=
    [⟨.changed, ⟨0x80000000#32⟩⟩, ⟨.changed, ⟨0x7FC00000#32⟩⟩, ⟨.changed, ⟨0x7FC00000#32⟩⟩]
  have hempty : Reachable (empty { order := .little }) := .made _ .empty (a := .system) rfl
  obtain ⟨b, h⟩ : ∃ b, sendAll (k := .single) ⟨0#32⟩ changes ⟨empty { order := .little }, .system⟩ =
      .ok [⟨1, 1⟩, ⟨33, 34⟩, ⟨33, 67⟩] b := by
    have hrun : (match sendAll (k := .single) ⟨0#32⟩ changes ⟨empty { order := .little }, .system⟩ with
      | .ok sents _ => decide (sents = [⟨1, 1⟩, ⟨33, 34⟩, ⟨33, 67⟩])
      | .error _ _ => false) = true := by decide +kernel
    generalize sendAll _ changes ⟨empty { order := .little }, .system⟩ = r at hrun ⊢
    cases r with
    | ok sents b => exact ⟨b, by rw [of_decide_eq_true hrun]⟩
    | error f b => contradiction
  have hexact : ∀ c ∈ changes, c.form = .mini → Kind.Exact .single := by simp [changes]
  obtain ⟨receipts, r, hrun, -, hfollowed⟩ := (delta_tracks hempty hexact .system).1 _ b h _ _
    (Kind.tracks_self .single _) (.view { order := .big })
  simp only [changes] at hfollowed
  obtain - | ⟨f₁, - | ⟨f₂, - | ⟨f₃, ⟨⟩⟩⟩⟩ := hfollowed
  have hnan {x : Single} (h : Binary.Tracks x ⟨0x7FC00000#32⟩) : x = ⟨0x7FC00000#32⟩ :=
    (h.resolve_left fun hsame => absurd (Binary.same_iff.1 hsame).2.1 (by decide)).2
  have e₁ := f₁.flag nofun
  have e₂ := f₂.flag nofun
  have e₃ := f₃.flag nofun
  have z₁ := (f₁.unchanged nofun (by decide +kernel)).2
  refine ⟨b, r, _, h, hrun, ?_, ?_, ?_⟩
  · simp only [List.map_cons, List.map_nil, e₁, e₂, e₃]
    decide +kernel
  · simp only [List.map_cons, List.map_nil, z₁, hnan f₂.tracks, hnan f₃.tracks]
  · simp only [List.map_cons, List.map_nil, f₁.position, f₂.position, f₃.position]

end Bitwire
