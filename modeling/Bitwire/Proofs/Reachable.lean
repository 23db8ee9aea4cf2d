import Mathlib.Logic.Relation
import Bitwire.Proofs.Stream.Transfer
import Bitwire.Proofs.Write
import Bitwire.Session.Workspace

/-!
# Reachable streams

A stream is made by one of the constructors or as a copy of another one, and then changed by
operations and transfers. Every stream that comes about in this way is valid, and in all of its life
its buffer never shrinks and moves at most once, from inside the stream to the allocator.

* `Stream.Next`: one operation or transfer; `Stream.Reachable`: the streams that come about.
* `Valid.next`: an operation or transfer keeps a stream valid; `Reachable.valid`.
* `reachable_representation`: the representation of reachable streams.
-/

namespace Bitwire.Stream

/-- One operation that succeeds, or one transfer from or to some other stream. -/
inductive Next : Stream → Stream → Prop
  | perform {s : Stream} {a : Allocator} {op : Op} {v : Answer} {b : Backed} :
      op.perform ⟨s, a⟩ = .ok v b → Next s b.stream
  | receive {s source : Stream} {a : Allocator} {n : Nat} {r : Nat × Stream} {b : Backed} :
      transfer source n ⟨s, a⟩ = .ok r b → Next s b.stream
  | send {s s' : Stream} {n k : Nat} {b b' : Backed} :
      transfer s n b = .ok (k, s') b' → Next s s'

/-- The streams that constructors, copies, operations and transfers lead to. -/
inductive Reachable : Stream → Prop
  | made (setup : Setup) (origin : Origin) {a a' : Allocator} {s : Stream} :
      origin.make setup a = .ok s a' → Reachable s
  | cloned {s s' : Stream} {a a' : Allocator} :
      Reachable s → s.clone a = .ok s' a' → Reachable s'
  | next {s s' : Stream} : Reachable s → Next s s' → Reachable s'

/-! ## New streams -/

theorem valid_empty (setup : Setup) : (empty setup).Valid where
  readPos_le := Nat.le_refl _
  writePos_le := Nat.zero_le _
  size_inline := fun _ => Buffer.size_zeros _
  clean := Buffer.clean_mul _ 0

theorem valid_withCapacity {setup : Setup} {bytes : Nat} {a a' : Allocator} {s : Stream}
    (h : withCapacity setup bytes a = .ok s a') :
    s.Valid ∧ bytes ≤ s.buffer.size ∧ s.buffer = .zeros s.buffer.size ∧ s.readPos = 0 ∧
      s.writePos = 0 := by
  unfold withCapacity at h
  by_cases hi : bytes ≤ inlineBytes
  · rw [if_pos hi] at h
    cases h
    have hsize : (empty setup).buffer.size = inlineBytes := Buffer.size_zeros _
    exact ⟨valid_empty setup, by rw [hsize]; exact hi, by rw [hsize]; rfl, rfl, rfl⟩
  · rw [if_neg hi] at h
    obtain ⟨buffer, a₁, halloc, h⟩ := bind_eq_ok_iff.1 h
    cases h
    obtain ⟨-, rfl, -⟩ := allocate_eq_ok_iff.1 halloc
    have hsize := Buffer.size_zeros bytes
    refine ⟨⟨Nat.le_refl _, Nat.zero_le _, nofun, Buffer.clean_mul _ 0⟩, ?_, ?_, rfl, rfl⟩
    · exact Nat.le_of_eq hsize.symm
    · dsimp only
      rw [hsize]

/-- A source fits a stream of its size; behind it there are zeros. -/
theorem ofBytes_eq (setup : Setup) (src : List UInt8) (a : Allocator) :
    ofBytes setup src a = (do
      let s ← withCapacity setup src.length
      pure { s with buffer := Buffer.resize src.toArray s.buffer.size, writePos := 8 * src.length } :
        AllocM Stream) a := by
  refine bind_congr_of_ok fun s a' hmade => ?_
  obtain ⟨-, hle, hzeros, -⟩ := valid_withCapacity hmade
  rw [hzeros, Buffer.overwrite_zeros hle, ← hzeros]
  rfl

theorem ofBytes_eq_ok {setup : Setup} {src : List UInt8} {a a' : Allocator} {s : Stream}
    (h : ofBytes setup src a = .ok s a') :
    ∃ t, withCapacity setup src.length a = .ok t a' ∧
      s = { t with buffer := Buffer.resize src.toArray t.buffer.size, writePos := 8 * src.length } := by
  rw [ofBytes_eq] at h
  obtain ⟨t, a₁, hmade, h⟩ := bind_eq_ok_iff.1 h
  obtain ⟨rfl, rfl⟩ := pure_eq_ok_iff.1 h
  exact ⟨t, hmade, rfl⟩

theorem valid_ofBytes {setup : Setup} {src : List UInt8} {a a' : Allocator} {s : Stream}
    (h : ofBytes setup src a = .ok s a') : s.Valid := by
  obtain ⟨t, hmade, rfl⟩ := ofBytes_eq_ok h
  obtain ⟨ht, hle, -, hr, -⟩ := valid_withCapacity hmade
  have hsize : (Buffer.resize src.toArray t.buffer.size).size = t.buffer.size := Buffer.size_resize hle
  exact
    { readPos_le := by dsimp only; omega
      writePos_le := by unfold capacity; dsimp only; omega
      size_inline := fun hi => hsize.trans (ht.size_inline hi)
      clean := Buffer.clean_mul _ _ }

theorem valid_view (setup : Setup) (src : List UInt8) : (view setup src).Valid where
  readPos_le := Nat.zero_le _
  writePos_le := Nat.le_refl _
  size_inline := nofun
  clean := Buffer.clean_mul _ _

/-- Every constructor makes a valid stream. -/
theorem valid_make {origin : Origin} {setup : Setup} {a a' : Allocator} {s : Stream}
    (h : origin.make setup a = .ok s a') : s.Valid := by
  cases origin with
  | empty =>
    cases h
    exact valid_empty setup
  | withCapacity bytes => exact (valid_withCapacity h).1
  | ofBytes src => exact valid_ofBytes h
  | view src =>
    cases h
    exact valid_view setup src
  | wrap src copy =>
    cases copy with
    | true => exact valid_ofBytes h
    | false =>
      cases h
      exact valid_view setup src

/-- A copy has the same bytes in its buffer. -/
theorem overwrite_clone (buffer : Buffer) :
    (Buffer.zeros buffer.size).overwrite 0 buffer.toList = .ok buffer := by
  rw [Buffer.overwrite_zeros (Nat.le_of_eq Array.length_toList), Array.toArray_toList,
    Buffer.resize_self]

/-- What is asked for to copy a stream that owns its buffer. -/
theorem clone_owned {s : Stream} (hs : s.storage = .owned) (a : Allocator) :
    s.clone a = (do let _ ← Allocator.allocate s.buffer.size; pure s : AllocM Stream) a := by
  unfold clone
  rw [hs]
  refine bind_congr_of_ok fun fresh a' halloc => ?_
  obtain ⟨-, rfl, -⟩ := allocate_eq_ok_iff.1 halloc
  rw [overwrite_clone, ← hs]
  rfl

/-- A copy is the same stream. -/
theorem clone_eq_ok {s s' : Stream} {a a' : Allocator} (h : s.clone a = .ok s' a') : s' = s := by
  cases hs : s.storage with
  | owned =>
    rw [clone_owned hs] at h
    obtain ⟨_, a₁, -, h⟩ := bind_eq_ok_iff.1 h
    exact (pure_eq_ok_iff.1 h).1
  | inline | borrowed =>
    simp only [clone, hs] at h
    exact (pure_eq_ok_iff.1 h).1

/-- A copy is made, or memory is refused. -/
theorem clone_cases (s : Stream) (a : Allocator) :
    (∃ a', s.clone a = .ok s a') ∨
      ∃ a', s.clone a = .error (.cannotAllocate s.buffer.size) a' := by
  cases hs : s.storage with
  | owned =>
    rw [clone_owned hs]
    rcases allocate_cases s.buffer.size a with ⟨a', ha⟩ | ⟨a', ha⟩
    · exact .inl ⟨a', bind_eq_ok_iff.2 ⟨_, a', ha, rfl⟩⟩
    · exact .inr ⟨a', bind_eq_error_iff.2 (.inl ha)⟩
  | inline | borrowed =>
    refine .inl ⟨a, ?_⟩
    simp only [clone, hs]
    rfl

/-- A stream can always be dropped. -/
theorem release_eq_ok (s : Stream) (a : Allocator) : ∃ a', s.release a = .ok () a' := by
  unfold release
  cases s.storage <;> exact ⟨_, rfl⟩

/-! ## Steps -/

theorem onStream_eq_ok_iff {α : Type} {x : StreamM α} {v : α} {b b' : Backed} :
    onStream x b = .ok v b' ↔ ∃ s', x.run b.stream = .ok (v, s') ∧ b' = { b with stream := s' } := by
  unfold onStream
  cases x.run b.stream with
  | ok r =>
    constructor
    · intro h
      cases h
      exact ⟨r.2, rfl, rfl⟩
    · rintro ⟨s', h, rfl⟩
      cases h
      rfl
  | error f =>
    constructor
    · intro h
      contradiction
    · rintro ⟨s', h, -⟩
      contradiction

/-- `s` with its write position moved, and the bits behind it in its byte cleared. -/
def moveWrite (s : Stream) (position : Nat) : Stream :=
  { s with
    buffer :=
      if position % 8 = 0 then s.buffer
      else s.buffer.modify (position / 8) (· &&& highMask (position % 8))
    writePos := position }

theorem run_setReadPos (position : Nat) (s : Stream) :
    (setReadPos position).run s =
      if position ≤ s.writePos then .ok ((), { s with readPos := position })
      else .error (.readPositionBeyond position s.writePos) := by
  change StateT.run (if position ≤ s.writePos then _ else throw _ : StreamM Unit) s = _
  split <;> rfl

theorem run_setWritePos (position : Nat) (s : Stream) :
    (setWritePos position).run s =
      if s.readOnly then .error .readOnly
      else if s.readPos ≤ position ∧ position ≤ s.capacity then .ok ((), s.moveWrite position)
      else .error (.writePositionOutside position s.readPos s.capacity) := by
  change StateT.run (if s.readOnly then throw .readOnly
    else if s.readPos ≤ position ∧ position ≤ s.capacity then do
      let buffer ←
        if position % 8 = 0 then pure s.buffer
        else s.buffer.changeByte (position / 8) (· &&& highMask (position % 8))
      set { s with buffer, writePos := position }
    else throw _ : StreamM Unit) s = _
  split
  · rfl
  · split
    · rename_i hp
      unfold moveWrite
      split
      · rfl
      · have hbyte : position / 8 < s.buffer.size := by
          have := hp.2
          unfold capacity at this
          omega
        rw [Buffer.changeByte_eq hbyte]
        rfl
    · rfl

theorem run_expectEnd (s : Stream) :
    expectEnd.run s = if s.payload = 0 then .ok ((), s) else .error (.unreadBits s.payload) := by
  change StateT.run (if s.payload = 0 then _ else throw _ : StreamM Unit) s = _
  split <;> rfl

theorem setWritePos_eq_ok_iff {s s' : Stream} {position : Nat} :
    (setWritePos position).run s = .ok ((), s') ↔
      s.readOnly = false ∧ s.readPos ≤ position ∧ position ≤ s.capacity ∧
        s' = s.moveWrite position := by
  rw [run_setWritePos]
  cases s.readOnly with
  | true => simp
  | false =>
    by_cases hp : s.readPos ≤ position ∧ position ≤ s.capacity
    · simp [hp, eq_comm]
    · simp only [Bool.false_eq_true, if_false, if_neg hp]
      exact ⟨nofun, fun ⟨_, h1, h2, _⟩ => absurd ⟨h1, h2⟩ hp⟩

/-- Moving the write position is an operation. -/
theorem next_moveWrite {s : Stream} {position : Nat} (hw : s.readOnly = false)
    (h1 : s.readPos ≤ position) (h2 : position ≤ s.capacity) : Next s (s.moveWrite position) := by
  have h := setWritePos_eq_ok_iff.2 ⟨hw, h1, h2, rfl⟩
  have hop : Op.perform (.position (.setWritePos position)) ⟨s, .system⟩ =
      .ok .none ⟨s.moveWrite position, .system⟩ :=
    bind_eq_ok_iff.2 ⟨(), _, onStream_eq_ok_iff.2 ⟨_, h, rfl⟩, rfl⟩
  exact .perform hop

/-- Moving the read position is an operation. -/
theorem next_moveRead {s : Stream} (position : Nat) (h : position ≤ s.writePos) :
    Next s { s with readPos := position } := by
  have hrun : (setReadPos position).run s = .ok ((), { s with readPos := position }) := by
    rw [run_setReadPos, if_pos h]
  have hop : Op.perform (.position (.setReadPos position)) ⟨s, .system⟩ =
      .ok .none ⟨{ s with readPos := position }, .system⟩ :=
    bind_eq_ok_iff.2 ⟨(), _, onStream_eq_ok_iff.2 ⟨_, hrun, rfl⟩, rfl⟩
  exact .perform hop

theorem size_moveWrite (s : Stream) (position : Nat) :
    (s.moveWrite position).buffer.size = s.buffer.size := by
  unfold moveWrite
  dsimp only
  split
  · rfl
  · exact Array.size_modify

theorem clean_moveWrite {s : Stream} {position : Nat} (h : position ≤ s.capacity) :
    (s.moveWrite position).buffer.Clean position := by
  intro i h1 h2
  unfold bytesFor at h2
  unfold capacity at h
  unfold moveWrite
  by_cases h0 : position % 8 = 0
  · omega
  · rw [if_neg h0, Buffer.bit_modify s.buffer (by omega), if_pos (by omega), byteBit_and,
      byteBit_highMask (by omega)]
    simp [show ¬ i % 8 < position % 8 by omega]

theorem Valid.moveWrite {s : Stream} (hs : s.Valid) {position : Nat} (h1 : s.readPos ≤ position)
    (h2 : position ≤ s.capacity) : (s.moveWrite position).Valid where
  readPos_le := h1
  writePos_le := by
    unfold capacity at h2 ⊢
    rw [size_moveWrite]
    exact h2
  size_inline := fun hi => (size_moveWrite s position).trans (hs.size_inline hi)
  clean := clean_moveWrite h2

theorem Passes.moves {α : Type} {x : StreamM α} (h : Passes x) {s s' : Stream} {v : α}
    (hx : x.run s = .ok (v, s')) : ∃ position, s' = { s with readPos := position } := by
  obtain ⟨n, -, rfl⟩ := h s v s' hx
  exact ⟨s.readPos + n, rfl⟩

/-- A reader moves the read position of any stream, and changes nothing else. -/
theorem Reading.moves {refused : Fault → Prop} {α : Type} {x : StreamM α} (h : Reading refused x)
    {s s' : Stream} {v : α} (hx : x.run s = .ok (v, s')) :
    ∃ position, s' = { s with readPos := position } := by
  induction h generalizing s s' with
  | pure v =>
    cases hx
    exact ⟨s.readPos, rfl⟩
  | throw _ => contradiction
  | bit => exact passes_readBit.moves hx
  | run _ => exact (passes_readRun _ _).moves hx
  | into _ _ => exact (passes_readInto _ _ _).moves hx
  | skip n => exact (passes_skip n).moves hx
  | align =>
    cases hx
    exact ⟨_, rfl⟩
  | bind _ _ ihx ihf =>
    obtain ⟨v, t, h1, h2⟩ := run_bind_eq_ok_iff.1 hx
    obtain ⟨p, rfl⟩ := ihx h1
    obtain ⟨q, rfl⟩ := ihf v ⟨_, _, h1⟩ h2
    exact ⟨q, rfl⟩

theorem read_keeps {x : ReadOp} {s s' : Stream} {v : Answer} (h : x.perform.run s = .ok (v, s')) :
    s'.storage = s.storage ∧ s'.buffer = s.buffer := by
  obtain ⟨position, rfl⟩ := x.reading.moves h
  exact ⟨rfl, rfl⟩

/-- Moving the positions leaves a stream where it is, with as large a buffer. -/
theorem position_keeps {x : PositionOp} {s s' : Stream} (h : x.perform.run s = .ok ((), s')) :
    s'.storage = s.storage ∧ s'.buffer.size = s.buffer.size := by
  cases x with
  | reset | resetRead | resetWrite =>
    cases h
    exact ⟨rfl, rfl⟩
  | setReadPos position =>
    rw [PositionOp.perform, run_setReadPos] at h
    split at h
    · cases h
      exact ⟨rfl, rfl⟩
    · contradiction
  | setWritePos position =>
    obtain ⟨-, -, -, rfl⟩ := setWritePos_eq_ok_iff.1 h
    exact ⟨rfl, size_moveWrite s position⟩
  | expectEnd =>
    rw [PositionOp.perform, run_expectEnd] at h
    split at h
    · cases h
      exact ⟨rfl, rfl⟩
    · contradiction

theorem Valid.position {s s' : Stream} (hs : s.Valid) (op : PositionOp)
    (h : op.perform.run s = .ok ((), s')) : s'.Valid ∧ s.Evolves s' := by
  cases op with
  | reset | resetWrite =>
    cases h
    exact ⟨⟨Nat.le_refl _, Nat.zero_le _, hs.size_inline, Buffer.clean_mul _ 0⟩,
      .of_size_eq rfl rfl rfl⟩
  | resetRead =>
    cases h
    exact ⟨hs.moveRead (Nat.zero_le _), .of_size_eq rfl rfl rfl⟩
  | setReadPos position =>
    change (Stream.setReadPos position).run s = _ at h
    rw [run_setReadPos] at h
    split at h
    · cases h
      exact ⟨hs.moveRead ‹_›, .of_size_eq rfl rfl rfl⟩
    · contradiction
  | setWritePos position =>
    obtain ⟨-, h1, h2, rfl⟩ := setWritePos_eq_ok_iff.1 h
    exact ⟨hs.moveWrite h1 h2, .of_size_eq rfl rfl (size_moveWrite s position)⟩
  | expectEnd =>
    change Stream.expectEnd.run s = _ at h
    rw [run_expectEnd] at h
    split at h
    · cases h
      exact ⟨hs, .refl s⟩
    · contradiction

theorem Valid.read {α : Type} {x : StreamM α} {s s' : Stream} {v : α} (hs : s.Valid) (hx : Reads x)
    (h : x.run s = .ok (v, s')) : s'.Valid ∧ s.Evolves s' := by
  obtain ⟨position, -, hp, rfl⟩ := hx s v s' hs.readPos_le h
  exact ⟨hs.moveRead hp, .of_size_eq rfl rfl rfl⟩

theorem Valid.perform {s : Stream} (hs : s.Valid) {a : Allocator} {op : Op} {v : Answer}
    {b : Backed} (h : op.perform ⟨s, a⟩ = .ok v b) : b.stream.Valid ∧ s.Evolves b.stream := by
  cases op with
  | query q =>
    cases h
    exact ⟨hs, .refl s⟩
  | position x =>
    obtain ⟨_, b₁, h₁, h⟩ := bind_eq_ok_iff.1 h
    obtain ⟨-, rfl⟩ := pure_eq_ok_iff.1 h
    obtain ⟨s', hx, rfl⟩ := onStream_eq_ok_iff.1 h₁
    exact hs.position x hx
  | read x =>
    obtain ⟨s', hx, rfl⟩ := onStream_eq_ok_iff.1 h
    exact hs.read x.reads hx
  | reserve n =>
    obtain ⟨_, b₁, h₁, h⟩ := bind_eq_ok_iff.1 h
    obtain ⟨-, rfl⟩ := pure_eq_ok_iff.1 h
    have hext := (hs.extends_of_reserve h₁).1
    exact ⟨hext.valid, hext.evolves⟩
  | write x =>
    obtain ⟨n, b₁, h₁, h⟩ := bind_eq_ok_iff.1 h
    obtain ⟨-, rfl⟩ := pure_eq_ok_iff.1 h
    have hext := (x.appends s a n _ hs h₁).2
    exact ⟨hext.valid, hext.evolves⟩

/-- An operation or transfer keeps a stream valid and takes nothing back that never changes back. -/
theorem Valid.next {s s' : Stream} (hs : s.Valid) (h : Next s s') : s'.Valid ∧ s.Evolves s' := by
  cases h with
  | perform h => exact hs.perform h
  | receive h =>
    have hext := (transfer_eq_ok h).2.2.2 hs
    exact ⟨hext.valid, hext.evolves⟩
  | send h =>
    obtain ⟨-, hn, rfl, -⟩ := transfer_eq_ok h
    have hle := hs.readPos_le
    unfold payload at hn
    exact ⟨hs.moveRead (by omega), .of_size_eq rfl rfl rfl⟩

/-! ## Runs -/

/-- A stream inside of which a few bytes were copied. -/
def filled (setup : Setup) (src : List UInt8) : Stream :=
  { empty setup with buffer := Buffer.resize src.toArray inlineBytes, writePos := 8 * src.length }

theorem reachable_filled (setup : Setup) {src : List UInt8} (h : src.length ≤ inlineBytes) :
    Reachable (filled setup src) := by
  have hcapacity : withCapacity setup src.length .system = .ok (empty setup) .system := by
    rw [withCapacity, if_pos h]
    rfl
  have hmake : (Origin.ofBytes src).make setup .system = .ok (filled setup src) .system :=
    bind_eq_ok_iff.2 ⟨_, _, hcapacity,
      bind_eq_ok_iff.2 ⟨_, _, ofExcept_eq_ok_iff.2 ⟨Buffer.overwrite_zeros h, rfl⟩, rfl⟩⟩
  exact .made setup (.ofBytes src) hmake

theorem Reachable.valid {s : Stream} (h : Reachable s) : s.Valid := by
  induction h with
  | made _ _ h => exact valid_make h
  | cloned _ h ih =>
    rw [clone_eq_ok h]
    exact ih
  | next _ h ih => exact (ih.next h).1

/-- What holds of one operation or transfer holds of any number of them. -/
theorem Valid.run {s s' : Stream} (hs : s.Valid) (h : Relation.ReflTransGen Next s s') :
    s'.Valid ∧ s.Evolves s' := by
  induction h with
  | refl => exact ⟨hs, .refl s⟩
  | tail _ h ih =>
    obtain ⟨hv, he⟩ := ih.1.next h
    exact ⟨hv, ih.2.trans he⟩

/-- The read position is behind the write position, which lies within the buffer; the buffer inside a
stream has 2048 bits; the bits from the write position on are zero in its byte. However a stream is
used, its capacity never decreases, and all that its storage may do is move to the allocator. -/
theorem reachable_representation {s s' : Stream} (hs : Reachable s)
    (h : Relation.ReflTransGen Next s s') :
    s'.readPos ≤ s'.writePos ∧ s'.writePos ≤ s'.capacity ∧ s'.capacity = 8 * s'.buffer.size ∧
      (s'.storage = .inline → s'.capacity = 2048) ∧
      (s'.writePos % 8 ≠ 0 → ∀ i, s'.writePos ≤ i → i / 8 = s'.writePos / 8 →
        s'.buffer.bit i = false) ∧
      s.capacity ≤ s'.capacity ∧
      (s'.storage = s.storage ∨ s.storage = .inline ∧ s'.storage = .owned) := by
  obtain ⟨hv, he⟩ := hs.valid.run h
  refine ⟨hv.readPos_le, hv.writePos_le, rfl, fun hi => ?_, fun h0 i h1 h2 => ?_, he.capacity_le,
    he.storage⟩
  · rw [capacity, hv.size_inline hi]
    rfl
  · exact hv.clean i h1 (by unfold bytesFor; omega)

/-- A full byte, rewound to its first three bits. -/
theorem reachable_representation_rewound :
    ∃ s s' : Stream, s.bits.length = 8 ∧ s'.writePos = 3 ∧ s'.capacity = 2048 ∧
      (∀ i, 3 ≤ i → i / 8 = 0 → s'.buffer.bit i = false) ∧ s.capacity ≤ s'.capacity := by
  let s := filled {} [0xA5]
  have hs : Reachable s := reachable_filled {} (by decide)
  have hroom : 3 ≤ s.capacity := Nat.le_trans (by decide) hs.valid.writePos_le
  have hnext := next_moveWrite rfl (Nat.zero_le 3) hroom
  obtain ⟨-, -, -, hinline, hclean, hle, -⟩ := reachable_representation hs (.single hnext)
  have hpos : (s.moveWrite 3).writePos = 3 := rfl
  rw [hpos] at hclean
  exact ⟨s, s.moveWrite 3, hs.valid.length_bits, hpos, hinline rfl, hclean (by decide), hle⟩

end Bitwire.Stream
