import Bitwire.Proofs.Stream.Valid

/-!
# Making room

Before bits are written, room is made for them: nothing happens if they fit, and otherwise the stream
gets a larger buffer with the same written bits. The request for room fails only on a view, when a
position or the size of the larger buffer would be no 64-bit number, and when the allocator refuses.

* `bind_eq_ok_iff`, `bind_eq_error_iff`: when a sequence of two actions succeeds, and when it is stopped.
* `Fault.Refusal`, `allocate_eq`, `reallocate_eq`: memory is refused, or a buffer is handed out.
* `Stream.Reserved`, `reserved`: all that making room can lead to.
* `Stream.Grants`, `grants_iff`: when room can be made; `Stream.HasRoom`: it was made.
* `Valid.extends_of_reserve`: making room appends nothing.
-/

namespace Bitwire

/-- A sequence of two actions succeeds if both do. -/
theorem bind_eq_ok_iff {ε σ α β : Type} {x : EStateM ε σ α} {f : α → EStateM ε σ β} {s s'' : σ}
    {b : β} : (x >>= f) s = .ok b s'' ↔ ∃ a s', x s = .ok a s' ∧ f a s' = .ok b s'' := by
  change EStateM.bind x f s = .ok b s'' ↔ _
  unfold EStateM.bind
  cases h : x s with
  | ok a s' =>
    constructor
    · exact fun hf => ⟨a, s', rfl, hf⟩
    · rintro ⟨a', s1, ⟨rfl, rfl⟩, hf⟩
      exact hf
  | error e s' => simp

/-- What comes second matters only behind what comes first. -/
theorem bind_congr_of_ok {ε σ α β : Type} {x : EStateM ε σ α} {f g : α → EStateM ε σ β} {s : σ}
    (h : ∀ a s', x s = .ok a s' → f a s' = g a s') : (x >>= f) s = (x >>= g) s := by
  change EStateM.bind x f s = EStateM.bind x g s
  unfold EStateM.bind
  cases hx : x s with
  | ok a s' => exact h a s' hx
  | error e s' => rfl

/-- It is stopped by what stops one of them. -/
theorem bind_eq_error_iff {ε σ α β : Type} {x : EStateM ε σ α} {f : α → EStateM ε σ β} {s s'' : σ}
    {e : ε} : (x >>= f) s = .error e s'' ↔
      x s = .error e s'' ∨ ∃ a s', x s = .ok a s' ∧ f a s' = .error e s'' := by
  change EStateM.bind x f s = .error e s'' ↔ _
  unfold EStateM.bind
  cases h : x s with
  | ok a s' =>
    constructor
    · exact fun hf => .inr ⟨a, s', rfl, hf⟩
    · rintro (hf | ⟨a', s1, ⟨rfl, rfl⟩, hf⟩)
      · contradiction
      · exact hf
  | error e' s' => simp

theorem bind_of_ok {ε σ α β : Type} {x : EStateM ε σ α} {f : α → EStateM ε σ β} {s s' : σ} {v : α}
    (h : x s = .ok v s') : (x >>= f) s = f v s' := by
  change EStateM.bind x f s = _
  unfold EStateM.bind
  rw [h]

theorem bind_of_error {ε σ α β : Type} {x : EStateM ε σ α} {f : α → EStateM ε σ β} {s s' : σ} {e : ε}
    (h : x s = .error e s') : (x >>= f) s = .error e s' :=
  bind_eq_error_iff.2 (.inl h)

theorem pure_eq_ok_iff {ε σ α : Type} {a b : α} {s s' : σ} :
    (pure a : EStateM ε σ α) s = .ok b s' ↔ b = a ∧ s' = s := by
  change (EStateM.Result.ok a s : EStateM.Result ε σ α) = .ok b s' ↔ _
  rw [EStateM.Result.ok.injEq, eq_comm, and_congr_right_iff]
  exact fun _ => eq_comm

theorem ofExcept_eq_ok_iff {ε σ α : Type} {x : Except ε α} {a : α} {s s' : σ} :
    (MonadExcept.ofExcept x : EStateM ε σ α) s = .ok a s' ↔ x = .ok a ∧ s' = s := by
  cases x with
  | ok b => exact pure_eq_ok_iff.trans (and_congr_left' ⟨fun h => h ▸ rfl, fun h => by cases h; rfl⟩)
  | error e => exact ⟨nofun, nofun⟩

theorem throw_ne_ok {ε σ α : Type} {e : ε} {a : α} {s s' : σ} :
    (throw e : EStateM ε σ α) s ≠ .ok a s' := nofun

/-- A request for memory that was refused. -/
def Fault.Refusal : Fault → Prop
  | cannotAllocate _ => True
  | cannotGrow _ _ => True
  | _ => False

/-- A check that refuses room. -/
def Fault.Crowded : Fault → Prop
  | readOnly => True
  | positionOverflow _ _ => True
  | additionOverflow => True
  | _ => False

/-- A check is not a refused request. -/
theorem Fault.Crowded.not_refusal {f : Fault} (h : f.Crowded) : ¬ f.Refusal := by
  cases f with
  | readOnly | positionOverflow | additionOverflow => exact id
  | _ => exact absurd h id

namespace Stream

/-! ## Requests to the allocator -/

section Allocator

variable (bytes : Nat) (a : Allocator)

theorem request_eq (f : Counters → Counters) (refusal : Fault) :
    Allocator.request bytes f refusal a =
      if a.grants bytes then .ok () (a.tally f) else .error refusal (a.tally f) := by
  change (if a.grants bytes then pure () else throw refusal : AllocM Unit) (a.tally f) = _
  split <;> rfl

/-- A request is counted, and then it is granted and answered, or refused. -/
theorem request_answered {α : Type} (f : Counters → Counters) (refusal : Fault) (answer : α) :
    (do Allocator.request bytes f refusal; pure answer : AllocM α) a =
      if a.grants bytes then .ok answer (a.tally f) else .error refusal (a.tally f) := by
  by_cases h : a.grants bytes = true
  · rw [bind_of_ok (by rw [request_eq, if_pos h]), if_pos h]
    rfl
  · rw [bind_of_error (by rw [request_eq, if_neg h]), if_neg h]

theorem allocate_eq :
    Allocator.allocate bytes a =
      if a.grants bytes then
        .ok (.zeros bytes) (a.tally fun c => { c with allocations := c.allocations + 1 })
      else
        .error (.cannotAllocate bytes) (a.tally fun c => { c with allocations := c.allocations + 1 }) :=
  request_answered bytes a _ _ _

theorem reallocate_eq (old : Buffer) :
    Allocator.reallocate old bytes a =
      if a.grants bytes then
        .ok (old.resize bytes) (a.tally fun c => { c with reallocations := c.reallocations + 1 })
      else
        .error (.cannotGrow old.size bytes)
          (a.tally fun c => { c with reallocations := c.reallocations + 1 }) :=
  request_answered bytes a _ _ _

end Allocator

section Requests

variable {bytes : Nat} {buffer : Buffer} {a a' : Allocator}

theorem allocate_eq_ok_iff :
    Allocator.allocate bytes a = .ok buffer a' ↔ a.grants bytes = true ∧ buffer = .zeros bytes ∧
      a' = a.tally fun c => { c with allocations := c.allocations + 1 } := by
  rw [allocate_eq]
  by_cases h : a.grants bytes = true
  · simp [h, eq_comm]
  · simp [h]

/-- A request that is refused was counted before. -/
theorem allocate_eq_error {f : Fault} (h : Allocator.allocate bytes a = .error f a') :
    f = .cannotAllocate bytes ∧ a' = a.tally fun c => { c with allocations := c.allocations + 1 } := by
  rw [allocate_eq] at h
  split at h
  · contradiction
  · cases h
    exact ⟨rfl, rfl⟩

/-- A buffer is handed out, or memory is refused. -/
theorem allocate_cases (bytes : Nat) (a : Allocator) :
    (∃ a', Allocator.allocate bytes a = .ok (.zeros bytes) a') ∨
      ∃ a', Allocator.allocate bytes a = .error (.cannotAllocate bytes) a' := by
  rw [allocate_eq]
  split
  · exact .inl ⟨_, rfl⟩
  · exact .inr ⟨_, rfl⟩

theorem reallocate_eq_ok_iff {old : Buffer} :
    Allocator.reallocate old bytes a = .ok buffer a' ↔
      a.grants bytes = true ∧ buffer = old.resize bytes ∧
      a' = a.tally fun c => { c with reallocations := c.reallocations + 1 } := by
  rw [reallocate_eq]
  by_cases h : a.grants bytes = true
  · simp [h, eq_comm]
  · simp [h]

/-- No machine grants what its addresses do not reach. -/
theorem lt_limit_of_grants (h : a.grants bytes = true) : bytes < Memory.limit := a.memory.lt_limit h

end Requests

/-! ## Growing -/

/-- The buffer of `bytes` bytes that takes the place of a smaller one. -/
def grownBuffer (s : Stream) (bytes : Nat) : Buffer :=
  if s.storage = .owned then s.buffer.resize bytes else Buffer.resize s.bytes.toArray bytes

/-- The allocator after it was asked for that buffer. -/
def grownAllocator (s : Stream) (a : Allocator) : Allocator :=
  a.tally fun c =>
    if s.storage = .owned then { c with reallocations := c.reallocations + 1 }
    else { c with allocations := c.allocations + 1 }

/-- A stream that has moved to a larger buffer, and its allocator. -/
def grown (b : Backed) (bytes : Nat) : Backed :=
  ⟨{ b.stream with storage := .owned, buffer := b.stream.grownBuffer bytes },
    b.stream.grownAllocator b.allocator⟩

/-- A stream that was refused a larger buffer, and its allocator. -/
def denied (b : Backed) : Backed := { b with allocator := b.stream.grownAllocator b.allocator }

/-- What is said when a larger buffer is refused. -/
def denial (s : Stream) (bytes : Nat) : Fault :=
  if s.storage = .owned then .cannotGrow s.buffer.size bytes else .cannotAllocate bytes

theorem refusal_denial (s : Stream) (bytes : Nat) : (s.denial bytes).Refusal := by
  unfold denial
  split <;> exact trivial

theorem length_bytes_le (s : Stream) : s.bytes.length ≤ s.buffer.size := by
  rw [bytes, Array.length_toList, Array.size_extract]
  omega

theorem grow_eq {bytes : Nat} {b : Backed} (h : b.stream.buffer.size ≤ bytes) :
    grow bytes b =
      if b.allocator.grants bytes then .ok () (grown b bytes)
      else .error (b.stream.denial bytes) (denied b) := by
  have hgrow : grow bytes b =
      (if b.stream.storage = Storage.owned then do
        let buffer ← askAllocator (Allocator.reallocate b.stream.buffer bytes)
        onStream (moveTo buffer)
      else do
        let fresh ← askAllocator (Allocator.allocate bytes)
        let buffer ← MonadExcept.ofExcept (fresh.overwrite 0 b.stream.bytes)
        onStream (moveTo buffer)) b := rfl
  have hcopy := Buffer.overwrite_zeros (Nat.le_trans b.stream.length_bytes_le h)
  rw [hgrow]
  unfold grown grownBuffer grownAllocator denied denial grownAllocator
  by_cases ho : b.stream.storage = .owned
  · simp only [if_pos ho]
    change EStateM.bind (askAllocator _) _ b = _
    unfold EStateM.bind askAllocator
    rw [reallocate_eq]
    by_cases hl : b.allocator.grants bytes = true
    · simp only [if_pos hl]
      rfl
    · simp only [if_neg hl]
  · simp only [if_neg ho]
    change EStateM.bind (askAllocator _) _ b = _
    unfold EStateM.bind askAllocator
    rw [allocate_eq]
    by_cases hl : b.allocator.grants bytes = true
    · simp only [if_pos hl, hcopy]
      rfl
    · simp only [if_neg hl]

theorem le_growTarget (required : Nat) : required ≤ 8 * growTarget required := by
  unfold growTarget growBits bytesFor
  split <;> omega

theorem growTarget_mono {m n : Nat} (h : m ≤ n) : growTarget m ≤ growTarget n := by
  unfold growTarget growBits
  apply Buffer.bytesFor_mono
  split <;> split <;> omega

/-- What is asked for when there is no room is larger than what there is. -/
theorem size_le_growTarget {s : Stream} {required : Nat} (h : s.capacity < required) :
    s.buffer.size ≤ growTarget required := by
  have := le_growTarget required
  unfold capacity at h
  omega

/-! ## Reserving -/

/-- All that making room for `more` bits can lead to. -/
inductive Reserved (more : Nat) (b : Backed) : EStateM.Result Fault Backed Unit → Prop
  /-- The bits fit. -/
  | fits : b.stream.readOnly = false → b.stream.writePos + more < positionLimit →
      b.stream.writePos + more ≤ b.stream.capacity → Reserved more b (.ok () b)
  /-- A check refuses them. -/
  | stopped {f : Fault} : f.Crowded → Reserved more b (.error f b)
  /-- The stream gets a larger buffer. -/
  | grown : b.stream.readOnly = false → b.stream.writePos + more < positionLimit →
      b.stream.capacity < b.stream.writePos + more →
      b.allocator.grants (growTarget (b.stream.writePos + more)) = true →
      Reserved more b (.ok () (grown b (growTarget (b.stream.writePos + more))))
  /-- A larger buffer is refused. -/
  | denied : b.stream.readOnly = false → b.stream.writePos + more < positionLimit →
      b.stream.capacity < b.stream.writePos + more →
      b.allocator.grants (growTarget (b.stream.writePos + more)) = false →
      Reserved more b
        (.error (b.stream.denial (growTarget (b.stream.writePos + more))) (denied b))

theorem reserve_eq (more : Nat) (b : Backed) :
    reserve more b =
      if b.stream.readOnly then .error .readOnly b
      else if positionLimit ≤ b.stream.writePos + more then
        .error (.positionOverflow b.stream.writePos more) b
      else if b.stream.writePos + more ≤ b.stream.capacity then .ok () b
      else if positionLimit ≤ growBits (b.stream.writePos + more) then .error .additionOverflow b
      else grow (growTarget (b.stream.writePos + more)) b := by
  change (if b.stream.readOnly then throw .readOnly else _ : WriteM Unit) b = _
  split
  · rfl
  · split
    · rfl
    · split
      · rfl
      · split <;> rfl

theorem reserved (more : Nat) (b : Backed) : Reserved more b (reserve more b) := by
  rw [reserve_eq]
  split
  · exact .stopped trivial
  · rename_i hw
    have hw : b.stream.readOnly = false := eq_false_of_ne_true hw
    split
    · exact .stopped trivial
    · rename_i hp
      have hp := Nat.lt_of_not_le hp
      split
      · exact .fits hw hp ‹_›
      · rename_i hfull
        have hfull := Nat.lt_of_not_le hfull
        split
        · exact .stopped trivial
        · rw [grow_eq (size_le_growTarget hfull)]
          split
          · exact .grown hw hp hfull ‹_›
          · exact .denied hw hp hfull (eq_false_of_ne_true ‹_›)

/-- Room is refused by a check, or for want of memory. -/
theorem crowded_or_refusal {more : Nat} {b b' : Backed} {f : Fault}
    (h : reserve more b = .error f b') : f.Crowded ∨ f.Refusal := by
  have hall := reserved more b
  rw [h] at hall
  cases hall with
  | stopped hf => exact .inl hf
  | denied => exact .inr (refusal_denial _ _)

/-- Far below the largest position the size of a larger buffer is a 64-bit number, too. -/
theorem growBits_lt {required : Nat} (h : required + 8 * growthStep < positionLimit) :
    growBits required < positionLimit := by
  unfold growBits
  split
  · exact h
  · unfold growthStep positionLimit at *
    omega

/-- Room on a writable stream, far below the largest position, is refused for want of memory only. -/
theorem refusal_of_reserve {more : Nat} {b b' : Backed} {f : Fault} (hw : b.stream.readOnly = false)
    (hlt : b.stream.writePos + more + 8 * growthStep < positionLimit)
    (h : reserve more b = .error f b') : f.Refusal := by
  rw [reserve_eq, hw, if_neg Bool.false_ne_true,
    if_neg (Nat.not_le.2 (Nat.lt_of_le_of_lt (Nat.le_add_right _ _) hlt))] at h
  split at h
  · contradiction
  · rename_i hfull
    rw [if_neg (Nat.not_le.2 (growBits_lt hlt)),
      grow_eq (size_le_growTarget (Nat.lt_of_not_le hfull))] at h
    split at h
    · contradiction
    · cases h
      exact refusal_denial _ _

/-- What the memory grants has a size that is a 64-bit number of bits. -/
theorem growBits_lt_of_grants {a : Allocator} {required : Nat}
    (h : a.grants (growTarget required) = true) : growBits required < positionLimit := by
  have hlt := lt_limit_of_grants h
  unfold growTarget bytesFor Memory.limit at hlt
  unfold positionLimit
  omega

/-- Room is made for `more` bits: they fit, or the buffer is exchanged for a larger one. -/
theorem reserve_eq_ok_iff {more : Nat} {b b' : Backed} :
    reserve more b = .ok () b' ↔
      b.stream.readOnly = false ∧ b.stream.writePos + more < positionLimit ∧
        if b.stream.writePos + more ≤ b.stream.capacity then b' = b
        else b.allocator.grants (growTarget (b.stream.writePos + more)) = true ∧
          b' = grown b (growTarget (b.stream.writePos + more)) := by
  constructor
  · intro h
    have hall := reserved more b
    rw [h] at hall
    cases hall with
    | fits hw hp hf => exact ⟨hw, hp, by rw [if_pos hf]⟩
    | grown hw hp hfull hgranted =>
      exact ⟨hw, hp, by rw [if_neg (Nat.not_le.2 hfull)]; exact ⟨hgranted, rfl⟩⟩
  · rintro ⟨hw, hp, h⟩
    rw [reserve_eq, hw, if_neg Bool.false_ne_true, if_neg (Nat.not_le.2 hp)]
    split at h
    · rename_i hf
      rw [if_pos hf, h]
    · rename_i hf
      obtain ⟨hgranted, rfl⟩ := h
      rw [if_neg hf, if_neg (Nat.not_le.2 (growBits_lt_of_grants hgranted)),
        grow_eq (size_le_growTarget (Nat.lt_of_not_le hf)), if_pos hgranted]

/-! ## A larger buffer -/

section Grown

variable {s : Stream} {bytes : Nat} (h : s.buffer.size ≤ bytes)
include h

theorem size_grownBuffer : (s.grownBuffer bytes).size = bytes := by
  unfold grownBuffer
  split
  · exact Buffer.size_resize h
  · exact Buffer.size_resize (Nat.le_trans s.length_bytes_le h)

theorem size_grown (a : Allocator) : (grown ⟨s, a⟩ bytes).stream.buffer.size = bytes :=
  size_grownBuffer h

/-- All bits of the written bytes move with the stream. -/
theorem Valid.bit_grownBuffer (hs : s.Valid) {i : Nat} (hi : i < 8 * s.writtenBytes) :
    (s.grownBuffer bytes).bit i = s.buffer.bit i := by
  unfold grownBuffer
  split
  · exact Buffer.bit_resize h i
  · have hw := hs.writtenBytes_le
    have hle : (s.bytes.toArray : Buffer).size ≤ bytes := Nat.le_trans s.length_bytes_le h
    rw [Buffer.bit_resize hle, Buffer.bit, Buffer.bit, getElem?_bitsOf, getElem?_bitsOf, Stream.bytes,
      Array.getElem?_toList, Array.getElem?_extract, if_pos (by omega), Nat.zero_add,
      Array.getElem?_toList]

/-- Moving to a larger buffer appends nothing. -/
theorem Valid.extends_grown (hs : s.Valid) (hw : s.readOnly = false) (a : Allocator) :
    s.Extends [] (grown ⟨s, a⟩ bytes).stream := by
  have hsize := size_grownBuffer h
  have hle := Buffer.le_bytesFor s.writePos
  have hvalid : (grown ⟨s, a⟩ bytes).stream.Valid :=
    { readPos_le := hs.readPos_le
      writePos_le := by
        have := hs.writePos_le
        unfold capacity grown at *
        dsimp only
        omega
      size_inline := nofun
      clean := fun i h1 h2 => (hs.bit_grownBuffer h h2).trans (hs.clean i h1 h2) }
  refine ⟨hvalid, ⟨rfl, ?_, ?_⟩, ?_, rfl, rfl⟩
  · unfold capacity grown
    dsimp only
    omega
  · cases hst : s.storage with
    | inline => exact .inr ⟨rfl, rfl⟩
    | owned => exact .inl rfl
    | borrowed => simp [readOnly, hst] at hw
  · rw [hvalid.bits_eq_bitsFrom, hs.bits_eq_bitsFrom, List.append_nil]
    apply List.map_congr_left
    intro i hi
    have := List.mem_range'_1.1 hi
    exact hs.bit_grownBuffer h (by
      change 0 ≤ i ∧ i < 0 + s.writePos at this
      unfold writtenBytes
      omega)

end Grown

/-! ## Room -/

/-- There is room for `n` more bits. -/
structure HasRoom (s : Stream) (n : Nat) : Prop where
  writable : s.readOnly = false
  lt_limit : s.writePos + n < positionLimit
  fits : s.writePos + n ≤ s.capacity

theorem HasRoom.of_extends {s s' : Stream} {bits : List Bool} {n : Nat}
    (h : s.HasRoom (bits.length + n)) (hext : s.Extends bits s') : s'.HasRoom n where
  writable := hext.evolves.readOnly_eq.trans h.writable
  lt_limit := by rw [hext.writePos_eq, Nat.add_assoc]; exact h.lt_limit
  fits := by
    rw [hext.writePos_eq, Nat.add_assoc]
    exact Nat.le_trans h.fits hext.evolves.capacity_le

/-- Making room moves nothing, and then there is room. -/
theorem hasRoom_of_reserve {more : Nat} {b b' : Backed} (h : reserve more b = .ok () b') :
    b'.stream.HasRoom more ∧ b'.stream.writePos = b.stream.writePos ∧
      b'.stream.setup = b.stream.setup := by
  have hall := reserved more b
  rw [h] at hall
  cases hall with
  | fits hw hp hf => exact ⟨⟨hw, hp, hf⟩, rfl, rfl⟩
  | grown hw hp hfull _ =>
    refine ⟨⟨rfl, hp, ?_⟩, rfl, rfl⟩
    rw [capacity, size_grown (size_le_growTarget hfull)]
    exact le_growTarget _

/-- Making room appends nothing, and then there is room. -/
theorem Valid.extends_of_reserve {s : Stream} {a : Allocator} {more : Nat} {b : Backed}
    (hs : s.Valid) (h : reserve more ⟨s, a⟩ = .ok () b) :
    s.Extends [] b.stream ∧ b.stream.HasRoom more := by
  refine ⟨?_, (hasRoom_of_reserve h).1⟩
  have hall := reserved more ⟨s, a⟩
  rw [h] at hall
  cases hall with
  | fits => exact .refl hs
  | grown hw _ hfull _ => exact hs.extends_grown (size_le_growTarget hfull) hw a

/-- There can be room for `n` more bits: the stream is writable, its positions stay 64-bit numbers, and
the bits fit or the allocator grants the buffer that is asked for. -/
structure Grants (s : Stream) (a : Allocator) (n : Nat) : Prop where
  writable : s.readOnly = false
  lt_limit : s.writePos + n < positionLimit
  fits_or_granted : s.writePos + n ≤ s.capacity ∨ a.grants (growTarget (s.writePos + n)) = true

/-- Where there can be room, making it succeeds, and nowhere else. -/
theorem grants_iff {s : Stream} {a : Allocator} {n : Nat} :
    s.Grants a n ↔ ∃ b, reserve n ⟨s, a⟩ = .ok () b := by
  constructor
  · intro h
    by_cases hf : s.writePos + n ≤ s.capacity
    · exact ⟨_, reserve_eq_ok_iff.2 ⟨h.writable, h.lt_limit, by rw [if_pos hf]⟩⟩
    · have hl := h.fits_or_granted.resolve_left hf
      exact ⟨_, reserve_eq_ok_iff.2 ⟨h.writable, h.lt_limit, by rw [if_neg hf]; exact ⟨hl, rfl⟩⟩⟩
  · rintro ⟨b, h⟩
    obtain ⟨hw, hp, h⟩ := reserve_eq_ok_iff.1 h
    refine ⟨hw, hp, ?_⟩
    split at h
    · exact .inl ‹_›
    · exact .inr h.1

theorem HasRoom.grants {s : Stream} {n : Nat} (h : s.HasRoom n) (a : Allocator) : s.Grants a n :=
  ⟨h.writable, h.lt_limit, .inl h.fits⟩

end Stream

end Bitwire
