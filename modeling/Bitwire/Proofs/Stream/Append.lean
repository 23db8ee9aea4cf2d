import Bitwire.Proofs.Stream.Room

/-!
# Appending

Every write that succeeds on a valid stream appends bits that depend on nothing but its arguments
and, where it aligns, the write position. It returns their number.

* `Stream.Appends`: a write appends certain bits; `Appends.seq`: two writes in a row.
* `Stream.Fits`: a store that succeeds where there is room, as all of them do (`fits_storeBit` …).
* `Stream.Appended`, `appended`: all that making room and storing can lead to.
* `Valid.extends_append`: storing bits where there is room for them appends them.
* `appends_writeBit` … `appends_padTo`: what the writes of bits and bytes append.
-/

namespace Bitwire

namespace Stream

/-- Whenever `x` succeeds on a valid stream, it appends the bits that belong to the host order and
the write position of the stream, and returns their number. -/
def Appends (x : WriteM Nat) (bits : ByteOrder → Nat → List Bool) : Prop :=
  ∀ (s : Stream) (a : Allocator) (n : Nat) (b : Backed), s.Valid → x ⟨s, a⟩ = .ok n b →
    n = (bits s.setup.order s.writePos).length ∧
      s.Extends (bits s.setup.order s.writePos) b.stream

theorem Appends.seq {x y : WriteM Nat} {xs ys : ByteOrder → Nat → List Bool} (hx : Appends x xs)
    (hy : Appends y ys) :
    Appends (do let a ← x; let b ← y; pure (a + b))
      fun o p => xs o p ++ ys o (p + (xs o p).length) := by
  intro s a n b hs h
  obtain ⟨i, ⟨t, _⟩, h1, h⟩ := bind_eq_ok_iff.1 h
  obtain ⟨j, _, h2, h⟩ := bind_eq_ok_iff.1 h
  obtain ⟨rfl, rfl⟩ := pure_eq_ok_iff.1 h
  obtain ⟨hi, hext⟩ := hx s a _ _ hs h1
  obtain ⟨hj, hext'⟩ := hy _ _ _ _ hext.valid h2
  dsimp only at hext hj hext'
  rw [hext.evolves.setup_eq, hext.writePos_eq] at hj hext'
  exact ⟨by rw [hi, hj, List.length_append], hext.trans hext'⟩

theorem appends_pure_zero : Appends (pure 0) fun _ _ => [] := by
  intro s a n b hs h
  obtain ⟨rfl, rfl⟩ := pure_eq_ok_iff.1 h
  exact ⟨rfl, .refl hs⟩

theorem appends_throw (f : Fault) (bits : ByteOrder → Nat → List Bool) :
    Appends (throw f) bits :=
  fun _ _ _ _ _ h => absurd h throw_ne_ok

/-! ## Stores -/

/-- A stream with a new buffer and `n` more bits. -/
def advance (s : Stream) (buffer : Buffer) (n : Nat) : Stream :=
  { s with buffer, writePos := s.writePos + n }

/-- Where there is room for `n` bits, the store succeeds and leaves the size of the buffer as it is. -/
def Fits (n : Nat) (store : Nat → Buffer → Except Fault Buffer) : Prop :=
  ∀ (position : Nat) (buffer : Buffer), position + n ≤ 8 * buffer.size →
    ∃ after, store position buffer = .ok after ∧ after.size = buffer.size

theorem fits_storeBit (bit : Bool) : Fits 1 fun position buffer => buffer.storeBit position bit := by
  intro position buffer hroom
  obtain ⟨after, hafter, hsize, -⟩ := Buffer.stores_storeBit hroom bit
  exact ⟨after, hafter, hsize⟩

theorem fits_storeRun (right : Bool) {n : Nat} {src : List UInt8} (hn : n ≤ 8 * src.length) :
    Fits n fun position buffer => buffer.storeRun right position n src := by
  intro position buffer hroom
  obtain ⟨after, hafter, hsize, -⟩ := Buffer.stores_storeRun right hn hroom
  exact ⟨after, hafter, hsize⟩

theorem fits_overwrite (src : List UInt8) :
    Fits (8 * src.length) fun position buffer => buffer.overwrite (position / 8) src := by
  intro position buffer hroom
  obtain ⟨after, hafter, hsize, -⟩ :=
    Buffer.stores_overwrite buffer (k := position / 8) src (by omega)
  exact ⟨after, hafter, hsize⟩

theorem fits_zeros (k : Nat) :
    Fits (8 * k) fun position buffer => buffer.overwrite (position / 8) (List.replicate k 0) := by
  have h := fits_overwrite (List.replicate k 0)
  rwa [List.length_replicate] at h

theorem fits_pure (n : Nat) : Fits n fun _ buffer => pure buffer :=
  fun _ buffer _ => ⟨buffer, rfl, rfl⟩

theorem run_storeBits (n : Nat) (store : Nat → Buffer → Except Fault Buffer) (s : Stream) :
    (storeBits n store).run s =
      (store s.writePos s.buffer).map fun buffer => ((), s.advance buffer n) := by
  unfold storeBits
  cases h : store s.writePos s.buffer <;> simp [h] <;> rfl

/-! ## Room and a store -/

/-- All that making room for `n` bits and storing them can lead to: a store that fits does not fail. -/
inductive Appended (n : Nat) (store : Nat → Buffer → Except Fault Buffer)
    (refused : Setup → Option Fault) (b : Backed) : EStateM.Result Fault Backed Nat → Prop
  /-- No room is made. -/
  | full {f : Fault} {b' : Backed} : reserve n b = .error f b' → Appended n store refused b (.error f b')
  /-- The setup of the stream is against it. -/
  | refused {f : Fault} {b' : Backed} : reserve n b = .ok () b' → refused b'.stream.setup = some f →
      Appended n store refused b (.error f b')
  /-- The bits are stored. -/
  | done {b' : Backed} {buffer : Buffer} : reserve n b = .ok () b' → refused b'.stream.setup = none →
      store b'.stream.writePos b'.stream.buffer = .ok buffer →
      buffer.size = b'.stream.buffer.size →
      Appended n store refused b (.ok n { b' with stream := b'.stream.advance buffer n })

section Append

variable {n : Nat} {store : Nat → Buffer → Except Fault Buffer} {refused : Setup → Option Fault}
  {b : Backed}

theorem storeChecked_eq :
    storeChecked n store refused b =
      match refused b.stream.setup with
      | some f => .error f b
      | none =>
        match store b.stream.writePos b.stream.buffer with
        | .ok buffer => .ok n { b with stream := b.stream.advance buffer n }
        | .error f => .error f b := by
  change (match refused b.stream.setup with
    | some f => throw f
    | none => do onStream (storeBits n store); pure n : WriteM Nat) b = _
  cases refused b.stream.setup with
  | some f => rfl
  | none =>
    change EStateM.bind (onStream (storeBits n store)) _ b = _
    unfold EStateM.bind onStream
    rw [run_storeBits]
    cases store b.stream.writePos b.stream.buffer <;> rfl

/-- Where room was made, the bits are stored. -/
theorem append_of_reserve {b' : Backed} (h : reserve n b = .ok () b') :
    append n store refused b = storeChecked n store refused b' :=
  bind_of_ok h

theorem append_of_error {f : Fault} {b' : Backed} (h : reserve n b = .error f b') :
    append n store refused b = .error f b' :=
  bind_of_error h

theorem appended (hstore : Fits n store) (refused : Setup → Option Fault) (b : Backed) :
    Appended n store refused b (append n store refused b) := by
  cases hreserve : reserve n b with
  | error f b' =>
    rw [append_of_error hreserve]
    exact .full hreserve
  | ok _ b' =>
    obtain ⟨hroom, -⟩ := hasRoom_of_reserve hreserve
    obtain ⟨after, hafter, hsize⟩ := hstore b'.stream.writePos b'.stream.buffer hroom.fits
    rw [append_of_reserve hreserve, storeChecked_eq]
    cases hrefused : refused b'.stream.setup with
    | some f => exact .refused hreserve hrefused
    | none =>
      rw [hafter]
      exact .done hreserve hrefused hafter hsize

/-- Where the bits are stored if room is made for them. -/
theorem exists_append_eq_ok (hstore : Fits n store) {b' : Backed} (h : reserve n b = .ok () b')
    (hrefused : refused b'.stream.setup = none) : ∃ b'', append n store refused b = .ok n b'' := by
  obtain ⟨hroom, -⟩ := hasRoom_of_reserve h
  obtain ⟨after, hafter, -⟩ := hstore b'.stream.writePos b'.stream.buffer hroom.fits
  rw [append_of_reserve h, storeChecked_eq, hrefused, hafter]
  exact ⟨_, rfl⟩

/-- Storing bits at the write position, where there is room for them, appends them. -/
theorem Valid.extends_append {s : Stream} {a : Allocator} {k : Nat} {b'' : Backed} {bits : List Bool}
    (hs : s.Valid) (hn : bits.length = n)
    (hstore : ∀ buffer : Buffer, s.writePos + n ≤ 8 * buffer.size →
      buffer.Stores s.writePos bits (store s.writePos buffer))
    (h : append n store refused ⟨s, a⟩ = .ok k b'') : k = n ∧ s.Extends bits b''.stream := by
  cases hreserve : reserve n ⟨s, a⟩ with
  | error f b' =>
    rw [append_of_error hreserve] at h
    contradiction
  | ok _ b' =>
    obtain ⟨hext, hroom⟩ := hs.extends_of_reserve hreserve
    have hpos : b'.stream.writePos = s.writePos := hext.writePos_eq
    obtain ⟨after, hafter, -, hstored⟩ := hstore b'.stream.buffer (hpos ▸ hroom.fits)
    rw [append_of_reserve hreserve, storeChecked_eq, hpos, hafter] at h
    rw [← hpos] at hstored
    cases hrefused : refused b'.stream.setup with
    | some f =>
      rw [hrefused] at h
      contradiction
    | none =>
      rw [hrefused] at h
      cases h
      have happended := hext.valid.extends_of_stored (hstored hext.valid.clean) (hn ▸ hroom.fits)
      rw [hn] at happended
      exact ⟨rfl, hext.trans happended⟩

end Append

/-! ## Single writes -/

/-- What stands against a run in the setup of a stream: a stray bit that is looked for. -/
def strayIn (src : List UInt8) (n : Nat) (right : Bool) (setup : Setup) : Option Fault :=
  if setup.strict then (strayByte? src n right).map .strayBits else none

theorem strayIn_eq_none {src : List UInt8} {n : Nat} {right : Bool} {setup : Setup}
    (h : setup.strict = true → strayByte? src n right = none) : strayIn src n right setup = none := by
  unfold strayIn
  split
  · rw [h ‹_›]
    rfl
  · rfl

theorem writeRun_eq {src : List UInt8} {n : Nat} (right : Bool) (h0 : n ≠ 0)
    (hl : ¬ 8 * src.length < n) :
    writeRun src n right =
      append n (fun position buffer => buffer.storeRun right position n src) (strayIn src n right) := by
  unfold writeRun
  rw [if_neg h0, if_neg hl]
  rfl

/-- A run that is accepted is not empty, and its source is long enough. -/
theorem bounds_of_writeRun {src : List UInt8} {n k : Nat} {right : Bool} {b b' : Backed}
    (h : writeRun src n right b = .ok k b') : n ≠ 0 ∧ n ≤ 8 * src.length := by
  unfold writeRun at h
  split at h
  · exact absurd h throw_ne_ok
  · split at h
    · exact absurd h throw_ne_ok
    · exact ⟨‹_›, Nat.le_of_not_lt ‹_›⟩

/-- Zeros up to the next byte boundary are there already. -/
theorem stores_padding (buffer : Buffer) (position : Nat) :
    buffer.Stores position (List.replicate (padding position) false) (pure buffer) := by
  refine ⟨buffer, rfl, rfl, fun hclean => ⟨rfl, fun i => ?_⟩⟩
  rw [List.length_replicate]
  split
  · rename_i hi
    rw [hclean i hi.1 (by unfold padding bytesFor at *; omega), List.getElem?_replicate]
    split <;> rfl
  · rfl

theorem appends_writeBit (bit : Bool) : Appends (writeBit bit) fun _ _ => [bit] :=
  fun _ _ _ _ hs h => hs.extends_append rfl (fun _ hroom => Buffer.stores_storeBit hroom bit) h

theorem appends_writeRun (src : List UInt8) (n : Nat) (right : Bool) :
    Appends (writeRun src n right) fun _ _ => takenBits right n src := by
  intro s a k b hs h
  obtain ⟨h0, hn⟩ := bounds_of_writeRun h
  have hlen := length_takenBits right hn
  rw [writeRun_eq right h0 (Nat.not_lt.2 hn)] at h
  rw [hlen]
  exact hs.extends_append hlen (fun _ hroom => Buffer.stores_storeRun right hn hroom) h

theorem writeAlign_eq (b : Backed) :
    writeAlign b =
      if padding b.stream.writePos = 0 then .ok 0 b
      else append (padding b.stream.writePos) (fun _ buffer => pure buffer) (fun _ => none) b := by
  change (if padding b.stream.writePos = 0 then pure 0 else _ : WriteM Nat) b = _
  split <;> rfl

theorem appends_writeAlign : Appends writeAlign fun _ p => List.replicate (padding p) false := by
  intro s a n b hs h
  rw [List.length_replicate]
  rw [writeAlign_eq] at h
  split at h
  · rename_i h0
    cases h
    dsimp only at h0 ⊢
    rw [h0]
    exact ⟨rfl, .refl hs⟩
  · exact hs.extends_append List.length_replicate (fun _ _ => stores_padding _ _) h

theorem appends_writeBytes (src : List UInt8) : Appends (writeBytes src) fun _ _ => bitsOf src := by
  unfold writeBytes
  cases src with
  | nil => exact appends_pure_zero
  | cons x xs =>
    have := appends_writeRun (x :: xs) (8 * (x :: xs).length) true
    rwa [takenBits_bytes, List.take_length] at this

theorem appends_writeAlignedBytes (src : List UInt8) :
    Appends (writeAlignedBytes src) fun _ p => List.replicate (padding p) false ++ bitsOf src :=
  appends_writeAlign.seq (appends_writeBytes src)

theorem padTo_eq (bytes : Nat) (b : Backed) :
    padTo bytes b =
      if bytes ≤ b.stream.writtenBytes then .ok 0 b
      else (do let i ← writeAlign; let j ← writeZeros bytes; pure (i + j) : WriteM Nat) b := by
  change (if bytes ≤ b.stream.writtenBytes then pure 0 else _ : WriteM Nat) b = _
  split <;> rfl

theorem bitsOf_replicate_zero (k : Nat) :
    bitsOf (List.replicate k 0) = List.replicate (8 * k) false := by
  induction k with
  | zero => rfl
  | succ k ih =>
    rw [List.replicate_succ, bitsOf_cons, ih, show 8 * (k + 1) = 8 + 8 * k by omega,
      ← List.replicate_append_replicate]
    rfl

theorem writeZeros_eq (bytes : Nat) (b : Backed) :
    writeZeros bytes b =
      append (8 * (bytes - b.stream.writePos / 8)) (fun position buffer =>
        buffer.overwrite (position / 8) (List.replicate (bytes - b.stream.writePos / 8) 0))
        (fun _ => none) b :=
  rfl

theorem Valid.extends_writeZeros {s : Stream} {a : Allocator} {bytes k : Nat} {b : Backed}
    (hs : s.Valid) (h8 : s.writePos % 8 = 0) (h : writeZeros bytes ⟨s, a⟩ = .ok k b) :
    k = 8 * (bytes - s.writePos / 8) ∧
      s.Extends (List.replicate (8 * (bytes - s.writePos / 8)) false) b.stream := by
  rw [writeZeros_eq] at h
  refine hs.extends_append List.length_replicate (fun buffer hroom => ?_) h
  have hstores := Buffer.stores_overwrite buffer (k := s.writePos / 8)
    (List.replicate (bytes - s.writePos / 8) 0) (by rw [List.length_replicate]; omega)
  rwa [bitsOf_replicate_zero, show 8 * (s.writePos / 8) = s.writePos by omega] at hstores

theorem appends_padTo (bytes : Nat) :
    Appends (padTo bytes)
      fun _ p => if bytes ≤ bytesFor p then [] else List.replicate (8 * bytes - p) false := by
  intro s a k b hs h
  rw [padTo_eq] at h
  dsimp only
  by_cases hle : bytes ≤ bytesFor s.writePos
  · rw [if_pos (by exact hle)] at h
    rw [if_pos hle]
    cases h
    exact ⟨rfl, .refl hs⟩
  · rw [if_neg (by exact hle)] at h
    rw [if_neg hle]
    obtain ⟨i, ⟨t, a'⟩, h₁, h⟩ := bind_eq_ok_iff.1 h
    obtain ⟨j, b', h₂, h⟩ := bind_eq_ok_iff.1 h
    obtain ⟨rfl, rfl⟩ := pure_eq_ok_iff.1 h
    obtain ⟨hi, hext₁⟩ := appends_writeAlign s a i _ hs h₁
    rw [List.length_replicate] at hi
    have hpos : t.writePos = s.writePos + padding s.writePos := by
      rw [hext₁.writePos_eq, List.length_replicate]
    -- the write position is at a byte boundary now, and whole bytes are missing
    have h8 : t.writePos % 8 = 0 := by
      unfold padding at hpos
      omega
    obtain ⟨hj, hext₂⟩ := hext₁.valid.extends_writeZeros h8 h₂
    have hsum : padding s.writePos + 8 * (bytes - t.writePos / 8) = 8 * bytes - s.writePos := by
      unfold padding bytesFor at *
      omega
    have hall := hext₁.trans hext₂
    rw [List.replicate_append_replicate, hsum] at hall
    exact ⟨by rw [hi, hj, hsum, List.length_replicate], hall⟩

end Stream

end Bitwire
