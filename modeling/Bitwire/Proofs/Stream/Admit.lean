import Bitwire.Proofs.Stream.Append

/-!
# Writes that are not refused

A write of bits is accepted where the stream is writable, its positions stay 64-bit numbers and there is
room or the allocator grants the buffer that is asked for. A run must not be empty, needs a source that is
long enough and, where stray bits are looked for, may not leave out any that is set.

A write that is put together from others may ask for several buffers. What the memory answers to one
request says nothing about the next, so that such a write is accepted where no request for a buffer of that
size is refused from then on.

* `Allocator.Affords`: no request for so many bytes is refused; `Allocator.Later`: an allocator later on.
* `Stream.Admits`: so many more bits are not refused, however they are divided up.
* `exists_writeBit_eq_ok` … `exists_padTo_eq_ok`: the writes that are accepted.
-/

namespace Bitwire

/-! ## Memory -/

namespace Allocator

/-- From now on no request for up to so many bytes is refused. -/
def Affords (a : Allocator) (bytes : Nat) : Prop :=
  ∀ request k, a.counters.requests ≤ request → k ≤ bytes → a.memory.grants request k = true

/-- `a'` is what `a` may become: it has the same memory and was asked at least as often. -/
structure Later (a a' : Allocator) : Prop where
  memory_eq : a'.memory = a.memory
  requests_le : a.counters.requests ≤ a'.counters.requests

theorem Later.refl (a : Allocator) : a.Later a := ⟨rfl, Nat.le_refl _⟩

theorem Later.trans {a a' a'' : Allocator} (h : a.Later a') (h' : a'.Later a'') : a.Later a'' :=
  ⟨h'.memory_eq.trans h.memory_eq, Nat.le_trans h.requests_le h'.requests_le⟩

namespace Affords

variable {a a' : Allocator} {bytes : Nat}

theorem grants (h : a.Affords bytes) {k : Nat} (hk : k ≤ bytes) : a.grants k = true :=
  h _ k (Nat.le_refl _) hk

theorem mono (h : a.Affords bytes) {k : Nat} (hk : k ≤ bytes) : a.Affords k :=
  fun request _ hr hj => h request _ hr (Nat.le_trans hj hk)

theorem later (h : a.Affords bytes) (hlater : a.Later a') : a'.Affords bytes := by
  intro request k hr hk
  rw [hlater.memory_eq]
  exact h request k (Nat.le_trans hlater.requests_le hr) hk

end Affords

/-- A machine that never runs short affords what its addresses reach. -/
theorem affords_ample {a : Allocator} (ha : a.memory = .ample) {bytes : Nat}
    (h : bytes < Memory.limit) : a.Affords bytes := by
  intro request k _ hk
  rw [ha]
  exact decide_eq_true (Nat.lt_of_le_of_lt hk h)

end Allocator

namespace Stream

/-! ## Room -/

/-- `n` more bits are not refused, however they are divided up: the stream is writable, its positions stay
64-bit numbers, and the bits fit or the allocator refuses no buffer that would be asked for. -/
structure Admits (s : Stream) (a : Allocator) (n : Nat) : Prop where
  writable : s.readOnly = false
  lt_limit : s.writePos + n < positionLimit
  fits_or_affords : s.writePos + n ≤ s.capacity ∨ a.Affords (growTarget (s.writePos + n))

namespace Admits

variable {s s' : Stream} {a a' : Allocator} {m n : Nat}

theorem mono (h : s.Admits a n) (hmn : m ≤ n) : s.Admits a m where
  writable := h.writable
  lt_limit := by have := h.lt_limit; omega
  fits_or_affords := by
    rcases h.fits_or_affords with hfits | haffords
    · exact .inl (by omega)
    · exact .inr (haffords.mono (growTarget_mono (by omega)))

/-- What is left of the room after some of the bits. -/
theorem of_extends {bits : List Bool} (h : s.Admits a (bits.length + n)) (hext : s.Extends bits s')
    (hlater : a.Later a') : s'.Admits a' n where
  writable := hext.evolves.readOnly_eq.trans h.writable
  lt_limit := by rw [hext.writePos_eq, Nat.add_assoc]; exact h.lt_limit
  fits_or_affords := by
    rw [hext.writePos_eq, Nat.add_assoc]
    rcases h.fits_or_affords with hfits | haffords
    · exact .inl (Nat.le_trans hfits hext.evolves.capacity_le)
    · exact .inr (haffords.later hlater)

theorem grants (h : s.Admits a n) : s.Grants a n where
  writable := h.writable
  lt_limit := h.lt_limit
  fits_or_granted := h.fits_or_affords.imp_right fun haffords => haffords.grants (Nat.le_refl _)

end Admits

theorem HasRoom.admits {s : Stream} {n : Nat} (h : s.HasRoom n) (a : Allocator) : s.Admits a n :=
  ⟨h.writable, h.lt_limit, .inl h.fits⟩

/-- Where memory never runs short, room that there can be at once there can be in parts. -/
theorem Grants.admits {s : Stream} {a : Allocator} {n : Nat} (h : s.Grants a n)
    (ha : a.memory = .ample) : s.Admits a n where
  writable := h.writable
  lt_limit := h.lt_limit
  fits_or_affords := h.fits_or_granted.imp_right fun hgranted =>
    Allocator.affords_ample ha (a.memory.lt_limit hgranted)

/-- An empty stream takes what a machine that never runs short affords. -/
theorem admits_empty (setup : Setup) {a : Allocator} (ha : a.memory = .ample) {n : Nat}
    (h : growTarget n < Memory.limit) : (empty setup).Admits a n := by
  have hpos : (empty setup).writePos + n = n := Nat.zero_add n
  have hgranted : a.grants (growTarget n) = true := by
    unfold Allocator.grants
    rw [ha]
    exact decide_eq_true h
  have hlt : n < positionLimit := by
    have := le_growTarget n
    unfold Memory.limit at h
    unfold positionLimit
    omega
  refine Grants.admits ⟨rfl, ?_, .inr ?_⟩ ha
  · rwa [hpos]
  · rwa [hpos]

/-! ## Later -/

section Later

variable {n k : Nat} {b b' : Backed}

theorem later_grownAllocator (s : Stream) (a : Allocator) : a.Later (s.grownAllocator a) := by
  refine ⟨rfl, ?_⟩
  unfold grownAllocator Allocator.tally Counters.requests
  dsimp only
  split <;> dsimp only <;> omega

/-- Making room asks at most once. -/
theorem later_reserve (h : reserve n b = .ok () b') : b.allocator.Later b'.allocator := by
  have hall := reserved n b
  rw [h] at hall
  cases hall with
  | fits => exact .refl _
  | grown => exact later_grownAllocator _ _

theorem later_append {store : Nat → Buffer → Except Fault Buffer} {refused : Setup → Option Fault}
    (hstore : Fits n store) (h : append n store refused b = .ok k b') :
    b.allocator.Later b'.allocator := by
  have hall := appended hstore refused b
  rw [h] at hall
  cases hall with
  | done hreserve =>
    have hlater := later_reserve hreserve
    exact hlater

theorem later_writeAlign (h : writeAlign b = .ok k b') : b.allocator.Later b'.allocator := by
  rw [writeAlign_eq] at h
  split at h
  · cases h
    exact .refl _
  · exact later_append (fits_pure _) h

end Later

/-! ## Writes -/

/-- Whole bytes leave out no bits. -/
theorem strayByte?_bytes (src : List UInt8) (k : Nat) (right : Bool) :
    strayByte? src (8 * k) right = none := by
  simp [strayByte?]

section Accepted

variable {s : Stream} {a : Allocator}

theorem exists_writeBit_eq_ok (bit : Bool) (h : s.Grants a 1) :
    ∃ b, writeBit bit ⟨s, a⟩ = .ok 1 b := by
  obtain ⟨b, hb⟩ := grants_iff.1 h
  exact exists_append_eq_ok (fits_storeBit bit) hb rfl

theorem exists_writeAlign_eq_ok (h : s.Grants a (padding s.writePos)) :
    ∃ k b, writeAlign ⟨s, a⟩ = .ok k b := by
  rw [writeAlign_eq]
  split
  · exact ⟨_, _, rfl⟩
  · obtain ⟨b, hb⟩ := grants_iff.1 h
    exact ⟨_, exists_append_eq_ok (fits_pure _) hb rfl⟩

theorem exists_writeRun_eq_ok {src : List UInt8} {n : Nat} (right : Bool) (h0 : n ≠ 0)
    (hn : n ≤ 8 * src.length) (hstray : s.setup.strict = true → strayByte? src n right = none)
    (h : s.Grants a n) : ∃ b, writeRun src n right ⟨s, a⟩ = .ok n b := by
  obtain ⟨b, hb⟩ := grants_iff.1 h
  rw [writeRun_eq right h0 (Nat.not_lt.2 hn)]
  refine exists_append_eq_ok (fits_storeRun right hn) hb ?_
  rw [(hasRoom_of_reserve hb).2.2]
  exact strayIn_eq_none hstray

theorem exists_writeBytes_eq_ok (src : List UInt8) (h : s.Grants a (8 * src.length)) :
    ∃ k b, writeBytes src ⟨s, a⟩ = .ok k b := by
  cases src with
  | nil => exact ⟨_, _, rfl⟩
  | cons x xs =>
    exact ⟨_, exists_writeRun_eq_ok true (by simp) (Nat.le_refl _)
      (fun _ => strayByte?_bytes _ _ _) h⟩

variable (hs : s.Valid)
include hs

theorem exists_writeAlignedBytes_eq_ok (src : List UInt8)
    (h : s.Admits a (padding s.writePos + 8 * src.length)) :
    ∃ k b, writeAlignedBytes src ⟨s, a⟩ = .ok k b := by
  obtain ⟨i, ⟨t, a₁⟩, h₁⟩ := exists_writeAlign_eq_ok (h.mono (Nat.le_add_right _ _)).grants
  have hext := (appends_writeAlign s a i _ hs h₁).2
  have hroom : t.Admits a₁ (8 * src.length) :=
    .of_extends (by rw [List.length_replicate]; exact h) hext (later_writeAlign h₁)
  obtain ⟨j, b, h₂⟩ := exists_writeBytes_eq_ok src hroom.grants
  exact ⟨i + j, b, bind_eq_ok_iff.2 ⟨i, _, h₁, bind_eq_ok_iff.2 ⟨j, b, h₂, rfl⟩⟩⟩

theorem exists_padTo_eq_ok (bytes : Nat)
    (h : ¬ bytes ≤ s.writtenBytes → s.Admits a (8 * bytes - s.writePos)) :
    ∃ k b, padTo bytes ⟨s, a⟩ = .ok k b := by
  rw [padTo_eq]
  dsimp only
  by_cases hle : bytes ≤ s.writtenBytes
  · rw [if_pos hle]
    exact ⟨_, _, rfl⟩
  · rw [if_neg hle]
    have h := h hle
    have hend : s.writePos + padding s.writePos = 8 * s.writtenBytes := by
      unfold padding writtenBytes bytesFor
      omega
    -- room is made twice, for the rest of the byte and then for whole bytes
    obtain ⟨i, ⟨t, a₁⟩, h₁⟩ := exists_writeAlign_eq_ok (h.mono (m := padding s.writePos) (by omega)).grants
    have hext := (appends_writeAlign s a i _ hs h₁).2
    have hpos : t.writePos = 8 * s.writtenBytes := by
      rw [hext.writePos_eq, List.length_replicate, hend]
    have hroom : t.Admits a₁ (8 * (bytes - t.writePos / 8)) :=
      (h.mono (by rw [List.length_replicate]; omega)).of_extends hext (later_writeAlign h₁)
    obtain ⟨b₁, hreserve⟩ := grants_iff.1 hroom.grants
    obtain ⟨b₂, h₂⟩ : ∃ b₂, writeZeros bytes ⟨t, a₁⟩ = .ok _ b₂ :=
      exists_append_eq_ok (fits_zeros _) hreserve rfl
    exact ⟨_, b₂, bind_eq_ok_iff.2 ⟨i, _, h₁, bind_eq_ok_iff.2 ⟨_, b₂, h₂, rfl⟩⟩⟩

end Accepted

end Stream

end Bitwire
