import Bitwire.Proofs.Operations
import Bitwire.Proofs.Wire.Write

/-!
# Writes that only the allocator stops

The buffer of a writable stream is inside the stream or was granted by the memory of a machine, so that its
positions are far below the largest 64-bit number. What finds no fault with its own arguments is then
written, unless the allocator refuses a larger buffer.

* `Stream.Granted`, `Reachable.granted`: a machine can grant the buffer of a stream.
* `Stream.RefusedOnly`: a write that nothing but a refusal stops.
* `Code.written`, `WritesWire.written`: well-formed codes and exact codecs.
-/

namespace Bitwire

namespace Stream

/-! ## The sizes of buffers -/

/-- The buffer of a stream that is no view is of a size that a machine can grant. -/
def Granted (s : Stream) : Prop := s.readOnly = false → s.buffer.size < Memory.limit

theorem Granted.of_eq {s s' : Stream} (h : s.Granted) (hstorage : s'.storage = s.storage)
    (hsize : s'.buffer.size = s.buffer.size) : s'.Granted := by
  unfold Granted readOnly at *
  rwa [hstorage, hsize]

theorem granted_empty (setup : Setup) : (empty setup).Granted := by
  intro _
  unfold empty
  rw [Buffer.size_zeros]
  decide

theorem granted_withCapacity {setup : Setup} {bytes : Nat} {a a' : Allocator} {s : Stream}
    (h : withCapacity setup bytes a = .ok s a') : s.Granted := by
  unfold withCapacity at h
  split at h
  · cases h
    exact granted_empty setup
  · obtain ⟨buffer, a₁, halloc, h⟩ := bind_eq_ok_iff.1 h
    cases h
    obtain ⟨hgranted, rfl, -⟩ := allocate_eq_ok_iff.1 halloc
    intro _
    dsimp only
    rw [Buffer.size_zeros]
    exact lt_limit_of_grants hgranted

theorem granted_ofBytes {setup : Setup} {src : List UInt8} {a a' : Allocator} {s : Stream}
    (h : ofBytes setup src a = .ok s a') : s.Granted := by
  obtain ⟨t, hmade, rfl⟩ := ofBytes_eq_ok h
  obtain ⟨-, hle, -⟩ := valid_withCapacity hmade
  exact (granted_withCapacity hmade).of_eq rfl (Buffer.size_resize hle)

theorem granted_view (setup : Setup) (src : List UInt8) : (view setup src).Granted := nofun

theorem granted_make {origin : Origin} {setup : Setup} {a a' : Allocator} {s : Stream}
    (h : origin.make setup a = .ok s a') : s.Granted := by
  cases origin with
  | empty =>
    cases h
    exact granted_empty setup
  | withCapacity bytes => exact granted_withCapacity h
  | ofBytes src => exact granted_ofBytes h
  | view src =>
    cases h
    exact granted_view setup src
  | wrap src copy =>
    cases copy with
    | true => exact granted_ofBytes h
    | false =>
      cases h
      exact granted_view setup src

theorem governs_granted : Governs (fun _ => True) fun b _ b' => b.stream.Granted → b'.stream.Granted where
  done _ := id
  stopped _ _ _ := id
  grown b _ _ _ hfull hgranted _ := fun _ =>
    (size_grown (size_le_growTarget hfull) b.allocator).trans_lt (lt_limit_of_grants hgranted)
  denied _ _ _ _ _ := id
  stored _ _ _ _ hsize h := h.of_eq rfl hsize
  trans h h' := h' ∘ h

theorem Granted.next {s s' : Stream} (hs : s.Granted) (h : Next s s') : s'.Granted := by
  cases h with
  | @perform a op v b h =>
    obtain ⟨requests, hasks⟩ := op.exists_asks ⟨s, a⟩
    have := governs_granted.op (fun b t hstorage hsize h => h.of_eq hstorage hsize) hasks
      (fun _ _ => trivial) hs
    rwa [h] at this
  | @receive source a n r b h =>
    obtain ⟨requests, hasks, -⟩ := takes_transfer source n ⟨s, a⟩
    have := governs_granted.asks hasks (fun _ _ => trivial) hs
    rwa [h] at this
  | send h =>
    obtain ⟨-, -, rfl, -⟩ := transfer_eq_ok h
    exact hs.of_eq rfl rfl

/-- A machine can grant the buffer of every stream that comes about and is no view. -/
theorem Reachable.granted {s : Stream} (h : Reachable s) : s.Granted := by
  induction h with
  | made _ _ h => exact granted_make h
  | cloned _ h ih =>
    rw [clone_eq_ok h]
    exact ih
  | next _ h ih => exact ih.next h

/-- The positions of a writable stream are below the largest position, by far. -/
theorem Reachable.lt_positionLimit {s : Stream} (h : Reachable s) (hw : s.readOnly = false) {n : Nat}
    (hn : n ≤ 2 ^ 63) : s.writePos + n + 8 * growthStep < positionLimit := by
  have hsize := h.granted hw
  have hle := h.valid.writePos_le
  unfold capacity at hle
  unfold Memory.limit at hsize
  unfold positionLimit growthStep
  omega

/-! ## Refusals -/

/-- Nothing stops `x` but that the allocator refuses memory. -/
def RefusedOnly {α : Type} (x : WriteM α) (b : Backed) : Prop :=
  ∀ f b', x b = .error f b' → f.Refusal

namespace RefusedOnly

variable {α β : Type} {x : WriteM α} {b : Backed}

theorem of_ok {v : α} {b' : Backed} (h : x b = .ok v b') : RefusedOnly x b := by
  intro f c hf
  rw [h] at hf
  contradiction

theorem pure (v : α) (b : Backed) : RefusedOnly (Pure.pure v : WriteM α) b := .of_ok rfl

theorem bind {f : α → WriteM β} (hx : RefusedOnly x b)
    (hf : ∀ v b', x b = .ok v b' → RefusedOnly (f v) b') : RefusedOnly (x >>= f) b := by
  intro e b'' h
  rcases bind_eq_error_iff.1 h with h | ⟨v, b', hv, h⟩
  · exact hx e b'' h
  · exact hf v b' hv e b'' h

theorem look {f : Backed → WriteM α} (h : RefusedOnly (f b) b) : RefusedOnly (get >>= f) b := h

/-- Either it succeeds or memory is refused. -/
theorem cases (h : RefusedOnly x b) :
    (∃ v b', x b = .ok v b') ∨ ∃ f b', x b = .error f b' ∧ f.Refusal := by
  cases hx : x b with
  | ok v b' => exact .inl ⟨v, b', rfl⟩
  | error f b' => exact .inr ⟨f, b', rfl, h f b' hx⟩

end RefusedOnly

section Writable

variable {b : Backed} (hw : b.stream.readOnly = false)
include hw

theorem refusedOnly_reserve {n : Nat}
    (hlt : b.stream.writePos + n + 8 * growthStep < positionLimit) : RefusedOnly (reserve n) b :=
  fun _ _ h => refusal_of_reserve hw hlt h

theorem refusedOnly_append {n : Nat} {store : Nat → Buffer → Except Fault Buffer}
    {refused : Setup → Option Fault} (hstore : Fits n store) (hrefused : ∀ setup, refused setup = none)
    (hlt : b.stream.writePos + n + 8 * growthStep < positionLimit) :
    RefusedOnly (append n store refused) b := by
  intro f b' h
  have hall := appended hstore refused b
  rw [h] at hall
  cases hall with
  | full hreserve => exact refusedOnly_reserve hw hlt f b' hreserve
  | @refused _ b' _ hf =>
    rw [hrefused] at hf
    contradiction

theorem refusedOnly_piece {p : Piece} (hp : p.WellFormed)
    (hlt : b.stream.writePos + (p.bits b.stream.writePos).length + 8 * growthStep < positionLimit) :
    RefusedOnly p.write b := by
  cases p with
  | bit bit => exact refusedOnly_append hw (fits_storeBit bit) (fun _ => rfl) hlt
  | run src n right =>
    obtain ⟨h0, hn, hstray⟩ := hp
    rw [Piece.bits, length_takenBits right hn] at hlt
    rw [Piece.write, writeRun_eq right h0 (Nat.not_lt.2 hn)]
    exact refusedOnly_append hw (fits_storeRun right hn) (fun _ => strayIn_eq_none fun _ => hstray) hlt
  | align =>
    rw [Piece.bits, List.length_replicate] at hlt
    intro f b' h
    rw [Piece.write, writeAlign_eq] at h
    split at h
    · contradiction
    · exact refusedOnly_append hw (fits_pure _) (fun _ => rfl) hlt f b' h

end Writable

end Stream

open Bitwire.Stream

/-- A well-formed code is stopped by nothing else. The induction takes the write position along. -/
theorem Code.refusedOnly {code : Code} (hcode : code.WellFormed) {s : Stream} (hs : s.Valid)
    (hw : s.readOnly = false) (a : Allocator)
    (hlt : s.writePos + (code.bits s.writePos).length + 8 * growthStep < positionLimit) :
    RefusedOnly code.write ⟨s, a⟩ := by
  induction code generalizing s a with
  | nil => exact .pure 0 _
  | cons p ps ih =>
    obtain ⟨hp, hps⟩ := wellFormed_cons.1 hcode
    rw [bits_cons, List.length_append] at hlt
    refine (refusedOnly_piece hw hp (by dsimp only; omega)).bind fun i t h => ?_
    have hext := (p.appends s a i t hs h).2
    have hpos : t.stream.writePos = s.writePos + (p.bits s.writePos).length := hext.writePos_eq
    have hrest := ih hps hext.valid (hext.evolves.readOnly_eq.trans hw) t.allocator (by
      rw [hpos]
      omega)
    exact hrest.bind fun _ _ _ => .pure _ _

/-- A well-formed code is written to a stream that is writable, or memory is refused. -/
theorem Code.written {code : Code} (hcode : code.WellFormed) {s : Stream} (hs : s.Reachable)
    (hw : s.readOnly = false) (a : Allocator) (hn : (code.bits s.writePos).length ≤ 2 ^ 63) :
    (∃ b, code.write ⟨s, a⟩ = .ok (code.bits s.writePos).length b ∧
      s.Extends (code.bits s.writePos) b.stream) ∨
      ∃ f b, code.write ⟨s, a⟩ = .error f b ∧ f.Refusal := by
  have hrefused := code.refusedOnly hcode hs.valid hw a (hs.lt_positionLimit hw hn)
  rcases hrefused.cases with ⟨k, b, hok⟩ | h
  · obtain ⟨rfl, hext⟩ := code.appends_write s a k b hs.valid hok
    exact .inl ⟨b, hok, hext⟩
  · exact .inr h

/-- An exact codec writes its bits to a stream that is writable, or memory is refused. -/
theorem WritesWire.written {x : WriteM Nat} {bits : List Bool} (h : WritesWire x bits) {s : Stream}
    (hs : s.Reachable) (hw : s.readOnly = false) (a : Allocator) (hn : bits.length ≤ 2 ^ 63) :
    (∃ b, x ⟨s, a⟩ = .ok bits.length b ∧ b.stream.bits = s.bits ++ bits) ∨
      ∃ f b, x ⟨s, a⟩ = .error f b ∧ f.Refusal := by
  obtain ⟨code, rfl, hform, hbits⟩ := h
  rw [← hbits s.writePos] at hn ⊢
  rcases code.written hform hs hw a hn with ⟨b, hok, hext⟩ | hrefused
  · exact .inl ⟨b, hok, hext.bits_eq⟩
  · exact .inr hrefused

end Bitwire
