import Bitwire.Proofs.HostOrder
import Bitwire.Proofs.Stream.Reading

/-!
# What reading operations do

Every reading operation is put together from the reads of bits. Its own checks are few: of the
arguments, of a length or a version byte that was read, and of a number that has to have 24 bits.

* `Kind.Refuses`, `Kind.RefusesMini`, `ReadOp.Refuses`: the faults of these checks.
* `ReadOp.reading`: every reading operation is a reader with these faults.
-/

namespace Bitwire

open Bitwire.Stream

/-! ## Checks -/

/-- What is refused in a full-width code: a version byte. -/
def Kind.Refuses : Kind → Fault → Prop
  | v4, f => ∃ n, n ≠ SocketV4.tag ∧ f = .notV4 n
  | socket, f => ∃ n, n ≠ SocketV4.tag ∧ n ≠ SocketV6.tag ∧ f = .unknownVersion n
  | _, _ => False

/-- What is refused in a mini code: a version byte, or a number of more than 24 bits. -/
def Kind.RefusesMini : Kind → Fault → Prop
  | u24, f => ∃ n, 0xFFFFFF < n ∧ f = .tooWide n
  | k, f => k.Refuses f

/-- What is refused by the checks of an operation. -/
def ReadOp.Refuses : ReadOp → Fault → Prop
  | run dest n _, f =>
    n = 0 ∧ f = .emptyRead ∨ 8 * dest.length < n ∧ f = .shortDestination dest.length n
  | bounded bound, f => ∃ length, bound < length ∧ f = .lengthOverBound length bound
  | value k, f => k.Refuses f
  | mini k, f => k.RefusesMini f
  | changed k _, f => k.Refuses f
  | miniChanged k _, f => k.RefusesMini f
  | miniBytes _ dest, f => dest = [] ∧ f = .emptyDecompression
  | between _ min max _, f =>
    max.value < min.value ∧ f = .invertedRange min.value max.value
  | boundedFloat min max, f => min.lt max = false ∧ f = .emptyInterval min max
  | _, _ => False

/-! ## Bytes and numbers -/

section Readers

variable {refused : Fault → Prop}

theorem reading_readBytes (n : Nat) : Reading refused (readBytes n) :=
  .ite (fun _ => .pure _) fun h0 => .run fun h => absurd h (by omega)

theorem reading_readAlignedBytes (n : Nat) : Reading refused (readAlignedBytes n) :=
  .bind .align fun _ _ => reading_readBytes n

theorem reading_readNumber {k : Nat} (h0 : k ≠ 0) : Reading refused (readNumber k) := by
  rw [readNumber_eq]
  exact .map _ (.run fun h => absurd h (by omega))

theorem reading_readMiniFrom (pad : UInt8) (dest : List UInt8) :
    Reading refused (readMiniFrom pad dest) := by
  induction dest with
  | nil => exact .pure _
  | cons d ds ih =>
    cases ds with
    | nil =>
      exact .bind .bit fun _ _ => .ite
        (fun _ => .bind (.into nofun fun h => absurd h (by decide)) fun _ _ => .pure _)
        fun _ => .into nofun fun h => absurd h (by simp)
    | cons next ds =>
      exact .bind .bit fun _ _ => .ite
        (fun _ => .bind ih fun _ _ => .pure _)
        fun _ => .bind (.into nofun fun h => absurd h (by simp)) fun _ _ => .pure _

theorem reading_readMiniInto (signed : Bool) {dest : List UInt8}
    (h : dest = [] → refused .emptyDecompression) : Reading refused (readMiniInto signed dest) :=
  .ite (fun h0 => .throw (h (List.isEmpty_iff.1 h0)))
    fun _ => .bind (reading_readMiniFrom _ _) fun _ _ => .pure _

theorem reading_readMiniNumber {k : Nat} (h0 : k ≠ 0) (signed : Bool) :
    Reading refused (readMiniNumber k signed) := by
  rw [readMiniNumber_eq]
  exact .map _ (reading_readMiniInto signed fun h => absurd h (by simpa using h0))

theorem reading_readBounded {bound : Nat}
    (h : ∀ length, bound < length → refused (.lengthOverBound length bound)) :
    Reading refused (readBounded bound) :=
  .bind (reading_readMiniNumber (by decide) false) fun _ _ =>
    .ite (fun hb => .throw (h _ hb))
      fun _ => .ite (fun _ => .pure _) fun _ => reading_readAlignedBytes _

/-! ## 24-bit numbers -/

theorem Buffer.length_mapM_ok {α β ε : Type} {f : α → Except ε β} {l : List α} {ys : List β}
    (h : l.mapM f = .ok ys) : ys.length = l.length := by
  induction l generalizing ys with
  | nil =>
    cases h
    rfl
  | cons x xs ih =>
    rw [List.mapM_cons] at h
    obtain ⟨y, -, h⟩ := bind_eq_ok h
    obtain ⟨zs, hxs, h⟩ := bind_eq_ok h
    cases h
    rw [List.length_cons, List.length_cons, ih hxs]

/-- A run comes in as few bytes as hold it. -/
theorem length_of_returns_readRun {n : Nat} {right : Bool} {run : List UInt8}
    (h : Returns (readRun n right) run) : run.length = bytesFor n := by
  obtain ⟨s, s', h⟩ := h
  rw [run_readRun] at h
  split at h
  · contradiction
  · split at h
    · contradiction
    · obtain ⟨run, hload, heq⟩ := map_eq_ok h
      cases heq
      unfold Buffer.loadRun at hload
      split at hload
      · rw [(Buffer.bytesAt_eq_ok _ hload).1]
        unfold bytesFor
        omega
      · rw [Buffer.length_mapM_ok hload, List.length_range]

namespace U24

theorem check_eq_error {n : Nat} {f : Fault} (h : check n = .error f) :
    0xFFFFFF < n ∧ f = .tooWide n := by
  unfold check at h
  split at h
  · contradiction
  · cases h
    exact ⟨by omega, rfl⟩

/-- Three bytes are a number of 24 bits. -/
theorem reading_read : Reading refused U24.read := by
  rw [read_eq]
  refine .bind (.run nofun) fun image hrun => .lift _ fun f hf => ?_
  have hwide := (check_eq_error hf).1
  match image, length_of_returns_readRun hrun with
  | [a, b, c], _ =>
    have ha := a.toNat_lt
    have hb := b.toNat_lt
    have hc := c.toNat_lt
    simp only [ByteOrder.number, List.cons_append, List.nil_append, ofLittleBytes,
      UInt8.toNat_zero] at hwide
    omega

theorem reading_readMini (h : ∀ n, 0xFFFFFF < n → refused (.tooWide n)) :
    Reading refused U24.readMini :=
  .bind (reading_readMiniNumber (by decide) false) fun n _ => .lift _ fun f hf => by
    obtain ⟨hwide, rfl⟩ := check_eq_error hf
    exact h n hwide

end U24

/-! ## Addresses -/

theorem reading_readPort : Reading refused readPort := .map _ (.run nofun)

namespace SocketV4

theorem reading_readBody : Reading refused readBody :=
  .bind (.run nofun) fun _ _ => .bind reading_readPort fun _ _ => .pure _

theorem reading_readMiniBody : Reading refused readMiniBody :=
  .bind (reading_readMiniNumber (by decide) false) fun _ _ =>
    .bind (reading_readMiniNumber (by decide) false) fun _ _ => .pure _

end SocketV4

namespace SocketV6

theorem reading_readBody : Reading refused readBody :=
  .bind (.run nofun) fun _ _ => .bind reading_readPort fun _ _ => .pure _

theorem reading_readMiniBody : Reading refused readMiniBody :=
  .bind (reading_readMiniNumber (by decide) false) fun _ _ =>
    .bind (reading_readMiniNumber (by decide) false) fun _ _ =>
      .bind (reading_readMiniNumber (by decide) false) fun _ _ => .pure _

end SocketV6

end Readers

/-! ## Kinds -/

namespace Kind

theorem bytes_ne_zero (t : IntType) : t.bytes ≠ 0 := by cases t <;> decide

theorem reading_read (k : Kind) : Reading k.Refuses k.read := by
  cases k with
  | int t => exact .map _ (reading_readNumber (bytes_ne_zero t))
  | bool => exact .bit
  | single | double | guid => exact .map _ (reading_readNumber (by decide))
  | u24 => exact U24.reading_read
  | v4 =>
    exact .bind (reading_readNumber (by decide)) fun n _ =>
      .ite (fun _ => SocketV4.reading_readBody) fun h => .throw ⟨n, h, rfl⟩
  | socket =>
    exact .bind (reading_readNumber (by decide)) fun n _ =>
      .ite (fun _ => .map _ SocketV4.reading_readBody) fun h4 =>
        .ite (fun _ => .map _ SocketV6.reading_readBody) fun h6 => .throw ⟨n, h4, h6, rfl⟩

theorem reading_readMini (k : Kind) : Reading k.RefusesMini k.readMini := by
  cases k with
  | int t => exact .map _ (reading_readMiniNumber (bytes_ne_zero t) _)
  | bool => exact .bit
  | single | double | guid => exact .map _ (reading_readMiniNumber (by decide) _)
  | u24 => exact U24.reading_readMini fun n h => ⟨n, h, rfl⟩
  | v4 =>
    exact .bind (reading_readMiniNumber (by decide) false) fun n _ =>
      .ite (fun _ => SocketV4.reading_readMiniBody) fun h => .throw ⟨n, h, rfl⟩
  | socket =>
    exact .bind (reading_readMiniNumber (by decide) false) fun n _ =>
      .ite (fun _ => .map _ SocketV4.reading_readMiniBody) fun h4 =>
        .ite (fun _ => .map _ SocketV6.reading_readMiniBody) fun h6 => .throw ⟨n, h4, h6, rfl⟩

variable {refused : Fault → Prop}

theorem reading_readFlagged {α : Type} {x : StreamM α} (hx : Reading refused x) (dest : α) :
    Reading refused (readFlagged x dest) :=
  .bind .bit fun _ _ => .ite (fun _ => .bind hx fun _ _ => .pure _) fun _ => .pure _

theorem reading_readToggled (dest : Bool) : Reading refused (readToggled dest) :=
  .bind .bit fun _ _ => .pure _

theorem reading_readChanged (k : Kind) (dest : k.Val) : Reading k.Refuses (k.readChanged dest) := by
  cases k with
  | bool => exact reading_readToggled dest
  | int | single | double | u24 | guid | v4 | socket =>
    exact reading_readFlagged (reading_read _) dest

theorem reading_readMiniChanged (k : Kind) (dest : k.Val) :
    Reading k.RefusesMini (k.readMiniChanged dest) := by
  cases k with
  | bool => exact reading_readToggled dest
  | int | single | double | u24 | guid | v4 | socket =>
    exact reading_readFlagged (reading_readMini _) dest

end Kind

section Readers

variable {refused : Fault → Prop}

/-! ## Numbers between bounds -/

namespace Span

variable {t : IntType} (r : Span t)

theorem bits_le : r.bits ≤ t.bits := Nat.sub_le _ _

theorem reading_readOffset : Reading refused r.readOffset := by
  rw [readOffset_eq]
  have hle := r.bits_le
  refine .ite (fun _ => .pure _) fun h0 => .bind (.into (fun h => absurd h h0) fun h => ?_)
    fun _ _ => .pure _
  rw [List.length_replicate] at h
  exact absurd h (Nat.not_lt.2 hle)

theorem reading_read (outside : Bool) : Reading refused (r.read outside) := by
  have hrest (escaped : Bool) : Reading refused (if escaped then
      return BitVec.ofNat t.bits (← readMiniNumber t.bytes t.signed) else r.readOffset) :=
    .ite (fun _ => .map _ (reading_readMiniNumber (Kind.bytes_ne_zero t) _))
      fun _ => r.reading_readOffset
  cases outside with
  | true => exact .bind .bit fun escaped _ => hrest escaped
  | false => exact .bind (.pure false) fun escaped _ => hrest escaped

end Span

theorem reading_readBetween {t : IntType} {min max : Word t} (outside : Bool)
    (h : max.value < min.value → refused (.invertedRange min.value max.value)) :
    Reading refused (readBetween min max outside) := by
  refine .bind (.lift (Span.check min max) fun f hf => ?_) fun r _ => r.reading_read outside
  unfold Span.check at hf
  split at hf
  · contradiction
  · cases hf
    exact h (by omega)

theorem reading_readBoundedFloat {min max : Single}
    (h : min.lt max = false → refused (.emptyInterval min max)) :
    Reading refused (readBoundedFloat min max) :=
  .ite (fun _ => .map _ (reading_readMiniNumber (by decide) false))
    fun hlt => .throw (h (eq_false_of_ne_true hlt))

theorem reading_readUnitFloat : Reading refused readUnitFloat :=
  reading_readBoundedFloat fun h => absurd h (by decide)

/-! ## Vectors and rotations -/

namespace Triple

theorem reading_readEach {α : Type} {x : StreamM α} (hx : Reading refused x) :
    Reading refused (readEach x) :=
  .bind hx fun _ _ => .bind hx fun _ _ => .bind hx fun _ _ => .pure _

theorem reading_read (p : Precision) : Reading refused (Triple.read p) :=
  .bind (.map _ (reading_readNumber (by decide))) fun _ _ =>
    .ite (fun _ => reading_readEach (.bind reading_readUnitFloat fun _ _ => .pure _))
      fun _ => .pure _

theorem reading_readUnit (p : Precision) : Reading refused (readUnit p) :=
  reading_readEach (.bind reading_readUnitFloat fun _ _ => .pure _)

end Triple

theorem Quaternion.reading_read : Reading refused Quaternion.read := by
  have hsigned (negative : Bool) : Reading refused (readSigned negative) :=
    .bind (reading_readMiniNumber (by decide) false) fun _ _ => .pure _
  exact .bind .bit fun _ _ => .bind (Triple.reading_readEach .bit) fun _ _ =>
    .bind (hsigned _) fun _ _ => .bind (hsigned _) fun _ _ => .bind (hsigned _) fun _ _ => .pure _

end Readers

/-! ## Operations -/

/-- Every reading operation is put together from the reads of bits and its own checks. -/
theorem ReadOp.reading (op : ReadOp) : Reading op.Refuses op.perform := by
  cases op with
  | run dest n right => exact .map _ (.into (fun h => .inl ⟨h, rfl⟩) fun h => .inr ⟨h, rfl⟩)
  | bit => exact .map _ .bit
  | skip n => exact .bind (.skip n) fun _ _ => .pure _
  | skipBytes n => exact .bind (.skip (8 * n)) fun _ _ => .pure _
  | align => exact .bind .align fun _ _ => .pure _
  | bytes n => exact .map _ (reading_readBytes n)
  | alignedBytes n => exact .map _ (reading_readAlignedBytes n)
  | bounded bound => exact .map _ (reading_readBounded fun length h => ⟨length, h, rfl⟩)
  | value k => exact .map _ k.reading_read
  | mini k => exact .map _ k.reading_readMini
  | changed k dest => exact .bind (k.reading_readChanged dest) fun _ _ => .pure _
  | miniChanged k dest => exact .bind (k.reading_readMiniChanged dest) fun _ _ => .pure _
  | miniBytes signed dest => exact .map _ (reading_readMiniInto signed fun h => ⟨h, rfl⟩)
  | between t min max outside => exact .map _ (reading_readBetween outside fun h => ⟨h, rfl⟩)
  | ranged t r outside => exact .map _ (r.reading_read outside)
  | boundedFloat min max => exact .map _ (reading_readBoundedFloat fun h => ⟨h, rfl⟩)
  | vector p => exact .map _ (Triple.reading_read p)
  | unitVector p => exact .map _ (Triple.reading_readUnit p)
  | quaternion p => exact .map _ (.map _ Quaternion.reading_read)
  | matrix p => exact .map _ (.map _ Quaternion.reading_read)

/-- Every reading operation only reads. -/
theorem ReadOp.reads (op : ReadOp) : Reads op.perform := op.reading.reads

end Bitwire
