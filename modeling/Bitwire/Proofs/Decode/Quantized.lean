import Bitwire.Proofs.Decode.Kind

/-!
# Reading rounded numbers back

The codecs of floating-point numbers between bounds round, but they do not lose their place: whatever
the arithmetic of a writer gives, a number cut into a range of integers has a code of that width, and
the reader gets this integer out of it. So what comes back is fixed by what was written. Of a vector the
magnitude comes back bit for bit, and that is the number by which both sides decide whether a direction
follows.

* `Binary.floor_le`: what a number is cut to.
* `boundedReceived`, `Triple.received`, `Triple.unitReceived`, `Quaternion.received`: what comes back.
* `decodes_readBoundedFloat` … `decodes_readMatrix`: it comes back.
-/

namespace Bitwire

open Bitwire.Stream

/-! ## Cut numbers -/

namespace Binary

variable {p : Precision}

theorem floor_le (x : Binary p) (bound : Nat) : x.floor bound ≤ bound := by
  unfold floor
  split
  · exact Nat.zero_le bound
  · split
    · exact Nat.le_refl bound
    · exact Nat.min_le_left _ _

/-- Bounds that are told apart are in order. -/
theorem le_of_lt {x y : Binary p} (h : x.lt y = true) : x.le y = true := by
  simp only [lt, Bool.and_eq_true, decide_eq_true_eq] at h
  simp only [le, Bool.and_eq_true, decide_eq_true_eq]
  exact ⟨h.1, Int.le_of_lt h.2⟩

end Binary

theorem boundedSteps_lt (x min max : Single) : boundedSteps x min max < 256 ^ 2 :=
  Nat.lt_succ_of_le (Binary.floor_le _ _)

theorem Single.toUnitSteps_lt (x : Single) : x.toUnitSteps < 256 ^ 2 :=
  Nat.lt_succ_of_le (Binary.floor_le _ _)

theorem Double.toUnitSteps_lt (x : Double) : x.toUnitSteps < 256 ^ 4 :=
  Nat.lt_succ_of_le (Binary.floor_le _ _)

theorem Quaternion.absSteps_lt (c : Double) : absSteps c < 256 ^ 2 :=
  Nat.lt_succ_of_le (Binary.floor_le _ _)

/-! ## What comes back -/

/-- What comes back of a number between two bounds. -/
def boundedReceived (x min max : Single) : Single := ofBoundedSteps (boundedSteps x min max) min max

/-- What comes back of a number in `[-1, 1]`. -/
def unitReceived (x : Single) : Single := boundedReceived x (-Single.one) Single.one

namespace Triple

/-- What comes back of a vector. -/
def received (p : Precision) (v : Triple Double) : Triple (Binary p) :=
  let m := v.magnitude
  if minMagnitude.lt m.narrow then
    v.map fun c => p.narrow (unitReceived (c / m).narrow * m.narrow : Single).widen
  else map p.narrow ⟨.zero .double, .zero .double, .zero .double⟩

/-- What comes back of a vector with components in `[-1, 1]`. -/
def unitReceived (p : Precision) (v : Triple Double) : Triple (Binary p) :=
  v.map fun c => p.narrow (Bitwire.unitReceived c.narrow).widen

end Triple

namespace Quaternion

/-- What comes back of a component that is sent. -/
def partReceived (c : Double) : Double :=
  let size := Double.ofNat (absSteps c) / Double.steps
  if c.lt (.zero .double) then -size else size

/-- What comes back of a unit quaternion. -/
def received (q : Quaternion Double) : Quaternion Double :=
  let x := partReceived q.x
  let y := partReceived q.y
  let z := partReceived q.z
  let w := realPart x y z
  ⟨if q.w.lt (.zero .double) then -w else w, x, y, z⟩

end Quaternion

/-! ## Numbers -/

section Codes

variable (o : ByteOrder)

theorem Single.decodes_readMini {x : Single} {code : Code} (h : x.mini o = .ok code)
    (position : Nat) :
    Decodes Single.readMini position (code.bits position) (ofUnitSteps x.toUnitSteps) := by
  unfold mini at h
  split at h
  · cases h
    exact (decodes_readMiniNumber o false (by decide) x.toUnitSteps_lt position).map ofUnitSteps
  · contradiction

theorem Double.decodes_readMini {x : Double} {code : Code} (h : x.mini o = .ok code)
    (position : Nat) :
    Decodes Double.readMini position (code.bits position) (ofUnitSteps x.toUnitSteps) := by
  unfold mini at h
  split at h
  · cases h
    exact (decodes_readMiniNumber o false (by decide) x.toUnitSteps_lt position).map ofUnitSteps
  · contradiction

/-- A reader with the bounds of the writer gets the number of steps that was written. -/
theorem decodes_readSteps {min max : Single} (h : min.lt max = true) (x : Single) (position : Nat) :
    Decodes (readBoundedFloat min max) position
      ((miniNumber o 2 false (boundedSteps x min max)).bits position) (boundedReceived x min max) := by
  have hsteps := decodes_readMiniNumber o false (by decide) (boundedSteps_lt x min max) position
  unfold readBoundedFloat
  rw [if_pos h]
  exact hsteps.map fun n => ofBoundedSteps n min max

theorem lt_of_boundedFloat {x min max : Single} {code : Code}
    (h : boundedFloat o x min max = .ok code) :
    min.lt max = true ∧ code = miniNumber o 2 false (boundedSteps x min max) := by
  unfold boundedFloat at h
  split at h
  · cases h
    exact ⟨‹_›, rfl⟩
  · contradiction

theorem decodes_readBoundedFloat {x min max : Single} {code : Code}
    (h : boundedFloat o x min max = .ok code) (position : Nat) :
    Decodes (readBoundedFloat min max) position (code.bits position) (boundedReceived x min max) := by
  obtain ⟨hlt, rfl⟩ := lt_of_boundedFloat o h
  exact decodes_readSteps o hlt x position

theorem decodes_readUnitFloat (x : Single) (position : Nat) :
    Decodes readUnitFloat position ((unitFloat o x).bits position) (unitReceived x) :=
  decodes_readSteps o (by decide +kernel) x position

/-! ## Vectors -/

theorem expectUnit_eq_ok_bind {components : List Double} {code c : Code}
    (h : (expectUnit components >>= fun _ => pure code) = Except.ok c) : c = code := by
  cases hunit : expectUnit components with
  | ok =>
    rw [hunit] at h
    cases h
    rfl
  | error f =>
    rw [hunit] at h
    contradiction

namespace Triple

/-- Three reads of the same kind, one for each component. -/
theorem decodes_readEach {α β : Type} {x : StreamM β} {f : α → Code} {g : α → β}
    (h : ∀ c position, Decodes x position ((f c).bits position) (g c)) (v : Triple α)
    (position : Nat) :
    Decodes (readEach x) position (Code.bits position (v.toList.flatMap f)) (v.map g) := by
  change Decodes _ _ (Code.bits _ (f v.x ++ (f v.y ++ (f v.z ++ [])))) _
  rw [List.append_nil]
  refine (h v.x position).bind_code fun position => (h v.y position).bind_code fun position => ?_
  exact (h v.z position).map fun z => Triple.mk (g v.x) (g v.y) z

theorem decodes_read (p : Precision) (v : Triple Double) (position : Nat) :
    Decodes (Triple.read p) position ((v.code o).bits position) (v.received p) := by
  unfold code received
  refine (Kind.decodes_read o .single v.magnitude.narrow position).bind_code fun position => ?_
  dsimp only [Kind.received]
  by_cases hlong : minMagnitude.lt v.magnitude.narrow = true
  · rw [if_pos hlong, if_pos hlong, if_pos hlong]
    exact decodes_readEach (fun c position =>
      (decodes_readUnitFloat o (c / v.magnitude).narrow position).map
        fun u => p.narrow (u * v.magnitude.narrow : Single).widen) v position
  · rw [if_neg hlong, if_neg hlong, if_neg hlong]
    exact .pure _ _

theorem decodes_readUnit (p : Precision) {v : Triple Double} {code : Code}
    (h : v.unitCode o = .ok code) (position : Nat) :
    Decodes (Triple.readUnit p) position (code.bits position) (v.unitReceived p) := by
  obtain rfl := expectUnit_eq_ok_bind h
  exact decodes_readEach (fun c position =>
    (decodes_readUnitFloat o c.narrow position).map fun u => p.narrow u.widen) v position

end Triple

/-! ## Rotations -/

namespace Quaternion

theorem decodes_readSigned (c : Double) (position : Nat) :
    Decodes (readSigned (c.lt (.zero .double))) position
      ((miniNumber o 2 false (absSteps c)).bits position) (partReceived c) :=
  (decodes_readMiniNumber o false (by decide) (absSteps_lt c) position).map fun n =>
    let size := Double.ofNat n / Double.steps
    if c.lt (.zero .double) then -size else size

/-- Signs and parts in the order in which they are read. -/
theorem signs_append_parts {α : Type} (q : Quaternion α) (sign : α → Piece) (part : α → Code) :
    q.toList.map sign ++ [q.x, q.y, q.z].flatMap part =
      [sign q.w] ++ ((Triple.toList ⟨q.x, q.y, q.z⟩).flatMap (fun c => [sign c]) ++
        (part q.x ++ (part q.y ++ part q.z))) := by
  simp [toList, Triple.toList]

theorem decodes_read {q : Quaternion Double} {code : Code} (h : q.code o = .ok code)
    (position : Nat) : Decodes Quaternion.read position (code.bits position) q.received := by
  obtain rfl := expectUnit_eq_ok_bind h
  have hsign (c : Double) (position : Nat) :
      Decodes readBit position (Code.bits position [.bit (c.lt (.zero .double))])
        (c.lt (.zero .double)) := decodes_readBit _ position
  have hpart (c : Double) (position : Nat) := decodes_readSigned o c position
  rw [q.signs_append_parts]
  refine (hsign q.w position).bind_code fun position => ?_
  refine (Triple.decodes_readEach hsign ⟨q.x, q.y, q.z⟩ position).bind_code fun position => ?_
  refine (hpart q.x position).bind_code fun position => ?_
  refine (hpart q.y position).bind_code fun position => ?_
  exact (hpart q.z position).map fun z =>
    let w := realPart (partReceived q.x) (partReceived q.y) z
    Quaternion.mk (if q.w.lt (.zero .double) then -w else w) (partReceived q.x) (partReceived q.y) z

end Quaternion

theorem decodes_readQuaternion (p : Precision) {q : Quaternion Double} {code : Code}
    (h : q.code o = .ok code) (position : Nat) :
    Decodes (readQuaternion p) position (code.bits position) (q.received.map p.narrow) := by
  have hread := (Quaternion.decodes_read o h position).map (Quaternion.map p.narrow)
  exact hread

theorem decodes_readMatrix (p : Precision) {q : Quaternion Double} {code : Code}
    (h : q.code o = .ok code) (position : Nat) :
    Decodes (readMatrix p) position (code.bits position)
      (Triple.map (Triple.map p.narrow) q.received.matrix) := by
  have hread := (Quaternion.decodes_read o h position).map
    fun r => Triple.map (Triple.map p.narrow) r.matrix
  exact hread

end Codes

end Bitwire
