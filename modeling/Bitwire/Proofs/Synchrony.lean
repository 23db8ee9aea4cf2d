import Bitwire.Proofs.Decode.Quantized
import Bitwire.Proofs.Message

/-!
# Rounding codecs keep in step

A codec that rounds does not give back what was written, but its reader stops where its writer did,
whatever numbers it is given and whatever the arithmetic unit makes of them. So the reads behind it are
not misled, and a message may mix such codecs with exact ones.

* `Rounded`: a write that rounds, the read of it, and the answer of the read.
* `Rounded.bits_congr`: its bits, the same wherever they begin.
* `Relay`: an exact or a rounding write with its read; `decodes_readAll`: messages of them.
* `floats_synchronized`: reads of rounded numbers, and what follows them.
-/

namespace Bitwire

open Bitwire.Stream

/-- What a read answers about the bits of a write that rounds. The reader may ask for another precision
than the writer had. -/
inductive Rounded : WriteOp → ReadOp → Answer → Prop
  | single (x : Single) :
      Rounded (.mini .single x) (.mini .single) (.value .single (Single.ofUnitSteps x.toUnitSteps))
  | double (x : Double) :
      Rounded (.mini .double x) (.mini .double) (.value .double (Double.ofUnitSteps x.toUnitSteps))
  | boundedFloat (x min max : Single) :
      Rounded (.boundedFloat x min max) (.boundedFloat min max)
        (.value .single (boundedReceived x min max))
  | vector (p q : Precision) (v : Triple (Binary p)) :
      Rounded (.vector p v) (.vector q) (.floats q ((v.map p.widen).received q).toList)
  | unitVector (p q : Precision) (v : Triple (Binary p)) :
      Rounded (.unitVector p v) (.unitVector q) (.floats q ((v.map p.widen).unitReceived q).toList)
  | quaternion (p q : Precision) (r : Quaternion (Binary p)) :
      Rounded (.quaternion p r) (.quaternion q)
        (.floats q ((r.map p.widen).received.map q.narrow).toList)
  | matrix (p q : Precision) (m : Matrix (Binary p)) :
      Rounded (.matrix p m) (.matrix q)
        (.floats q ((Triple.map (Triple.map q.narrow)
          (Matrix.quaternion (Triple.map (Triple.map p.widen) m)).received.matrix).toList.flatMap
            Triple.toList))

/-! ## Reading what was rounded -/

/-- A write that was accepted is read by what belongs to it, wherever its bits begin. -/
theorem Rounded.decodes {write : WriteOp} {read : ReadOp} {answer : Answer}
    (hr : Rounded write read answer) {s : Stream} {a : Allocator} {n : Nat} {b : Backed}
    (h : write.perform ⟨s, a⟩ = .ok n b) (position : Nat) :
    Decodes read.perform position (write.bits s.setup.order position) answer := by
  cases hr with
  | single x =>
    obtain ⟨c, hc⟩ := writeCode_eq_ok (f := fun o => Kind.mini o .single x) h
    rw [WriteOp.bits, hc]
    exact (Single.decodes_readMini _ hc position).map (Answer.value .single)
  | double x =>
    obtain ⟨c, hc⟩ := writeCode_eq_ok (f := fun o => Kind.mini o .double x) h
    rw [WriteOp.bits, hc]
    exact (Double.decodes_readMini _ hc position).map (Answer.value .double)
  | boundedFloat x min max =>
    obtain ⟨c, hc⟩ := writeCode_eq_ok (f := fun o => Bitwire.boundedFloat o x min max) h
    rw [WriteOp.bits, hc]
    exact (decodes_readBoundedFloat _ hc position).map (Answer.value .single)
  | vector p q v =>
    exact (Triple.decodes_read _ q (v.map p.widen) position).map fun v => Answer.floats q v.toList
  | unitVector p q v =>
    obtain ⟨c, hc⟩ := writeCode_eq_ok (f := fun o => (v.map p.widen).unitCode o) h
    rw [WriteOp.bits, hc]
    exact (Triple.decodes_readUnit _ q hc position).map fun v => Answer.floats q v.toList
  | quaternion p q r =>
    obtain ⟨c, hc⟩ := writeCode_eq_ok (f := fun o => (r.map p.widen).code o) h
    rw [WriteOp.bits, hc]
    exact (decodes_readQuaternion _ q hc position).map fun r => Answer.floats q r.toList
  | matrix p q m =>
    obtain ⟨c, hc⟩ := writeCode_eq_ok
      (f := fun o => (Matrix.quaternion (Triple.map (Triple.map p.widen) m)).code o) h
    rw [WriteOp.bits, hc]
    exact (decodes_readMatrix _ q hc position).map
      fun m => Answer.floats q (m.toList.flatMap Triple.toList)

/-! ## Where the bits begin -/

section Codes

variable (o : ByteOrder)

theorem Single.steady_mini {x : Single} {code : Code} (h : x.mini o = .ok code) : code.Steady := by
  unfold mini at h
  split at h
  · cases h
    exact Code.steady_miniNumber o _ _ _
  · contradiction

theorem Double.steady_mini {x : Double} {code : Code} (h : x.mini o = .ok code) : code.Steady := by
  unfold mini at h
  split at h
  · cases h
    exact Code.steady_miniNumber o _ _ _
  · contradiction

theorem steady_boundedFloat {x min max : Single} {code : Code}
    (h : boundedFloat o x min max = .ok code) : code.Steady := by
  obtain ⟨-, rfl⟩ := lt_of_boundedFloat o h
  exact Code.steady_miniNumber o _ _ _

theorem Triple.steady_code (v : Triple Double) : (v.code o).Steady := by
  refine (Code.steady_numberCode o 4 _).append ?_
  split
  · exact Code.steady_flatMap (fun _ => Code.steady_miniNumber o _ _ _) _
  · exact Code.steady_nil

theorem Triple.steady_unitCode {v : Triple Double} {code : Code} (h : v.unitCode o = .ok code) :
    code.Steady := by
  obtain rfl := expectUnit_eq_ok_bind h
  exact Code.steady_flatMap (fun _ => Code.steady_miniNumber o _ _ _) _

theorem Quaternion.steady_code {q : Quaternion Double} {code : Code} (h : q.code o = .ok code) :
    code.Steady := by
  obtain rfl := expectUnit_eq_ok_bind h
  refine Code.Steady.append ?_ (Code.steady_flatMap (fun _ => Code.steady_miniNumber o _ _ _) _)
  exact fun _ _ => rfl

end Codes

theorem Rounded.not_aligns {write : WriteOp} {read : ReadOp} {answer : Answer}
    (hr : Rounded write read answer) : ¬ write.Aligns := by
  cases hr <;> exact id

/-- No rounding codec pads to a byte boundary. -/
theorem Rounded.bits_congr {write : WriteOp} {read : ReadOp} {answer : Answer}
    (hr : Rounded write read answer) (o : ByteOrder) (p q : Nat) : write.bits o p = write.bits o q := by
  cases hr with
  | single => exact Code.checkedBits_steady (fun _ hc => Single.steady_mini o hc) p q
  | double => exact Code.checkedBits_steady (fun _ hc => Double.steady_mini o hc) p q
  | boundedFloat => exact Code.checkedBits_steady (fun _ hc => steady_boundedFloat o hc) p q
  | vector => exact Triple.steady_code o _ p q
  | unitVector => exact Code.checkedBits_steady (fun _ hc => Triple.steady_unitCode o hc) p q
  | quaternion => exact Code.checkedBits_steady (fun _ hc => Quaternion.steady_code o hc) p q
  | matrix => exact Code.checkedBits_steady (fun _ hc => Quaternion.steady_code o hc) p q

/-! ## Messages -/

/-- A write, exact or rounding, with the read of it. -/
structure Relay where
  write : WriteOp
  read : ReadOp
  answer : Answer
  kept : Matched write read answer ∨ Rounded write read answer

namespace Relay

theorem decodes (x : Relay) {s : Stream} {a : Allocator} {n : Nat} {b : Backed}
    (h : x.write.perform ⟨s, a⟩ = .ok n b) (position : Nat) :
    Decodes x.read.perform position (x.write.bits s.setup.order position) x.answer :=
  x.kept.elim (fun hm => hm.decodes h position) fun hr => hr.decodes h position

theorem bits_congr (x : Relay) (o : ByteOrder) {p q : Nat} (h : ¬ x.write.Aligns ∨ p % 8 = q % 8) :
    x.write.bits o p = x.write.bits o q :=
  x.kept.elim (fun hm => hm.bits_congr o h) fun hr => hr.bits_congr o p q

end Relay

namespace Stream

theorem Decodes.readAll_cons {op : ReadOp} {ops : List ReadOp} {position : Nat}
    {xs ys : List Bool} {answer : Answer} {answers : List (Answer × Nat)}
    (hx : Decodes op.perform position xs answer)
    (hy : Decodes (readAll ops) (position + xs.length) ys answers) :
    Decodes (readAll (op :: ops)) position (xs ++ ys)
      ((answer, position + xs.length) :: answers) := by
  intro s hs hp hbits
  obtain ⟨hxs, hys⟩ := prefix_passed hbits
  have hrest := hy _ (hs.passed hxs) (congrArg (· + xs.length) hp) hys
  have hall := run_readAll_cons (hx s hs hp hxs) hrest
  rw [hall, ← hp, List.length_append, passed_passed]
  rfl

/-- A message that was written is read from any position on, provided that it does not align or that it
was written at a position that agrees modulo 8. All ends move with it. -/
theorem decodes_readAll {message : List Relay} {s : Stream} {a : Allocator} {positions : List Nat}
    {b : Backed} (hs : s.Valid) (h : writeAll (message.map (·.write)) ⟨s, a⟩ = .ok positions b)
    (start : Nat) (halign : (∀ x ∈ message, ¬ x.write.Aligns) ∨ s.writePos % 8 = start % 8) :
    (∀ p ∈ positions, s.writePos ≤ p) ∧
      ∃ bits, s.Extends bits b.stream ∧
        Decodes (readAll (message.map (·.read))) start bits
          ((message.map (·.answer)).zip (positions.map fun p => start + (p - s.writePos))) := by
  induction message generalizing s a positions start with
  | nil =>
    obtain ⟨rfl, rfl⟩ := pure_eq_ok_iff.1 h
    exact ⟨nofun, [], .refl hs, .pure [] start⟩
  | cons x xs ih =>
    obtain ⟨n, ⟨t, a'⟩, rest, h1, h2, rfl⟩ := writeAll_cons_eq_ok h
    have hext := (x.write.appends s a n _ hs h1).2
    dsimp only at hext
    rw [x.bits_congr _ (halign.imp_left fun hfree => hfree x List.mem_cons_self)] at hext
    have hpos := hext.writePos_eq
    have hread := x.decodes h1 start
    generalize x.write.bits s.setup.order start = ys at hext hpos hread
    obtain ⟨hle, bits, hext', hreads⟩ := ih hext.valid h2 (start + ys.length)
      (halign.imp (fun hfree y hy => hfree y (List.mem_cons_of_mem x hy)) fun h => by omega)
    rw [map_ends hpos hle start] at hreads
    refine ⟨?_, ys ++ bits, hext.trans hext', ?_⟩
    · intro p hp
      rcases List.mem_cons.1 hp with rfl | hp
      · exact Nat.le.intro hpos.symm
      · exact Nat.le_trans (Nat.le.intro hpos.symm) (hle p hp)
    · rw [List.map_cons, List.map_cons, List.map_cons, hpos, Nat.add_sub_cancel_left]
      exact hread.readAll_cons hreads

end Stream

/-! ## Rounded numbers and what follows them -/

theorem bits_miniFrom_ne_nil (pad : UInt8) {src : List UInt8} (h0 : src ≠ []) (position : Nat) :
    (miniFrom pad src).bits position ≠ [] := by
  match src with
  | [b] =>
    rw [bits_miniFrom_last]
    split
    · exact List.cons_ne_nil _ _
    · exact List.cons_ne_nil _ _
  | b :: next :: bs =>
    rw [bits_miniFrom_cons]
    split
    · exact List.cons_ne_nil _ _
    · exact List.cons_ne_nil _ _

theorem bits_unitFloat_ne_nil (o : ByteOrder) (x : Single) (position : Nat) :
    (unitFloat o x).bits position ≠ [] := by
  rw [unitFloat, miniNumber_eq]
  refine bits_miniFrom_ne_nil _ ?_ position
  rw [← List.length_pos_iff, List.length_reverse, ByteOrder.length_bytes]
  decide

namespace Triple

/-- The bits of the magnitude of a vector, at full width. -/
def magnitudeBits (v : Triple Double) : List Bool :=
  bitsOf (ByteOrder.network.bytes 4 v.magnitude.narrow.pattern.toNat)

theorem length_magnitudeBits (v : Triple Double) : v.magnitudeBits.length = 32 := by
  rw [magnitudeBits, length_bitsOf, ByteOrder.length_bytes]

theorem bits_code (o : ByteOrder) (v : Triple Double) (position : Nat) :
    (v.code o).bits position = v.magnitudeBits ++ Code.bits (position + 32)
      (if minMagnitude.lt v.magnitude.narrow then
        v.toList.flatMap fun c => unitFloat o (c / v.magnitude).narrow else []) := by
  unfold code
  refine (Code.bits_append position _ _).trans ?_
  rw [bits_numberCode, ← magnitudeBits, length_magnitudeBits]

/-- The code of a vector is its magnitude alone where the magnitude is small, and more than that
elsewhere. -/
theorem length_bits_code (o : ByteOrder) (v : Triple Double) (position : Nat) :
    ((v.code o).bits position).length = 32 ↔ minMagnitude.lt v.magnitude.narrow = false := by
  rw [bits_code, List.length_append, length_magnitudeBits]
  cases hlong : minMagnitude.lt v.magnitude.narrow with
  | false => simp
  | true =>
    have hfirst := List.length_pos_iff.2
      (bits_unitFloat_ne_nil o (v.x / v.magnitude).narrow (position + 32))
    rw [if_pos rfl, toList, List.flatMap_cons, Code.bits_append, List.length_append]
    simp only [Bool.true_eq_false, iff_false]
    omega

/-- The reader finds the magnitude by which the writer decided. -/
theorem run_readMagnitude {v : Triple Double} {o : ByteOrder} {position : Nat} {t : Stream}
    (ht : t.Valid) (h : (v.code o).bits position <+: t.bits.drop t.readPos) :
    (Kind.read .single).run t = .ok (v.magnitude.narrow, t.passed 32) := by
  have hread := Kind.decodes_read o .single v.magnitude.narrow t.readPos
  have hbits : (Kind.code o .single v.magnitude.narrow).bits t.readPos = v.magnitudeBits :=
    bits_numberCode _ _ _ _
  rw [hbits] at hread
  rw [bits_code] at h
  rw [hread t ht rfl ((List.prefix_append _ _).trans h), length_magnitudeBits]
  rfl

end Triple

/-- A number between bounds, a vector, a unit vector, a rotation: if the write of it returns, then the
read that belongs to it returns too, in either precision. It passes over exactly the bits that were
written, wherever they begin, and whatever follows them is read as it was written. Writer and reader of a
vector decide by the same number whether a direction follows, and no reader cuts a number to bounds that
are not in order. -/
theorem floats_synchronized {write : WriteOp} {read : ReadOp} {answer : Answer}
    (hr : Rounded write read answer) {s : Stream} (hs : s.Reachable) {a : Allocator} {n : Nat}
    {b : Backed} (h : write.perform ⟨s, a⟩ = .ok n b) :
    (∀ t : Stream, t.Reachable → b.stream.bits.drop s.writePos <+: t.bits.drop t.readPos →
      read.perform.run t = .ok (answer, t.passed n)) ∧
    (∀ (message : List Relay) (positions : List Nat) (b' : Backed),
      writeAll (message.map (·.write)) b = .ok positions b' →
      ∀ t : Stream, t.Reachable → b'.stream.bits.drop s.writePos <+: t.bits.drop t.readPos →
        (∀ x ∈ message, ¬ x.write.Aligns) ∨ s.writePos % 8 = t.readPos % 8 →
        (readAll (read :: message.map (·.read))).run t =
          .ok ((answer, t.readPos + n) ::
              (message.map (·.answer)).zip (positions.map fun p => t.readPos + (p - s.writePos)),
            t.passed (b'.stream.writePos - s.writePos))) ∧
    (∀ (p : Precision) (v : Triple (Binary p)), write = .vector p v →
      (n = 32 ↔ minMagnitude.lt (v.map p.widen).magnitude.narrow = false) ∧
      ∀ t : Stream, t.Reachable → b.stream.bits.drop s.writePos <+: t.bits.drop t.readPos →
        (Kind.read .single).run t = .ok ((v.map p.widen).magnitude.narrow, t.passed 32)) ∧
    ∀ (min max x : Single) (t t' : Stream), (readBoundedFloat min max).run t = .ok (x, t') →
      min.le max = true := by
  obtain ⟨hn, hext⟩ := write.appends s a n b hs.valid h
  dsimp only at hn hext
  -- the bits are the same wherever the reader finds them
  have hread (position : Nat) : Decodes read.perform position
      (write.bits s.setup.order s.writePos) answer := by
    rw [hr.bits_congr _ s.writePos position]
    exact hr.decodes h position
  have hwritten := hext.drop_writePos hs.valid
  refine ⟨fun t ht hbits => ?_, fun message positions b' hmessage t ht hbits halign => ?_, ?_, ?_⟩
  · rw [hwritten] at hbits
    rw [hn]
    exact hread t.readPos t ht.valid rfl hbits
  · let first : Relay := ⟨write, read, answer, .inr hr⟩
    have hall : writeAll ((first :: message).map (·.write)) ⟨s, a⟩ =
        .ok (b.stream.writePos :: positions) b' :=
      bind_eq_ok_iff.2 ⟨n, b, h, (bind_eq_ok_iff (x := writeAll _)).2 ⟨positions, b', hmessage, rfl⟩⟩
    have hfree : (∀ x ∈ message, ¬ x.write.Aligns) → ∀ x ∈ first :: message, ¬ x.write.Aligns :=
      fun hmessage x hx => (List.mem_cons.1 hx).elim (fun hx => hx ▸ hr.not_aligns) (hmessage x)
    obtain ⟨-, bits, hext', hreads⟩ := decodes_readAll hs.valid hall t.readPos (halign.imp_left hfree)
    rw [hext'.drop_writePos hs.valid] at hbits
    have hrun := hreads t ht.valid rfl hbits
    rw [List.map_cons, List.map_cons, List.map_cons, hext.writePos_eq, Nat.add_sub_cancel_left,
      ← hn] at hrun
    rw [hext'.writePos_eq, Nat.add_sub_cancel_left]
    exact hrun
  · rintro p v rfl
    refine ⟨?_, fun t ht hbits => ?_⟩
    · rw [hn]
      exact Triple.length_bits_code _ _ s.writePos
    · rw [hwritten] at hbits
      exact Triple.run_readMagnitude ht.valid hbits
  · intro min max x t t' hread
    unfold readBoundedFloat at hread
    split at hread
    · exact Binary.le_of_lt ‹_›
    · contradiction

/-- A vector with a component that is not a number, and a flag behind it. Its magnitude is not a number
either, so that no direction is sent, and the zero vector comes back; the flag is not lost. -/
theorem floats_synchronized_nan :
    ∃ (b : Backed) (t : Stream),
      writeAll [.vector .single ⟨⟨0x7FC00000⟩, Single.one, Single.one⟩, .bit true] ⟨empty {}, .system⟩ =
        .ok [32, 33] b ∧
      (readAll [.vector .double, .bit]).run (view {} b.stream.bytes) =
        .ok ([(.floats .double [.zero .double, .zero .double, .zero .double], 32),
          (.flag true, 33)], t) := by
  let v : Triple Single := ⟨⟨0x7FC00000⟩, Single.one, Single.one⟩
  obtain ⟨b, h⟩ : ∃ b, writeAll [.vector .single v, .bit true] ⟨empty {}, .system⟩ =
      .ok [32, 33] b := by
    have hrun : (match writeAll [.vector .single v, .bit true] ⟨empty {}, .system⟩ with
      | .ok positions _ => decide (positions = [32, 33])
      | .error _ _ => false) = true := by decide +kernel
    generalize writeAll [.vector .single v, .bit true] ⟨empty {}, .system⟩ = r at hrun ⊢
    cases r with
    | ok positions b => exact ⟨b, by rw [of_decide_eq_true hrun]⟩
    | error f b => contradiction
  have hempty : (empty {}).Reachable := .made {} .empty (a := .system) rfl
  obtain ⟨n, b₁, rest, h1, h2, hpositions⟩ := writeAll_cons_eq_ok h
  obtain ⟨-, hmessage, hbranch, -⟩ :=
    floats_synchronized (.vector .single .double v) hempty h1
  have hn : n = 32 := (hbranch .single v rfl).1.2 (by decide +kernel)
  obtain ⟨hstart, rfl⟩ := List.cons.inj hpositions
  let vector : Relay := ⟨_, _, _, .inr (.vector .single .double v)⟩
  let flag : Relay := ⟨_, _, _, .inl (.bit true)⟩
  have hall : writeAll ([vector, flag].map (·.write)) ⟨empty {}, .system⟩ = .ok [32, 33] b := h
  obtain ⟨-, _, hext, -⟩ := decodes_readAll hempty.valid hall 0 (.inr rfl)
  have hread := hmessage [flag] _ b h2 (view {} b.stream.bytes)
    (.made {} (.view b.stream.bytes) (a := .system) rfl) (by
      rw [bits_view, hext.valid.bitsOf_bytes]
      exact List.prefix_append _ _) (.inr rfl)
  subst hn
  have hzero : ((v.map (Precision.widen .single)).received .double).toList =
      [.zero .double, .zero .double, .zero .double] := by decide +kernel
  rw [hzero] at hread
  exact ⟨b, _, h, hread⟩

end Bitwire
