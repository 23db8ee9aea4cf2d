import Bitwire.Session.Op

/-!
# The order of the host

A codec lays numbers out as the host would, brings them into the order of the wire, and undoes both
when it reads. On the way from a number to the wire the order of the host cancels out: every codec
gives the same code for either order, and every reader the same value.

* `numberCode_eq`, `miniNumber_eq`: codes of numbers without the order of the host.
* `Kind.code_order` … `Quaternion.code_order`: no code depends on it.
* `readNumber_eq`, `readMiniNumber_eq`, `U24.read_eq`, `Span.readOffset_eq`: neither do readers.
-/

namespace Bitwire

open Bitwire.Stream

/-! ## Codes -/

theorem numberCode_eq (o : ByteOrder) (k n : Nat) :
    numberCode o k n = [.run (ByteOrder.network.bytes k n) (8 * k) true] := by
  rw [numberCode, ByteOrder.reorder_bytes]

theorem miniNumber_eq (o : ByteOrder) (k : Nat) (signed : Bool) (n : Nat) :
    miniNumber o k signed n = miniFrom (padByte signed) (ByteOrder.little.bytes k n).reverse := by
  rw [miniNumber, ByteOrder.reorder_bytes]

theorem U24.code_eq (o : ByteOrder) (x : U24) :
    x.code o = [.run ((ByteOrder.little.bytes 4 x.val.toNat).take 3) 24 true] := by
  rw [U24.code, ByteOrder.reorder_bytes]

theorem Span.offsetCode_eq {t : IntType} (o : ByteOrder) (r : Span t) (w : Word t) :
    r.offsetCode o w =
      if r.bits = 0 then []
      else [.run (ByteOrder.little.bytes t.bytes (w - r.min).toNat) r.bits true] := by
  rw [offsetCode, Word.image, ByteOrder.reorder_bytes]

section Codes

variable (o o' : ByteOrder)

theorem Kind.code_order (k : Kind) (v : k.Val) : k.code o v = k.code o' v := by
  cases k with
  | bool => rfl
  | int | single | double | guid => simp only [code, numberCode_eq]
  | u24 => simp only [code, U24.code_eq]
  | v4 => simp only [code, SocketV4.code, numberCode_eq]
  | socket => cases v <;> simp only [code, Socket.code, SocketV4.code, SocketV6.code, numberCode_eq]

theorem Kind.mini_order (k : Kind) (v : k.Val) : k.mini o v = k.mini o' v := by
  cases k with
  | bool => rfl
  | int | guid => simp only [mini, miniNumber_eq]
  | single => simp only [mini, Single.mini, miniNumber_eq]
  | double => simp only [mini, Double.mini, miniNumber_eq]
  | u24 => simp only [mini, U24.mini, miniNumber_eq]
  | v4 => simp only [mini, SocketV4.mini, miniNumber_eq]
  | socket => cases v <;> simp only [mini, Socket.mini, SocketV4.mini, SocketV6.mini, miniNumber_eq]

theorem Kind.unknownCode_order (k : Kind) (v : k.Val) : k.unknownCode o v = k.unknownCode o' v := by
  rw [unknownCode, unknownCode, k.code_order o o']

theorem Kind.changedCode_order (k : Kind) (v last : k.Val) :
    k.changedCode o v last = k.changedCode o' v last := by
  rw [changedCode, changedCode, k.unknownCode_order o o']

theorem runCode_order (src : List UInt8) : runCode o src = runCode o' src := by
  simp only [runCode, miniNumber_eq]

theorem Span.code_order {t : IntType} (r : Span t) (w : Word t) (outside : Bool) :
    r.code o w outside = r.code o' w outside := by
  simp only [Span.code, offsetCode_eq, miniNumber_eq]

theorem boundedFloat_order (x min max : Single) :
    boundedFloat o x min max = boundedFloat o' x min max := by
  simp only [boundedFloat, miniNumber_eq]

theorem unitFloat_order (x : Single) : unitFloat o x = unitFloat o' x := by
  rw [unitFloat, unitFloat, miniNumber_eq, miniNumber_eq]

theorem Triple.code_order (v : Triple Double) : v.code o = v.code o' := by
  simp only [Triple.code, numberCode_eq, unitFloat_order o o']

theorem Triple.unitCode_order (v : Triple Double) : v.unitCode o = v.unitCode o' := by
  simp only [Triple.unitCode, unitFloat_order o o']

theorem Quaternion.code_order (q : Quaternion Double) : q.code o = q.code o' := by
  simp only [Quaternion.code, miniNumber_eq]

end Codes

/-- A codec that gives the same code for either order writes it on every stream. -/
theorem Stream.writeCode_eq {f : ByteOrder → Except Fault Code} (h : ∀ o o', f o = f o') :
    writeCode f = Code.writeChecked (f .network) := by
  funext b
  exact congrArg (Code.writeChecked · b) (h _ _)

/-! ## Readers -/

theorem Stream.order_bind {α : Type} {f : ByteOrder → StreamM α} {x : StreamM α}
    (h : ∀ o, f o = x) : (Stream.order >>= f) = x := by
  funext s
  exact congrFun (h s.setup.order) s

theorem readNumber_eq (k : Nat) :
    readNumber k = (do return ByteOrder.network.number (← readRun (8 * k) true)) := by
  unfold readNumber
  congr 1
  funext image
  exact order_bind fun o => by rw [ByteOrder.number_reorder]

theorem readMiniNumber_eq (k : Nat) (signed : Bool) :
    readMiniNumber k signed =
      (do return ByteOrder.little.number (← readMiniInto signed (List.replicate k 0))) := by
  unfold readMiniNumber
  congr 1
  funext image
  exact order_bind fun o => by rw [ByteOrder.number_reorder]

theorem U24.read_eq :
    U24.read = (do
      let image ← readRun 24 true
      check (ByteOrder.little.number (image ++ [0]))) := by
  unfold U24.read
  congr 1
  funext image
  exact order_bind fun o => by rw [ByteOrder.number_reorder]

theorem Span.readOffset_eq {t : IntType} (r : Span t) :
    r.readOffset =
      if r.bits = 0 then pure r.min
      else (do
        let image ← readInto (List.replicate t.bytes 0) r.bits true
        pure (r.min + Word.ofImage t .little image)) := by
  unfold readOffset
  congr 2
  funext image
  exact order_bind fun o => by
    rw [Word.ofImage, Word.ofImage, ByteOrder.number_reorder]

end Bitwire
