/-!
# Memory images of numbers

The image of a number of `k` bytes lists its base-256 digits, from the least significant one on a
little-endian host and from the most significant one on a big-endian host.

* `littleBytes`, `ofLittleBytes`: digits and the number they stand for.
* `ByteOrder.bytes`, `ByteOrder.number`: the same for either order.
* `ByteOrder.reorder`: an image for one host turned into one for another.
-/

namespace Bitwire

/-- The `k` low base-256 digits of a number, least significant first. -/
def littleBytes : Nat → Nat → List UInt8
  | 0, _ => []
  | k + 1, n => UInt8.ofNat n :: littleBytes k (n / 256)

/-- The number with the given base-256 digits, least significant first. -/
def ofLittleBytes : List UInt8 → Nat
  | [] => 0
  | b :: bs => b.toNat + 256 * ofLittleBytes bs

@[simp] theorem length_littleBytes (k n : Nat) : (littleBytes k n).length = k := by
  induction k generalizing n with
  | zero => rfl
  | succ k ih => simp [littleBytes, ih]

theorem littleBytes_ofLittleBytes (bs : List UInt8) :
    littleBytes bs.length (ofLittleBytes bs) = bs := by
  induction bs with
  | nil => rfl
  | cons b bs ih =>
    have hb := b.toNat_lt
    rw [List.length_cons, littleBytes, ofLittleBytes, Nat.add_mul_div_left _ _ (by decide),
      Nat.div_eq_of_lt hb, Nat.zero_add, ih]
    congr 1
    apply UInt8.toNat_inj.1
    rw [UInt8.toNat_ofNat', show 2 ^ 8 = 256 from rfl, Nat.add_mul_mod_self_left,
      Nat.mod_eq_of_lt hb]

/-- The order in which a host keeps the bytes of a number in memory. -/
inductive ByteOrder
  | little
  | big
deriving DecidableEq, Repr

namespace ByteOrder

/-- The order of numbers on the wire. -/
def network : ByteOrder := big

/-- The order of this host (`host`). -/
def host : ByteOrder := little

instance : Inhabited ByteOrder := ⟨host⟩

/-- The opposite order. -/
def other : ByteOrder → ByteOrder
  | little => big
  | big => little

/-- What the order is called. -/
def name : ByteOrder → String
  | little => "little-endian"
  | big => "big-endian"

/-- The order's tag in reports and stored settings. -/
def tag : ByteOrder → String
  | little => "Little"
  | big => "Big"

/-- The image of the `k` low bytes of a number (`image`). -/
def bytes (o : ByteOrder) (k n : Nat) : List UInt8 :=
  match o with
  | little => littleBytes k n
  | big => (littleBytes k n).reverse

/-- The number with the given image (`from_image`). -/
def number (o : ByteOrder) (image : List UInt8) : Nat :=
  match o with
  | little => ofLittleBytes image
  | big => ofLittleBytes image.reverse

/-- Turns an image in this order into one in the order `target` (`reorder`). -/
def reorder (o target : ByteOrder) (image : List UInt8) : List UInt8 :=
  if o = target then image else image.reverse

@[simp] theorem length_bytes (o : ByteOrder) (k n : Nat) : (o.bytes k n).length = k := by
  cases o <;> simp [bytes]

theorem bytes_number (o : ByteOrder) (image : List UInt8) :
    o.bytes image.length (o.number image) = image := by
  cases o with
  | little => exact littleBytes_ofLittleBytes image
  | big =>
    have h := littleBytes_ofLittleBytes image.reverse
    rw [List.length_reverse] at h
    rw [bytes, number, h, List.reverse_reverse]

theorem reorder_bytes (o target : ByteOrder) (k n : Nat) :
    o.reorder target (o.bytes k n) = target.bytes k n := by
  cases o <;> cases target <;> simp [reorder, bytes]

theorem number_reorder (o target : ByteOrder) (image : List UInt8) :
    target.number (o.reorder target image) = o.number image := by
  cases o <;> cases target <;> simp [reorder, number]

end ByteOrder

end Bitwire
