/-!
# Byte order

A number of `w` bytes is written as its base-256 digits, either least
significant first or most significant first. Both orders are the one list of
digits `littleDigits w n`, read in the two directions, so there is one round
trip to prove: reading the digits gives back the number modulo `256 ^ w`.
-/

namespace ObjectStream

-- Powers are those of the core library wherever the algebraic ones are imported as well.
attribute [instance (20000), default_instance 20000] instPowNat

/-- The order in which the bytes of a number are laid out. -/
inductive ByteOrder
  | bigEndian
  | littleEndian
  deriving DecidableEq, Repr, Inhabited

def ByteOrder.label : ByteOrder → String
  | .bigEndian => "BigEndian"
  | .littleEndian => "LittleEndian"

/-- The `w` lowest base-256 digits of `n`, least significant first. -/
def littleDigits : Nat → Nat → List UInt8
  | 0, _ => []
  | w + 1, n => UInt8.ofNat (n % 256) :: littleDigits w (n / 256)

def ofLittleDigits : List UInt8 → Nat
  | [] => 0
  | b :: bs => b.toNat + 256 * ofLittleDigits bs

@[simp] theorem length_littleDigits (w n : Nat) : (littleDigits w n).length = w := by
  induction w generalizing n with
  | zero => rfl
  | succ w ih => simp [littleDigits, ih]

theorem ofLittleDigits_littleDigits (w n : Nat) :
    ofLittleDigits (littleDigits w n) = n % 256 ^ w := by
  induction w generalizing n with
  | zero => simp [littleDigits, ofLittleDigits, Nat.mod_one]
  | succ w ih =>
      have hdigit : (UInt8.ofNat (n % 256)).toNat = n % 256 := by
        simp
      rw [littleDigits, ofLittleDigits, ih, hdigit, Nat.pow_succ, Nat.mul_comm (256 ^ w),
        Nat.mod_mul]

theorem ofLittleDigits_lt (bs : List UInt8) : ofLittleDigits bs < 256 ^ bs.length := by
  induction bs with
  | nil => simp [ofLittleDigits]
  | cons b bs ih =>
      have hb := b.toNat_lt
      simp only [ofLittleDigits, List.length_cons, Nat.pow_succ]
      omega

theorem littleDigits_ofLittleDigits (bs : List UInt8) :
    littleDigits bs.length (ofLittleDigits bs) = bs := by
  induction bs with
  | nil => rfl
  | cons b bs ih =>
      have hb := b.toNat_lt
      have hmod : (b.toNat + 256 * ofLittleDigits bs) % 256 = b.toNat := by omega
      have hdiv : (b.toNat + 256 * ofLittleDigits bs) / 256 = ofLittleDigits bs := by omega
      rw [List.length_cons, littleDigits, ofLittleDigits, hmod, hdiv, ih, UInt8.ofNat_toNat]

namespace ByteOrder

/-- The `w` bytes of `n` in this order. -/
def layOut (order : ByteOrder) (w n : Nat) : List UInt8 :=
  match order with
  | .littleEndian => littleDigits w n
  | .bigEndian => (littleDigits w n).reverse

def readOff (order : ByteOrder) (bytes : List UInt8) : Nat :=
  match order with
  | .littleEndian => ofLittleDigits bytes
  | .bigEndian => ofLittleDigits bytes.reverse

@[simp] theorem length_layOut (order : ByteOrder) (w n : Nat) :
    (order.layOut w n).length = w := by
  cases order <;> simp [layOut]

theorem readOff_layOut (order : ByteOrder) (w n : Nat) :
    order.readOff (order.layOut w n) = n % 256 ^ w := by
  cases order <;> simp [layOut, readOff, ofLittleDigits_littleDigits]

theorem layOut_readOff (order : ByteOrder) {bytes : List UInt8} {w : Nat}
    (h : bytes.length = w) : order.layOut w (order.readOff bytes) = bytes := by
  subst h
  cases order with
  | littleEndian => exact littleDigits_ofLittleDigits bytes
  | bigEndian =>
      have hdigits := littleDigits_ofLittleDigits bytes.reverse
      rw [List.length_reverse] at hdigits
      rw [layOut, readOff, hdigits, List.reverse_reverse]

theorem readOff_lt (order : ByteOrder) (bytes : List UInt8) :
    order.readOff bytes < 256 ^ bytes.length := by
  cases order with
  | littleEndian => exact ofLittleDigits_lt bytes
  | bigEndian => simpa [readOff] using ofLittleDigits_lt bytes.reverse

end ByteOrder

end ObjectStream
