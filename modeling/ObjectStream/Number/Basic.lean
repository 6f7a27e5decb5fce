import ObjectStream.ByteOrder

/-!
# Fixed-width numbers

The ten kinds of number that are packed without a code. A number
travels as its pattern of bits: a signed one in two's complement, a float as
the pattern itself. Values are integers throughout; the value of a float kind
is its pattern.
-/

namespace ObjectStream

/-- A number of fixed width. -/
inductive NumberKind
  | u8 | i8 | u16 | i16 | u32 | i32 | u64 | i64 | f32 | f64
  deriving DecidableEq, Repr

namespace NumberKind

def byName : List (String × NumberKind) := [
  ("u8", .u8), ("i8", .i8), ("u16", .u16), ("i16", .i16), ("u32", .u32), ("i32", .i32),
  ("u64", .u64), ("i64", .i64), ("f32", .f32), ("f64", .f64)]

def width : NumberKind → Nat
  | .u8 | .i8 => 1
  | .u16 | .i16 => 2
  | .u32 | .i32 | .f32 => 4
  | .u64 | .i64 | .f64 => 8

/-- Whether a pattern with its highest bit set stands for a negative number. -/
def isSigned : NumberKind → Bool
  | .i8 | .i16 | .i32 | .i64 => true
  | _ => false

def modulus (kind : NumberKind) : Nat := 256 ^ kind.width

/-- The pattern of a value: the value modulo the number of patterns. -/
def pattern (kind : NumberKind) (value : Int) : Nat := (value % kind.modulus).toNat

def ofPattern (kind : NumberKind) (pattern : Nat) : Int :=
  if kind.isSigned then Int.bmod pattern kind.modulus else pattern

def Holds (kind : NumberKind) (value : Int) : Prop :=
  if kind.isSigned then -(kind.modulus / 2 : Int) ≤ value ∧ value < (kind.modulus / 2 : Int)
  else 0 ≤ value ∧ value < kind.modulus

def bytes (kind : NumberKind) (order : ByteOrder) (value : Int) : List UInt8 :=
  order.layOut kind.width (kind.pattern value)

def ofBytes (kind : NumberKind) (order : ByteOrder) (bytes : List UInt8) : Int :=
  kind.ofPattern (order.readOff bytes)

@[simp] theorem length_bytes (kind : NumberKind) (order : ByteOrder) (value : Int) :
    (kind.bytes order value).length = kind.width := by
  simp [bytes]

theorem pattern_lt (kind : NumberKind) (value : Int) : kind.pattern value < kind.modulus := by
  have hpos : 0 < kind.modulus := Nat.pow_pos (by decide)
  have hlt := Int.emod_lt_of_pos value (show (0 : Int) < kind.modulus by omega)
  simp only [pattern]
  omega

theorem ofPattern_pattern (kind : NumberKind) (value : Int) (h : kind.Holds value) :
    kind.ofPattern (kind.pattern value) = value := by
  have hpos : 0 < kind.modulus := Nat.pow_pos (by decide)
  have hnn : 0 ≤ value % (kind.modulus : Int) := Int.emod_nonneg _ (by omega)
  have hcast : ((value % (kind.modulus : Int)).toNat : Int) = value % (kind.modulus : Int) :=
    Int.toNat_of_nonneg hnn
  unfold ofPattern pattern
  unfold Holds at h
  rw [hcast]
  split at h
  · next hs =>
      rw [if_pos hs, Int.emod_bmod]
      exact Int.bmod_eq_of_le (by omega) (by omega)
  · next hs =>
      rw [if_neg hs]
      exact Int.emod_eq_of_lt h.1 h.2

theorem ofBytes_bytes (kind : NumberKind) (order : ByteOrder) (value : Int)
    (h : kind.Holds value) : kind.ofBytes order (kind.bytes order value) = value := by
  have hlt : kind.pattern value < 256 ^ kind.width := kind.pattern_lt value
  rw [ofBytes, bytes, ByteOrder.readOff_layOut, Nat.mod_eq_of_lt hlt,
    ofPattern_pattern kind value h]

theorem even_modulus (kind : NumberKind) : kind.modulus % 2 = 0 := by
  cases kind <;> rfl

theorem holds_ofPattern (kind : NumberKind) {pattern : Nat} (h : pattern < kind.modulus) :
    kind.Holds (kind.ofPattern pattern) := by
  have heven := kind.even_modulus
  unfold Holds ofPattern
  split
  · have hlow := Int.le_bmod (x := pattern) (m := kind.modulus) (by omega)
    have hhigh := Int.bmod_lt (x := pattern) (m := kind.modulus) (by omega)
    omega
  · omega

theorem pattern_ofPattern (kind : NumberKind) {pattern : Nat} (h : pattern < kind.modulus) :
    kind.pattern (kind.ofPattern pattern) = pattern := by
  have hmod : (pattern : Int) % kind.modulus = pattern :=
    Int.emod_eq_of_lt (Int.natCast_nonneg _) (by omega)
  unfold NumberKind.pattern ofPattern
  split
  · rw [Int.bmod_emod, hmod, Int.toNat_natCast]
  · rw [hmod, Int.toNat_natCast]

theorem readOff_lt_modulus (kind : NumberKind) (order : ByteOrder) {bytes : List UInt8}
    (h : bytes.length = kind.width) : order.readOff bytes < kind.modulus := by
  rw [modulus, ← h]
  exact order.readOff_lt bytes

theorem holds_ofBytes (kind : NumberKind) (order : ByteOrder) {bytes : List UInt8}
    (h : bytes.length = kind.width) : kind.Holds (kind.ofBytes order bytes) :=
  kind.holds_ofPattern (kind.readOff_lt_modulus order h)

theorem bytes_ofBytes (kind : NumberKind) (order : ByteOrder) {bytes : List UInt8}
    (h : bytes.length = kind.width) : kind.bytes order (kind.ofBytes order bytes) = bytes := by
  rw [NumberKind.bytes, ofBytes, kind.pattern_ofPattern (kind.readOff_lt_modulus order h),
    order.layOut_readOff h]

end NumberKind

end ObjectStream
