import ObjectStream.Schema

/-!
# Field rules

Ways of writing a field other than that of its type. The rule for raw bytes
stores a sequence of bytes as one piece instead of an array of integers. The
empty codec is that of a type without content.
-/

namespace ObjectStream

def Value.byte? : Value → Option UInt8
  | .scalar (.int n) => if 0 ≤ n ∧ n < 256 then some (UInt8.ofNat n.toNat) else none
  | _ => none

def Value.bytes? : Value → Option (List UInt8)
  | .list vs => vs.mapM Value.byte?
  | _ => none

def Value.ofBytes (bytes : List UInt8) : Value :=
  .list (bytes.map fun b => .scalar (.int b.toNat))

theorem Value.byte?_scalar (b : UInt8) : Value.byte? (.scalar (.int b.toNat)) = some b := by
  have hlt := b.toNat_lt
  rw [Value.byte?, if_pos (by omega), Int.toNat_natCast, UInt8.ofNat_toNat]

@[simp] theorem Value.bytes?_ofBytes (bytes : List UInt8) :
    (Value.ofBytes bytes).bytes? = some bytes := by
  simp only [Value.ofBytes, Value.bytes?]
  induction bytes with
  | nil => rfl
  | cons b bytes ih => simp [List.map_cons, List.mapM_cons, Value.byte?_scalar, ih]

namespace Codec

def blob : Codec where
  write v :=
    match v.bytes? with
    | some bytes => Writer.blob (packed bytes)
    | none => throw (.illTyped (.vec .u8))
  read := do pure (Value.ofBytes (unpacked (← Reader.blob)))

def blobPath : String := "bstream::core::blob"

def empty : Codec where
  write _ := pure ()
  read := pure (.list [])

/-- Whether a text is a number of at most 32 bits in hexadecimal digits, and which. -/
def hexNumber? (text : String) : Option Nat :=
  if 1 ≤ text.length ∧ text.length ≤ 8 then Hex.ofDigits? text.toList else none

/-- Stores a number of 32 bits as the text of its hexadecimal digits. -/
def hexNumber : Codec where
  write v :=
    match v with
    | .scalar (.int n) => Writer.str (String.ofList (Hex.digits n.toNat))
    | _ => throw (.illTyped .u32)
  read := do
    match hexNumber? (← Reader.str) with
    | some n => pure (.scalar (.int n))
    | none => throw (.invalidArgument (.rule "bad hexnum"))

end Codec

end ObjectStream
