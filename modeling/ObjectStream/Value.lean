import ObjectStream.Error
import ObjectStream.ErrorCategory

/-!
# Values

A value of any type, as a tree. Numbers are integers, floats their patterns of
bits. A map is the list of its entries, an entry being the list of its key and
its value, which is also how both are written. A pointer carries the concrete
type of its object beside the object; a pointer that may be shared carries the
identity of the object too, and two pointers with one identity are the same
object.
-/

namespace ObjectStream

inductive Datum
  | bool (b : Bool)
  /-- An integer, the number of a character, a tag, or a number of nanoseconds. -/
  | int (n : Int)
  | single (bits : UInt32)
  | double (bits : UInt64)
  | text (s : String)
  | bytes (b : ByteArray)
  deriving DecidableEq

/-- Whether a number is that of a character. Surrogates are none. -/
def isScalarValue (n : Int) : Bool := (0 ≤ n && n < 0xd800) || (0xe000 ≤ n && n < 0x110000)

def IntWidth.holdsUnsigned (width : IntWidth) (n : Int) : Bool :=
  0 ≤ n && n < 2 ^ width.bits

def IntWidth.holdsSigned (width : IntWidth) (n : Int) : Bool :=
  -2 ^ (width.bits - 1) ≤ n && n < 2 ^ (width.bits - 1)

def Scalar.holds : Scalar → Datum → Bool
  | .bool, .bool _ => true
  | .unsigned width, .int n => width.holdsUnsigned n
  | .signed width, .int n => width.holdsSigned n
  | .char, .int n => isScalarValue n
  | .float32, .single _ => true
  | .float64, .double _ => true
  | .string, .text _ | .smallString, .text _ | .str, .text _ => true
  | .bytes, .bytes _ | .bytesMut, .bytes _ => true
  | .duration, .int n => 0 ≤ n
  | .systemTime, .int _ | .dateTime, .int _ => true
  | .uuid, .bytes b => b.size == 16
  | .typeTag, .int n => IntWidth.w32.holdsUnsigned n
  | _, _ => false

inductive Value
  | scalar (d : Datum)
  | errorCode (code : ErrorCode)
  /-- The parts of a tuple, a fixed array, a sequence, a set, a map, an entry or a struct. -/
  | list (vs : List Value)
  | absent
  | present (v : Value)
  /-- A variant of an enum, by its place among the declared variants. -/
  | variant (index : Nat) (fields : List Value)
  | shared (id : Identity) (type : Ty) (body : Value)
  | unique (type : Ty) (body : Value)
  deriving Inhabited

def Value.ofPair (p : Value × Value) : Value := .list [p.1, p.2]

def Value.toPair : Value → Value × Value
  | .list [key, value] => (key, value)
  | v => (v, v)

end ObjectStream
