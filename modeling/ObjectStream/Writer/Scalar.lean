import ObjectStream.Time.Clock
import ObjectStream.Writer.Basic

/-!
# Writing scalar values

The form of each scalar type: integers and characters as integers, texts as
strings, raw bytes with their length, spans and instants as a number of
nanoseconds that has to fit 64 bits, and a universal identifier as an extension
of sixteen bytes.
-/

namespace ObjectStream

def uuidSubtype : Int := 1

namespace Writer

/-- Writes an instant, which has to fit a signed number of 64 bits. -/
def instant (s : Scalar) (nanos : Int) : Writer Unit :=
  if IntWidth.w64.holdsSigned nanos then int nanos
  else throw (.invalidArgument (.timeRange s nanos))

def clock (t : Time.Instant) : Writer Unit :=
  match t.ticks? with
  | some ticks => int ticks
  | none => throw (.invalidArgument (.timeRange .systemTime t.total))

def scalar (s : Scalar) (d : Datum) : Writer Unit :=
  if s.holds d then
    match s, d with
    | .bool, .bool b => bool b
    | .unsigned _, .int n | .char, .int n | .typeTag, .int n => uint n.toNat
    | .signed _, .int n => int n
    | .float32, .single bits => f32 bits
    | .float64, .double bits => f64 bits
    | .string, .text t | .smallString, .text t | .str, .text t => str t
    | .bytes, .bytes b | .bytesMut, .bytes b => blob b
    | .duration, .int n =>
        if IntWidth.w64.holdsUnsigned n then uint n.toNat
        else throw (.invalidArgument (.timeRange .duration n))
    | .systemTime, .int n => clock (.ofNanos n)
    | .dateTime, .int n => instant .dateTime n
    | .uuid, .bytes b => ext uuidSubtype b
    | _, _ => throw (.illTyped (.scalar s))
  else throw (.illTyped (.scalar s))

/-- An instant of the clock is written as one of the calendar is. -/
theorem clock_ofNanos (n : Int) : clock (.ofNanos n) = instant .systemTime n := by
  have hholds : IntWidth.w64.holdsSigned n = true ↔ -2 ^ (64 - 1) ≤ n ∧ n < 2 ^ (64 - 1) := by
    rw [IntWidth.holdsSigned, Bool.and_eq_true]
    exact and_congr decide_eq_true_iff decide_eq_true_iff
  rw [clock, Time.Instant.ticks?_eq, Time.Instant.total_ofNanos, instant, Time.signed?]
  by_cases h : -2 ^ (64 - 1) ≤ n ∧ n < 2 ^ (64 - 1)
  · rw [if_pos h, if_pos (hholds.2 h)]
  · rw [if_neg h, if_neg (mt hholds.1 h)]

/-- Writes an error code: the place of its category, and its number. -/
def errorCode (code : ErrorCode) : Writer Unit := do
  match (← context).categories.placeOf? code.category.name with
  | none => throw (.unregisteredType (.category code.category.name))
  | some place =>
      arrayHeader 2
      uint place
      int code.value

end Writer

end ObjectStream
