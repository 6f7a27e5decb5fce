import ObjectStream.Reader.Basic
import ObjectStream.Writer.Scalar

/-!
# Reading scalar values

An integer is read in any form and then has to be one of its type; a number out
of range is refused with the cursor put back. What the forms of the other
scalars leave open is checked behind the read: the number of a character, and
the length of a universal identifier.
-/

namespace ObjectStream

namespace Reader

def unsigned (width : IntWidth) : Reader Nat := orRestore do
  let value ← uint
  if width.holdsUnsigned value then pure value
  else throw (.type (.narrow value (.unsigned width)))

def signed (width : IntWidth) : Reader Int := orRestore do
  let value ← int
  if width.holdsSigned value then pure value
  else throw (.type (.narrow value (.signed width)))

def char : Reader Nat := do
  let value ← unsigned .w32
  if isScalarValue value then pure value else throw (.type (.notScalarValue value))

/-- An extension of a given subtype; another one is refused with the cursor put back. -/
def extOf (subtype : Int) : Reader ByteArray := orRestore do
  let (actual, payload) ← ext
  if actual = subtype then pure payload else throw (.type (.uuidSubtype actual))

def uuid : Reader ByteArray := do
  let payload ← extOf uuidSubtype
  if payload.size = 16 then pure payload else throw (.type (.uuidLength payload.size))

def clock : Reader Time.Instant := do
  let ticks ← signed .w64
  match Time.Instant.ofTicks? ticks with
  | some t => pure t
  | none => throw (.type (.beyondClock ticks))

/-- A value of a scalar type. Borrowed text cannot be read. -/
def scalar (s : Scalar) : Reader Datum :=
  match s with
  | .bool => Datum.bool <$> bool
  | .unsigned width => (fun n : Nat => Datum.int n) <$> unsigned width
  | .signed width => Datum.int <$> signed width
  | .char => (fun n : Nat => Datum.int n) <$> char
  | .float32 => Datum.single <$> f32
  | .float64 => Datum.double <$> f64
  | .string | .smallString => Datum.text <$> str
  | .str => throw (.illTyped (.scalar .str))
  | .bytes | .bytesMut => Datum.bytes <$> blob
  | .duration => (fun n : Nat => Datum.int n) <$> unsigned .w64
  | .systemTime => (fun t => Datum.int t.total) <$> clock
  | .dateTime => Datum.int <$> signed .w64
  | .uuid => Datum.bytes <$> uuid
  | .typeTag => (fun n : Nat => Datum.int n) <$> unsigned .w32

theorem holdsSigned_of_signed {width : IntWidth} {n : Int} {r r' : InStream}
    (h : signed width r = .ok n r') : width.holdsSigned n = true := by
  simp only [signed, orRestore, bind, EStateM.bind] at h
  cases hint : int r with
  | error e t =>
      rw [hint] at h
      cases h
  | ok value t =>
      rw [hint] at h
      by_cases hholds : width.holdsSigned value = true
      · simp only [if_pos hholds, pure, EStateM.pure, EStateM.Result.ok.injEq] at h
        exact h.1 ▸ hholds
      · simp only [if_neg hholds] at h
        cases h

/-- No ticks are beyond the clock, so an instant is read as its number is. -/
theorem scalar_systemTime : scalar .systemTime = Datum.int <$> signed .w64 := by
  funext r
  simp only [scalar, clock, Functor.map, EStateM.map, bind, EStateM.bind]
  cases hsigned : signed .w64 r with
  | error e t => rfl
  | ok n t =>
      have hrange := holdsSigned_of_signed hsigned
      rw [IntWidth.holdsSigned, Bool.and_eq_true] at hrange
      obtain ⟨instant, hticks, htotal⟩ := Time.Instant.exists_ofTicks?
        (of_decide_eq_true hrange.1) (of_decide_eq_true hrange.2)
      simp only [hticks, pure, EStateM.pure, htotal]

/-- An error code. Its category is looked up when both numbers have been read. -/
def errorCode : Reader ErrorCode := do
  arrayHeaderOf 2
  let place ← unsigned .w32
  let value ← signed .w32
  match (← context).categories.category? place with
  | some category => pure ⟨category, value⟩
  | none => throw (.unregisteredType (.categoryPlace place))

end Reader

end ObjectStream
