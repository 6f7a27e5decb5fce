import ObjectStream.Bytes.Basic
import ObjectStream.Error
import ObjectStream.Number.Basic

/-!
# Byte sinks

A byte string that grows at its end, up to a limit if it has one. A sink refuses
a piece as a whole: one that does not fit is not written in part.
-/

namespace ObjectStream

/-- Written bytes, and the greatest number of bytes allowed, if there is one. -/
structure ByteSink where
  data : ByteArray
  limit : Option Nat

namespace ByteSink

def growable : ByteSink := ⟨.empty, none⟩

def bounded (limit : Nat) : ByteSink := ⟨.empty, some limit⟩

def ofBytes (bytes : ByteArray) : ByteSink := ⟨bytes, none⟩

def size (s : ByteSink) : Nat := s.data.size

def isGrowable (s : ByteSink) : Bool := s.limit.isNone

/-- The number of bytes that a bounded sink still takes. -/
def room? (s : ByteSink) : Option Nat := s.limit.map (· - s.size)

def refusal? (s : ByteSink) (needed : Nat) : Option StreamError :=
  match s.room? with
  | some room => if room < needed then some (.overflow needed room) else none
  | none => none

/-- The sink with more bytes at its end, whatever its limit. -/
def append (s : ByteSink) (bytes : ByteArray) : ByteSink :=
  { s with data := s.data ++ bytes }

def put (s : ByteSink) (bytes : ByteArray) : Except StreamError ByteSink :=
  match s.refusal? bytes.size with
  | some e => .error e
  | none => .ok (s.append bytes)

def putNumber (s : ByteSink) (kind : NumberKind) (order : ByteOrder) (value : Int) :
    Except StreamError ByteSink :=
  s.put (packed (kind.bytes order value))

def truncate (s : ByteSink) (pos : Nat) : ByteSink :=
  { s with data := s.data.extract 0 pos }

/-- Goes back to an earlier end; positions past the end are refused. -/
def backTo (s : ByteSink) (pos : Nat) : Except StreamError ByteSink :=
  if s.size < pos then .error (.invalidArgument (.position pos s.size))
  else .ok (s.truncate pos)

def clear (s : ByteSink) : ByteSink := { s with data := .empty }

@[simp] theorem size_append (s : ByteSink) (bytes : ByteArray) :
    (s.append bytes).size = s.size + bytes.size := by
  simp [append, size]

theorem append_append (s : ByteSink) (a b : ByteArray) :
    (s.append a).append b = s.append (a ++ b) := by
  simp [append, ByteArray.append_assoc]

theorem append_nil (s : ByteSink) : s.append (packed []) = s := by
  have hdata : s.data ++ packed [] = s.data := by
    apply ByteArray.ext
    simp [packed]
  rw [append, hdata]

theorem append_packed (s : ByteSink) (a b : List UInt8) :
    (s.append (packed a)).append (packed b) = s.append (packed (a ++ b)) := by
  rw [append_append, packed_append]

theorem truncate_append (s : ByteSink) (bytes : ByteArray) :
    (s.append bytes).truncate s.size = s := by
  simp [append, truncate, size, ByteArray.extract_append]

theorem refusal?_eq_none_iff (s : ByteSink) (needed : Nat) :
    s.refusal? needed = none ↔ ∀ room, s.room? = some room → needed ≤ room := by
  unfold refusal?
  cases s.room? with
  | none => simp
  | some room =>
      by_cases h : room < needed
      · simp [h]
      · simp [h, Nat.le_of_not_lt h]

theorem refusal?_growing {sink : ByteSink} (h : sink.limit = none) (n : Nat) :
    sink.refusal? n = none := by
  rw [refusal?, room?, h]
  rfl

theorem refusal?_of_le (s : ByteSink) {m n : Nat} (h : s.refusal? n = none) (hmn : m ≤ n) :
    s.refusal? m = none := by
  rw [refusal?_eq_none_iff] at h ⊢
  intro room hroom
  have := h room hroom
  omega

theorem refusal?_append (s : ByteSink) (bytes : ByteArray) {n : Nat}
    (h : s.refusal? (bytes.size + n) = none) : (s.append bytes).refusal? n = none := by
  rw [refusal?_eq_none_iff] at h ⊢
  intro room hroom
  simp only [room?, Option.map_eq_some_iff, size_append] at h hroom
  obtain ⟨limit, hlimit, rfl⟩ := hroom
  have := h _ ⟨limit, hlimit, rfl⟩
  omega

end ByteSink

end ObjectStream
