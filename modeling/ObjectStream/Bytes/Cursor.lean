import ObjectStream.Bytes.Basic
import ObjectStream.Error
import ObjectStream.Number.Basic

/-!
# Byte cursors

Bytes with a position in them. A read past the end is refused as a whole, and
does not move the cursor.
-/

namespace ObjectStream

/-- Bytes and a position in them. -/
structure ByteCursor where
  data : ByteArray
  pos : Nat

namespace ByteCursor

def ofBytes (bytes : ByteArray) : ByteCursor := ⟨bytes, 0⟩

def size (c : ByteCursor) : Nat := c.data.size

def remaining (c : ByteCursor) : Nat := c.size - c.pos

/-- The error of a read of `needed` bytes that are not there. -/
def shortage? (c : ByteCursor) (needed : Nat) : Option StreamError :=
  if c.remaining < needed then some (.outOfRange needed c.remaining) else none

/-- The cursor `n` bytes further, whatever is left. -/
def skip (c : ByteCursor) (n : Nat) : ByteCursor := { c with pos := c.pos + n }

/-- The `n` bytes at the cursor, or fewer when fewer are left. -/
def window (c : ByteCursor) (n : Nat) : ByteArray := c.data.extract c.pos (c.pos + n)

def peek (c : ByteCursor) : Except StreamError UInt8 :=
  match c.data[c.pos]? with
  | some byte => .ok byte
  | none => .error (.outOfRange 1 c.remaining)

def advance (c : ByteCursor) (n : Nat) : Except StreamError ByteCursor :=
  match c.shortage? n with
  | some e => .error e
  | none => .ok (c.skip n)

def take (c : ByteCursor) (n : Nat) : Except StreamError (ByteArray × ByteCursor) :=
  match c.shortage? n with
  | some e => .error e
  | none => .ok (c.window n, c.skip n)

def takeNumber (c : ByteCursor) (kind : NumberKind) (order : ByteOrder) :
    Except StreamError (Int × ByteCursor) :=
  (c.take kind.width).map fun (bytes, c) => (kind.ofBytes order (unpacked bytes), c)

/-- Moves the cursor to a position; positions past the end are refused. -/
def seek (c : ByteCursor) (pos : Nat) : Except StreamError ByteCursor :=
  if c.size < pos then .error (.invalidArgument (.position pos c.size))
  else .ok { c with pos }

def rewind (c : ByteCursor) : ByteCursor := { c with pos := 0 }

/-- What is left when the bytes have been handed over. -/
def spent : ByteCursor := ⟨.empty, 0⟩

theorem shortage?_eq_none_iff (c : ByteCursor) (needed : Nat) :
    c.shortage? needed = none ↔ needed ≤ c.remaining := by
  unfold shortage?
  by_cases h : c.remaining < needed
  · simp [h]
  · simp [h, Nat.le_of_not_lt h]

end ByteCursor

end ObjectStream
