/-!
# Faults in UTF-8

Where a byte string stops being UTF-8. The scan walks over whole characters and
stops at the first byte that cannot continue the character begun before it. A
fault is either a character with an offending byte, or a character that the
text breaks off in, which is valid as far as it goes.
-/

namespace ObjectStream

/-- A fault in a text: the length of the valid part in front of it, and the number of bytes of
the rejected character before the offending byte, or `none` when the text ends inside it. -/
structure Utf8Fault where
  validUpTo : Nat
  length : Option Nat
  deriving DecidableEq, Repr

namespace Utf8

/-- For a byte that starts a character of several bytes: how many follow, and the bounds of
the first of them. The bounds rule out overlong forms, surrogates and numbers beyond the last
character. -/
def lead? (b : UInt8) : Option (Nat × UInt8 × UInt8) :=
  if b < 0xc2 then none
  else if b ≤ 0xdf then some (1, 0x80, 0xbf)
  else if b = 0xe0 then some (2, 0xa0, 0xbf)
  else if b = 0xed then some (2, 0x80, 0x9f)
  else if b ≤ 0xef then some (2, 0x80, 0xbf)
  else if b = 0xf0 then some (3, 0x90, 0xbf)
  else if b ≤ 0xf3 then some (3, 0x80, 0xbf)
  else if b = 0xf4 then some (3, 0x80, 0x8f)
  else none

inductive Wanted
  /-- No character has begun. -/
  | start
  /-- `seen` bytes of a character have been read and `more` are wanted, the next of them within
  the bounds. -/
  | inside (seen more : Nat) (low high : UInt8)

/-- Scans a text from a state, with `valid` bytes of whole characters behind. -/
def scan : Nat → Wanted → List UInt8 → Option Utf8Fault
  | _, .start, [] => none
  | valid, .inside .., [] => some ⟨valid, none⟩
  | valid, .start, b :: bs =>
      if b < 0x80 then scan (valid + 1) .start bs
      else match lead? b with
        | none => some ⟨valid, some 1⟩
        | some (more, low, high) => scan valid (.inside 1 more low high) bs
  | valid, .inside seen more low high, b :: bs =>
      if low ≤ b ∧ b ≤ high then
        if more ≤ 1 then scan (valid + seen + 1) .start bs
        else scan valid (.inside (seen + 1) (more - 1) 0x80 0xbf) bs
      else some ⟨valid, some seen⟩

def fault? (bytes : List UInt8) : Option Utf8Fault := scan 0 .start bytes

end Utf8

def Utf8Fault.message (fault : Utf8Fault) : String :=
  match fault.length with
  | some n => s!"invalid utf-8 sequence of {n} bytes from index {fault.validUpTo}"
  | none => s!"incomplete utf-8 byte sequence from index {fault.validUpTo}"

end ObjectStream
