import ObjectStream.Reader.Basic

/-!
# Skipping values

Any value can be skipped without knowing its type. The walk goes over headers
from left to right and keeps the number of values still to come: a header takes
one from it and adds the number of values that it announces. Every header takes
at least one byte, so there are no more steps than bytes.
-/

namespace ObjectStream

namespace Reader

/-- Moves over one header, with the body of a string, of raw bytes or of an extension, and returns
the number of values that belong to it. The keys and the values of a map both count. -/
def stepOver : Reader Nat := do
  let code ← peek
  match Format.family code with
  | .positiveFixint | .negativeFixint | .nil | .bool => do
      advance 1
      pure 0
  | .uint | .int => do
      advance (1 + 2 ^ (code.toNat % 4))
      pure 0
  | .float32 => do
      advance 5
      pure 0
  | .float64 => do
      advance 9
      pure 0
  | .str => do
      advance (← strHeader)
      pure 0
  | .bin => do
      advance (← blobHeader)
      pure 0
  | .ext => do
      advance (← extHeader).2
      pure 0
  | .array => arrayHeader
  | .map => do pure (2 * (← mapHeader))
  | .unused => refuse .value code

/-- Skips values. The fuel is a bound on the number of headers. -/
def skipMany : Nat → Nat → Reader Unit
  | _, 0 => pure ()
  | 0, _ + 1 => throw .tooDeep
  | fuel + 1, pending + 1 => do
      let nested ← stepOver
      skipMany fuel (pending + nested)

def skip : Reader Unit := do
  skipMany ((← remaining) + 1) 1

end Reader

end ObjectStream
