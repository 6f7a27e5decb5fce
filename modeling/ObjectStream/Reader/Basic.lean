import ObjectStream.Bytes.Cursor
import ObjectStream.Context
import ObjectStream.Number.Widen

/-!
# Input streams

An input stream is a cursor in its bytes, a context, and, when the context
asks for deduplication, the table of the shared objects read so far. A `Reader`
is an action on it. Every form of a header or scalar is accepted, not only the
shortest. A header or scalar that cannot be read leaves the cursor where it
was.
-/

namespace ObjectStream

/-- An object behind a pointer: its identity, the type of the pointer's target, its concrete
type and its value. -/
structure Shared where
  id : Identity
  target : Ty
  type : Ty
  body : Value

/-- A place in the table of shared objects. It is empty while its object is being read, and stays
empty if that fails. -/
structure Slot where
  tag : TypeTag
  object : Option Shared

/-- An input stream. Objects get their identities in the order in which they are completed, from
`nextObject` on; the journal is what an observer has seen of the stream. -/
structure InStream where
  context : Context
  cursor : ByteCursor
  shared : Option (Array Slot)
  nextObject : Identity
  journal : Journal

namespace InStream

def ofBytes (context : Context) (bytes : ByteArray) (nextObject : Identity) (journal : Journal) :
    InStream :=
  { context, nextObject, journal,
    cursor := .ofBytes bytes
    shared := if context.dedup then some #[] else none }

def pos (s : InStream) : Nat := s.cursor.pos

def summary (s : InStream) : String :=
  let objects := match s.shared with
    | some table => s!"Some({table.size})"
    | none => "None"
  s!"InputStream \x7b position: {s.pos}, len: {s.cursor.size}, " ++
    s!"byte_order: {s.context.byteOrder.label}, shared_objects: {objects} \x7d"

end InStream

abbrev Reader := EStateM StreamError InStream

namespace Reader

/-! ## The cursor -/

def position : Reader Nat := fun s => .ok s.pos s

def remaining : Reader Nat := fun s => .ok s.cursor.remaining s

def context : Reader Context := fun s => .ok s.context s

def note (event : Event) : Reader Unit := fun s =>
  .ok () { s with journal := s.journal.note event }

/-- Moves the cursor to a position. The table of shared objects stays. -/
def seek (pos : Nat) : Reader Unit := fun s =>
  match s.cursor.seek pos with
  | .ok cursor => .ok () { s with cursor }
  | .error e => .error e s

/-- Goes back to the start and forgets the shared objects. -/
def rewind : Reader Unit := fun s =>
  .ok () { s with cursor := s.cursor.rewind, shared := s.shared.map fun _ => #[] }

/-- Hands over the bytes; the stream is empty afterwards. -/
def handOver : Reader ByteArray := fun s =>
  .ok s.cursor.data { s with cursor := .spent, shared := s.shared.map fun _ => #[] }

/-- Puts the cursor back to where it was if the action fails. -/
def orRestore {α : Type} (x : Reader α) : Reader α := fun s =>
  let start := s.pos
  match x s with
  | .ok a s => .ok a s
  | .error e s => .error e { s with cursor := { s.cursor with pos := start } }

def peek : Reader UInt8 := fun s =>
  match s.cursor.peek with
  | .ok b => .ok b s
  | .error e => .error e s

def advance (n : Nat) : Reader Unit := fun s =>
  match s.cursor.advance n with
  | .ok cursor => .ok () { s with cursor }
  | .error e => .error e s

def raw (n : Nat) : Reader ByteArray := fun s =>
  match s.cursor.take n with
  | .ok (bytes, cursor) => .ok bytes { s with cursor }
  | .error e => .error e s

def byte : Reader UInt8 := do
  let b ← peek
  advance 1
  pure b

def number (kind : NumberKind) : Reader Int := fun s =>
  match s.cursor.takeNumber kind s.context.byteOrder with
  | .ok (value, cursor) => .ok value { s with cursor }
  | .error e => .error e s

def length (kind : NumberKind) : Reader Nat := do
  pure (← number kind).toNat

/-- Fails with a code that does not start what is asked for. -/
def refuse {α : Type} (expected : Expected) (code : UInt8) : Reader α :=
  throw (.type (.unexpected expected code))

/-! ## Headers -/

def mapHeader : Reader Nat := orRestore do
  let code ← byte
  if 0x80 ≤ code ∧ code ≤ 0x8f then pure (code - Format.fixmap).toNat
  else if code = Format.map16 then length .u16
  else if code = Format.map32 then length .u32
  else refuse .map code

def arrayHeader : Reader Nat := orRestore do
  let code ← byte
  if 0x90 ≤ code ∧ code ≤ 0x9f then pure (code - Format.fixarray).toNat
  else if code = Format.array16 then length .u16
  else if code = Format.array32 then length .u32
  else refuse .array code

/-- Reads the header of an array that has to have a given count. -/
def arrayHeaderOf (expected : Nat) : Reader Unit := orRestore do
  let actual ← arrayHeader
  unless actual = expected do throw (.countMismatch expected actual)

def mapHeaderOf (expected : Nat) : Reader Unit := orRestore do
  let actual ← mapHeader
  unless actual = expected do throw (.countMismatch expected actual)

def blobHeader : Reader Nat := orRestore do
  let code ← byte
  if code = Format.bin8 then length .u8
  else if code = Format.bin16 then length .u16
  else if code = Format.bin32 then length .u32
  else refuse .binary code

def blob : Reader ByteArray := orRestore do
  raw (← blobHeader)

def strHeader : Reader Nat := orRestore do
  let code ← byte
  if 0xa0 ≤ code ∧ code ≤ 0xbf then pure (code - Format.fixstr).toNat
  else if code = Format.str8 then length .u8
  else if code = Format.str16 then length .u16
  else if code = Format.str32 then length .u32
  else refuse .string code

def textOf (bytes : ByteArray) : Reader String :=
  match String.fromUTF8? bytes with
  | some text => pure text
  | none =>
      throw (.type (.badText ((Utf8.fault? (unpacked bytes)).getD ⟨0, none⟩)))

def str : Reader String := orRestore do
  textOf (← raw (← strHeader))

/-- The length of an extension's payload behind its code. -/
def extLength (code : UInt8) : Reader Nat :=
  match Format.fixextLength? code with
  | some n => pure n
  | none =>
      if code = Format.ext8 then length .u8
      else if code = Format.ext16 then length .u16
      else if code = Format.ext32 then length .u32
      else refuse .extension code

def extHeader : Reader (Int × Nat) := orRestore do
  let n ← extLength (← byte)
  let subtype ← number .i8
  pure (subtype, n)

def ext : Reader (Int × ByteArray) := orRestore do
  let (subtype, n) ← extHeader
  pure (subtype, ← raw n)

/-! ## Scalars -/

def nil : Reader Unit := do
  let code ← peek
  if code = Format.nil then advance 1 else refuse .nil code

def bool : Reader Bool := do
  let code ← peek
  if code = Format.trueCode then do
    advance 1
    pure true
  else if code = Format.falseCode then do
    advance 1
    pure false
  else refuse .bool code

def intBody (code : UInt8) : Reader Int :=
  if code = Format.int8 then number .i8
  else if code = Format.int16 then number .i16
  else if code = Format.int32 then number .i32
  else number .i64

def uintBody (code : UInt8) : Reader Nat :=
  if code = Format.uint8 then length .u8
  else if code = Format.uint16 then length .u16
  else if code = Format.uint32 then length .u32
  else length .u64

/-- The number of a negative integer that is its own code. -/
def fixintValue (code : UInt8) : Int := (code.toNat : Int) - 256

def uint : Reader Nat := orRestore do
  let code ← byte
  match Format.family code with
  | .positiveFixint => pure code.toNat
  | .uint => uintBody code
  | .int =>
      let value ← intBody code
      if 0 ≤ value then pure value.toNat else throw (.type (.negative value))
  | .negativeFixint => throw (.type (.negative (fixintValue code)))
  | _ => refuse .integer code

/-- An integer below `2 ^ 63`, in any form. -/
def int : Reader Int := orRestore do
  let code ← byte
  match Format.family code with
  | .positiveFixint => pure (code.toNat : Int)
  | .negativeFixint => pure (fixintValue code)
  | .int => intBody code
  | .uint =>
      let value ← uintBody code
      if value < 2 ^ 63 then pure (value : Int) else throw (.type (.beyondSigned value))
  | _ => refuse .integer code

def f32 : Reader UInt32 := orRestore do
  let code ← byte
  if code = Format.float32 then pure (UInt32.ofNat (← length .f32))
  else refuse .float32 code

/-- The pattern of a float of eight bytes. One of four bytes is accepted as well. -/
def f64 : Reader UInt64 := orRestore do
  let code ← byte
  if code = Format.float64 then pure (UInt64.ofNat (← length .f64))
  else if code = Format.float32 then pure (widenFloat (UInt32.ofNat (← length .f32)))
  else refuse .float code

end Reader

end ObjectStream
