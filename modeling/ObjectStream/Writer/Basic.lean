import Std.Data.ExtTreeMap
import ObjectStream.Bytes.Sink
import ObjectStream.Context
import ObjectStream.Format.Size

/-!
# Output streams

An output stream is a byte sink, a context, and, when the context asks for
deduplication, a table of the shared objects already written. A `Writer` is an
action on it; one that fails leaves the stream as it stood at the failure.

Headers and scalars are written in the shortest form that holds their argument.
Each of them makes sure of room for its whole size first, so it is written whole
or not at all.
-/

namespace ObjectStream

/-- A shared object on the wire: its identity and the offset of its framing. -/
structure WrittenObject where
  id : Identity
  start : Nat
  deriving DecidableEq

/-- The shared objects of a stream: by serial, and by identity with tag and serial. -/
structure WrittenTable where
  written : Array WrittenObject
  saved : Std.ExtTreeMap Identity (TypeTag × Nat)

namespace WrittenTable

def empty : WrittenTable := ⟨#[], ∅⟩

def find? (t : WrittenTable) (id : Identity) : Option (TypeTag × Nat) := t.saved[id]?

/-- The serial of the next object, a number of 32 bits. -/
def nextSerial (t : WrittenTable) : Nat := t.written.size % 2 ^ 32

def enter (t : WrittenTable) (id : Identity) (tag : TypeTag) (start : Nat) : WrittenTable :=
  { written := t.written.push ⟨id, start⟩
    saved := t.saved.insert id (tag, t.nextSerial) }

/-- Drops the last `n` objects as long as they start at or behind an offset. -/
def dropFrom (t : WrittenTable) (pos : Nat) : Nat → WrittenTable
  | 0 => t
  | n + 1 =>
      match t.written.back? with
      | some last =>
          if last.start < pos then t
          else dropFrom { written := t.written.pop, saved := t.saved.erase last.id } pos n
      | none => t

/-- The table without the objects that start at or behind an offset. -/
def truncate (t : WrittenTable) (pos : Nat) : WrittenTable := t.dropFrom pos t.written.size

end WrittenTable

/-- An output stream. The journal is what an observer has seen of it. -/
structure OutStream where
  context : Context
  sink : ByteSink
  shared : Option WrittenTable
  journal : Journal

namespace OutStream

/-- A stream into a sink. It tracks shared objects if its context asks for it. -/
def ofSink (context : Context) (sink : ByteSink) (journal : Journal) : OutStream :=
  { context, sink, journal,
    shared := if context.dedup then some .empty else none }

def size (s : OutStream) : Nat := s.sink.size

def summary (s : OutStream) : String :=
  let objects := match s.shared with
    | some table => s!"Some({table.saved.size})"
    | none => "None"
  s!"OutputStream \x7b len: {s.size}, byte_order: {s.context.byteOrder.label}, " ++
    s!"shared_objects: {objects} \x7d"

end OutStream

abbrev Writer := EStateM StreamError OutStream

namespace Writer

/-! ## The sink -/

def position : Writer Nat := fun s => .ok s.size s

def context : Writer Context := fun s => .ok s.context s

def note (event : Event) : Writer Unit := fun s =>
  .ok () { s with journal := s.journal.note event }

/-- Fails if the sink is bounded and has fewer than `needed` bytes left. -/
def ensureRoom (needed : Nat) : Writer Unit := fun s =>
  match s.sink.refusal? needed with
  | some e => .error e s
  | none => .ok () s

def raw (bytes : ByteArray) : Writer Unit := fun s =>
  match s.sink.refusal? bytes.size with
  | some e => .error e s
  | none => .ok () { s with sink := s.sink.append bytes }

def byte (b : UInt8) : Writer Unit := raw (packed [b])

def number (kind : NumberKind) (value : Int) : Writer Unit := do
  raw (packed (kind.bytes (← context).byteOrder value))

/-- Goes back to an earlier position and forgets the shared objects written behind it. -/
def backTo (pos : Nat) : Writer Unit := fun s =>
  if s.size < pos then .error (.invalidArgument (.position pos s.size)) s
  else .ok () { s with
    sink := s.sink.truncate pos
    shared := s.shared.map (·.truncate pos) }

def clear : Writer Unit := fun s =>
  .ok () { s with sink := s.sink.clear, shared := s.shared.map fun _ => .empty }

/-- Hands over the bytes written and starts afresh. -/
def handOver : Writer ByteArray := fun s =>
  let bytes := s.sink.data
  .ok bytes { s with sink := s.sink.clear, shared := s.shared.map fun _ => .empty }

/-! ## Headers -/

/-- Writes a code and a length in the smallest field that holds it: of one byte if there is a
code for it, of two, or of four. -/
def sizedCode (length : Nat) (code8 : Option UInt8) (code16 code32 : UInt8) : Writer Unit :=
  match code8 with
  | some code =>
      if length < 2 ^ 8 then do
        ensureRoom 2
        byte code
        number .u8 length
      else wide length code16 code32
  | none => wide length code16 code32
where
  /-- The fields of two and four bytes. -/
  wide (length : Nat) (code16 code32 : UInt8) : Writer Unit :=
    if length < 2 ^ 16 then do
      ensureRoom 3
      byte code16
      number .u16 length
    else if length < 2 ^ 32 then do
      ensureRoom 5
      byte code32
      number .u32 length
    else throw (.invalidArgument (.length length))

/-- The code of a short form: its payload is added to the first of its codes. -/
def shortCode (first : UInt8) (payload : Nat) : UInt8 := first + UInt8.ofNat payload

def mapHeader (count : Nat) : Writer Unit :=
  if count ≤ 15 then byte (shortCode Format.fixmap count)
  else sizedCode count none Format.map16 Format.map32

def arrayHeader (count : Nat) : Writer Unit :=
  if count ≤ 15 then byte (shortCode Format.fixarray count)
  else sizedCode count none Format.array16 Format.array32

def objectHeader (count : Nat) : Writer Unit := arrayHeader count

def blobHeader (length : Nat) : Writer Unit :=
  sizedCode length (some Format.bin8) Format.bin16 Format.bin32

def blob (bytes : ByteArray) : Writer Unit := do
  ensureRoom (Format.Size.blob bytes.size + bytes.size)
  blobHeader bytes.size
  raw bytes

def str (text : String) : Writer Unit := do
  let bytes := text.toUTF8
  ensureRoom (Format.Size.str bytes.size + bytes.size)
  if bytes.size ≤ 31 then byte (shortCode Format.fixstr bytes.size)
  else sizedCode bytes.size (some Format.str8) Format.str16 Format.str32
  raw bytes

def extHeader (subtype : Int) (length : Nat) : Writer Unit := do
  match Format.fixext? length with
  | some code =>
      ensureRoom 2
      byte code
  | none =>
      if 2 ^ 32 ≤ length then throw (.invalidArgument (.extensionLength length))
      ensureRoom (Format.Size.ext length)
      sizedCode length (some Format.ext8) Format.ext16 Format.ext32
  number .i8 subtype

def ext (subtype : Int) (payload : ByteArray) : Writer Unit := do
  if payload.size < 2 ^ 32 then
    ensureRoom (Format.Size.ext payload.size + payload.size)
  extHeader subtype payload.size
  raw payload

/-! ## Scalars -/

def nil : Writer Unit := byte Format.nil

def bool (b : Bool) : Writer Unit := byte (if b then Format.trueCode else Format.falseCode)

/-- Writes a code and a number, both or neither. -/
def coded (code : UInt8) (kind : NumberKind) (value : Int) : Writer Unit := do
  ensureRoom (1 + kind.width)
  byte code
  number kind value

/-- Writes a non-negative integer below `2 ^ 64`. -/
def uint (value : Nat) : Writer Unit := do
  ensureRoom (Format.Size.uint value)
  if value < 2 ^ 7 then byte (UInt8.ofNat value)
  else if value < 2 ^ 8 then do
    byte Format.uint8
    number .u8 value
  else if value < 2 ^ 16 then do
    byte Format.uint16
    number .u16 value
  else if value < 2 ^ 32 then do
    byte Format.uint32
    number .u32 value
  else do
    byte Format.uint64
    number .u64 value

/-- Writes an integer from `-2 ^ 63` up. -/
def int (value : Int) : Writer Unit :=
  if 0 ≤ value then uint value.toNat
  else do
    ensureRoom (Format.Size.int value)
    if -32 ≤ value then number .i8 value
    else if -2 ^ 7 ≤ value then do
      byte Format.int8
      number .i8 value
    else if -2 ^ 15 ≤ value then do
      byte Format.int16
      number .i16 value
    else if -2 ^ 31 ≤ value then do
      byte Format.int32
      number .i32 value
    else do
      byte Format.int64
      number .i64 value

def f32 (bits : UInt32) : Writer Unit := coded Format.float32 .f32 bits.toNat

def f64 (bits : UInt64) : Writer Unit := coded Format.float64 .f64 bits.toNat

/-- Writes the null pointer: a pair of the tag that no type has, and nil. -/
def nullPointer : Writer Unit := do
  ensureRoom 3
  arrayHeader 2
  uint nullTag
  nil

end Writer

end ObjectStream
