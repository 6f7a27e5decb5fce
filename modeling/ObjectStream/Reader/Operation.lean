import ObjectStream.Decode

/-!
# Operations on input streams

What can be done with an input stream, as data, so that histories of a stream
are lists of operations.
-/

namespace ObjectStream

/-- An operation on an input stream. -/
inductive ReadOp
  | peek
  | byte
  | number (kind : NumberKind)
  | raw (n : Nat)
  | mapHeader
  | arrayHeader
  | arrayHeaderOf (expected : Nat)
  | mapHeaderOf (expected : Nat)
  | blobHeader
  | blob
  | strHeader
  | str
  | extHeader
  | ext
  | nil
  | bool
  | uint
  | int
  | f32
  | f64
  | value (t : Ty)
  | fields (t : Ty)
  | skip
  | seek (pos : Nat)
  | rewind
  | handOver

/-- What an operation on an input stream returns. -/
inductive ReadAnswer
  | done
  | count (n : Nat)
  | integer (n : Int)
  | flag (b : Bool)
  | single (bits : UInt32)
  | double (bits : UInt64)
  | text (s : String)
  | bytes (b : ByteArray)
  | extHeader (subtype : Int) (length : Nat)
  | ext (subtype : Int) (payload : ByteArray)
  | value (v : Value)

namespace ReadOp

def run (Γ : Schema) : ReadOp → Reader ReadAnswer
  | .peek => do pure (.count (← Reader.peek).toNat)
  | .byte => do pure (.count (← Reader.byte).toNat)
  | .number kind => do pure (.integer (← Reader.number kind))
  | .raw n => do pure (.bytes (← Reader.raw n))
  | .mapHeader => do pure (.count (← Reader.mapHeader))
  | .arrayHeader => do pure (.count (← Reader.arrayHeader))
  | .arrayHeaderOf expected => do Reader.arrayHeaderOf expected; pure .done
  | .mapHeaderOf expected => do Reader.mapHeaderOf expected; pure .done
  | .blobHeader => do pure (.count (← Reader.blobHeader))
  | .blob => do pure (.bytes (← Reader.blob))
  | .strHeader => do pure (.count (← Reader.strHeader))
  | .str => do pure (.text (← Reader.str))
  | .extHeader => do
      let (subtype, n) ← Reader.extHeader
      pure (.extHeader subtype n)
  | .ext => do
      let (subtype, payload) ← Reader.ext
      pure (.ext subtype payload)
  | .nil => do Reader.nil; pure .done
  | .bool => do pure (.flag (← Reader.bool))
  | .uint => do pure (.integer (← Reader.uint))
  | .int => do pure (.integer (← Reader.int))
  | .f32 => do pure (.single (← Reader.f32))
  | .f64 => do pure (.double (← Reader.f64))
  | .value t => do pure (.value (← decode Γ t))
  | .fields t => do pure (.value (← decodeFields Γ t))
  | .skip => do Reader.skip; pure .done
  | .seek pos => do Reader.seek pos; pure .done
  | .rewind => do Reader.rewind; pure .done
  | .handOver => do pure (.bytes (← Reader.handOver))

/-- The state of a stream after an operation, whether it succeeded or not. -/
def after (Γ : Schema) (op : ReadOp) (s : InStream) : InStream :=
  match op.run Γ s with
  | .ok _ s => s
  | .error _ s => s

def afterAll (Γ : Schema) (ops : List ReadOp) (s : InStream) : InStream :=
  ops.foldl (fun s op => op.after Γ s) s

end ReadOp

end ObjectStream
