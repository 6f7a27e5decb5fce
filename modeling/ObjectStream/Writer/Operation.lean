import ObjectStream.Encode

/-!
# Operations on output streams

What can be done with an output stream, as data, so that histories of a stream
are lists of operations. An operation that fails leaves the stream in the state
it had reached, and the history goes on from there.
-/

namespace ObjectStream

/-- An operation on an output stream. -/
inductive WriteOp
  | number (kind : NumberKind) (value : Int)
  | raw (bytes : ByteArray)
  | mapHeader (count : Nat)
  | arrayHeader (count : Nat)
  | objectHeader (count : Nat)
  | blobHeader (length : Nat)
  | blob (bytes : ByteArray)
  | str (text : String)
  | extHeader (subtype : Int) (length : Nat)
  | ext (subtype : Int) (payload : ByteArray)
  | nil
  | nullPointer
  | bool (b : Bool)
  | uint (value : Nat)
  | int (value : Int)
  | f32 (bits : UInt32)
  | f64 (bits : UInt64)
  | value (t : Ty) (v : Value)
  | fields (t : Ty) (v : Value)
  | backTo (pos : Nat)
  | clear
  | handOver

/-- What an operation on an output stream returns. -/
inductive WriteAnswer
  | done
  | bytes (b : ByteArray)

namespace WriteOp

def run (Γ : Schema) : WriteOp → Writer WriteAnswer
  | .number kind n => do Writer.number kind n; pure .done
  | .raw b => do Writer.raw b; pure .done
  | .mapHeader count => do Writer.mapHeader count; pure .done
  | .arrayHeader count => do Writer.arrayHeader count; pure .done
  | .objectHeader count => do Writer.objectHeader count; pure .done
  | .blobHeader length => do Writer.blobHeader length; pure .done
  | .blob b => do Writer.blob b; pure .done
  | .str text => do Writer.str text; pure .done
  | .extHeader subtype length => do Writer.extHeader subtype length; pure .done
  | .ext subtype payload => do Writer.ext subtype payload; pure .done
  | .nil => do Writer.nil; pure .done
  | .nullPointer => do Writer.nullPointer; pure .done
  | .bool b => do Writer.bool b; pure .done
  | .uint n => do Writer.uint n; pure .done
  | .int n => do Writer.int n; pure .done
  | .f32 bits => do Writer.f32 bits; pure .done
  | .f64 bits => do Writer.f64 bits; pure .done
  | .value t v => do encode Γ t v; pure .done
  | .fields t v => do encodeFields Γ t v; pure .done
  | .backTo pos => do Writer.backTo pos; pure .done
  | .clear => do Writer.clear; pure .done
  | .handOver => do pure (.bytes (← Writer.handOver))

/-- The state of a stream after an operation, whether it succeeded or not. -/
def after (Γ : Schema) (op : WriteOp) (s : OutStream) : OutStream :=
  match op.run Γ s with
  | .ok _ s => s
  | .error _ s => s

def afterAll (Γ : Schema) (ops : List WriteOp) (s : OutStream) : OutStream :=
  ops.foldl (fun s op => op.after Γ s) s

end WriteOp

end ObjectStream
