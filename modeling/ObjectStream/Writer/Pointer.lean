import ObjectStream.Writer.Basic

/-!
# Writing pointers

A pointer is written as a pair: the tag of its object's concrete type and the
object's body. A stream that tracks shared objects writes the body of each of
them once, and every later pointer to it as the pair of its tag and its serial,
the number of shared objects entered before it. A reader tells the two apart by
the second half being an integer, so a body may not start with one.

The body is any action, so the rules here hold for every way of writing an
object.
-/

namespace ObjectStream

/-- What a stream knows of an object when it meets a pointer to it. -/
inductive Encounter
  /-- The stream does not track objects. -/
  | untracked
  | seen (tag : TypeTag) (serial : Nat)
  | first
  deriving DecidableEq

namespace Writer

def requireTag (t : Ty) : Writer TypeTag := fun s =>
  match s.context.registry.requireTag t with
  | .ok tag => .ok tag s
  | .error e => .error e s

def encounter (id : Identity) : Writer Encounter := fun s =>
  match s.shared with
  | none => .ok .untracked s
  | some table =>
      match table.find? id with
      | some (tag, serial) => .ok (.seen tag serial) s
      | none => .ok .first s

/-- Enters an object that starts at the end of what is written. -/
def enter (id : Identity) (tag : TypeTag) : Writer Unit := fun s =>
  match s.shared with
  | none => .ok () s
  | some table =>
      .ok () { s with
        shared := some (table.enter id tag s.size)
        journal := s.journal.note (.newObject tag table.nextSerial) }

def byteAt? (offset : Nat) : Writer (Option UInt8) := fun s => .ok s.sink.data[offset]? s

/-- Writes a tag and a body as a pair. -/
def taggedBody (tag : TypeTag) (body : Writer Unit) : Writer Unit := do
  arrayHeader 2
  uint tag
  body

/-- Writes a pointer to a shared object of a concrete type. On the first encounter of an object
its entry and its bytes stay even if the body fails, or proves to start with an integer. -/
def shared (id : Identity) (type : Ty) (body : Writer Unit) : Writer Unit := do
  let tag ← requireTag type
  match ← encounter id with
  | .untracked => taggedBody tag body
  | .seen tag serial =>
      note (.backReference tag serial)
      arrayHeader 2
      uint tag
      uint serial
  | .first =>
      enter id tag
      arrayHeader 2
      uint tag
      let start ← position
      body
      match ← byteAt? start with
      | some code =>
          if (Format.family code).isInteger then
            throw (.invalidArgument (.integerBody type))
      | none => pure ()

/-- Writes a pointer that owns its object. Its body is never referred to, and may start with
anything. -/
def unique (type : Ty) (body : Writer Unit) : Writer Unit := do
  taggedBody (← requireTag type) body

end Writer

end ObjectStream
