import ObjectStream.Reader.Scalar

/-!
# Reading pointers

The counterpart of writing pointers. The tag says which constructor makes the
object. In a stream that tracks shared objects, an integer behind the tag is a
back-reference; otherwise the object opens the next place in the table before
its body is read, so that serials count objects in the order of their framings,
and fills it when it is complete. A back-reference is followed only to a filled
place with the same tag, whose object was read through the same type of
pointer.

How a value of a type is read is a parameter.
-/

namespace ObjectStream

namespace Reader

/-- The tag of a pointer, or `none` for the null pointer, which is read to its end. -/
def pointerTag : Reader (Option TypeTag) := do
  arrayHeaderOf 2
  let tag ← unsigned .w32
  if tag = nullTag then do
    nil
    pure none
  else pure (some tag)

/-- Reads the object of a tag and makes it a pointee of type `target`: its concrete type and its
value. -/
def build (registry : Registry) (tag : TypeTag) (target : Ty) (read : Ty → Reader Value) :
    Reader (Ty × Value) :=
  match registry.upcast? tag target with
  | none => throw (.unregisteredTag tag target)
  | some upcast => do
      note (.constructing tag target)
      let value ← read upcast.source
      pure (upcast.result, upcast.convert value)

def tracking : Reader Bool := fun s => .ok s.shared.isSome s

/-- Opens the next place of the table and returns its serial. -/
def openSlot (tag : TypeTag) : Reader Nat := fun s =>
  match s.shared with
  | some table => .ok table.size { s with shared := some (table.push ⟨tag, none⟩) }
  | none => .ok 0 s

def newObject (target type : Ty) (body : Value) : Reader Shared := fun s =>
  .ok ⟨s.nextObject, target, type, body⟩ { s with nextObject := s.nextObject + 1 }

/-- Fills a place of the table, which keeps the tag that it was opened with. The place has to be
there still: reading breaks off if the table was forgotten while the object was read. -/
def fillSlot (tag : TypeTag) (serial : Nat) (object : Shared) : Reader Unit := fun s =>
  match s.shared with
  | none => .ok () s
  | some table =>
      let journal := s.journal.note (.decodedObject tag serial)
      match table[serial]? with
      | none => .error (.type (.lostPlace serial table.size)) { s with journal }
      | some slot =>
          let filled := table.setIfInBounds serial { slot with object := some object }
          .ok () { s with shared := some filled, journal }

def slot? (serial : Nat) : Reader (Option Slot) := fun s =>
  .ok (s.shared.bind (·[serial]?)) s

def follow (tag : TypeTag) (serial : Nat) (target : Ty) : Reader Shared := do
  match ← slot? serial with
  | none => throw (.type (.unknownSerial serial))
  | some slot =>
      unless slot.tag = tag do throw (.type (.otherTag serial tag slot.tag))
      match slot.object with
      | none => throw (.type (.unfinished serial))
      | some object =>
          note (.resolvedObject tag serial)
          if object.target = target then pure object
          else throw (.type (.otherPointer serial target))

def makeShared (tag : TypeTag) (target : Ty) (read : Ty → Reader Value) : Reader Shared := do
  let (type, body) ← build (← context).registry tag target read
  newObject target type body

/-- Reads the object of a tag into the next place of the table. -/
def makeTracked (tag : TypeTag) (target : Ty) (read : Ty → Reader Value) : Reader Shared := do
  let serial ← openSlot tag
  let object ← makeShared tag target read
  fillSlot tag serial object
  pure object

/-- Reads what is behind the tag of a pointer: a back-reference or an object. -/
def sharedBehind (tag : TypeTag) (target : Ty) (read : Ty → Reader Value) : Reader Shared := do
  if ← tracking then
    if (Format.family (← peek)).isInteger then follow tag (← unsigned .w32) target
    else makeTracked tag target read
  else makeShared tag target read

def shared (target : Ty) (read : Ty → Reader Value) : Reader (Option Shared) := do
  match ← pointerTag with
  | none => pure none
  | some tag => some <$> sharedBehind tag target read

def unique (target : Ty) (read : Ty → Reader Value) : Reader (Option (Ty × Value)) := do
  match ← pointerTag with
  | none => pure none
  | some tag => some <$> build (← context).registry tag target read

/-- Nil as the absent value, or what is read otherwise. -/
def nilOr (read : Reader Value) : Reader Value := do
  if (← peek) = Format.nil then do
    nil
    pure .absent
  else do
    pure (.present (← read))

end Reader

end ObjectStream
