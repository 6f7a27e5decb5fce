import ObjectStream.Schema
import ObjectStream.Reader.Skip

/-!
# Reading values

The counterpart of writing values. A step reads a value given how to read the
values inside of it. A vector is read in a loop that keeps the elements; other
collections take the elements as they come. The recursion is bounded: every level
of nesting takes a byte, but for the content of an option, so twice the number of
bytes that are left bounds the depth, and reading never gets to the bound. The
bases of a struct take no byte of their own, and have a bound of their own.
-/

namespace ObjectStream

namespace Reader

def unreadable {α : Type} (t : Ty) : Reader α := throw (.illTyped t)

/-- Reads the same thing a number of times, in front of what was read before in reverse. -/
def repeatOnto {α : Type} (x : Reader α) : Nat → List α → Reader (List α)
  | 0, done => pure done.reverse
  | n + 1, done => do
      let a ← x
      repeatOnto x n (a :: done)

def times {α : Type} (n : Nat) (x : Reader α) : Reader (List α) := repeatOnto x n []

/-- Reads the same thing a number of times, and puts what is read into a collection as it comes. -/
def collectOnto {α γ : Type} (C : Collector α γ) (x : Reader α) : Nat → C.State → Reader γ
  | 0, state => pure (C.finish state)
  | n + 1, state => do
      let a ← x
      collectOnto C x n (C.take state a)

def collect {α γ : Type} (C : Collector α γ) (x : Reader α) (n : Nat) : Reader γ :=
  collectOnto C x n C.start

def each {α β : Type} (read : α → Reader β) : List α → Reader (List β)
  | [] => pure []
  | a :: as => do
      let b ← read a
      let bs ← each read as
      pure (b :: bs)

def required (fault : TypeFault) (pointer : Reader (Option Value)) : Reader Value := do
  match ← pointer with
  | some v => pure v
  | none => throw (.type fault)

def optionOf (pointer : Reader (Option Value)) : Reader Value := do
  match ← pointer with
  | some v => pure (.present v)
  | none => pure .absent

def sharedValue (target : Ty) (read : Ty → Reader Value) : Reader (Option Value) := do
  pure ((← shared target read).map fun object => .shared object.id object.type object.body)

def uniqueValue (target : Ty) (read : Ty → Reader Value) : Reader (Option Value) := do
  pure ((← unique target read).map fun (type, body) => .unique type body)

/-! ## Sequences -/

def decodeVec {α : Type} (x : Reader α) : Reader (List α) := do
  let count ← arrayHeader
  times count x

def decodeSeq {α γ : Type} (C : Collector α γ) (x : Reader α) : Reader γ := do
  let count ← arrayHeader
  collect C x count

def pair {κ ν : Type} (key : Reader κ) (value : Reader ν) : Reader (κ × ν) := do
  arrayHeaderOf 2
  let k ← key
  let v ← value
  pure (k, v)

def decodePairs {κ ν γ : Type} (C : Collector (κ × ν) γ) (key : Reader κ) (value : Reader ν) :
    Reader γ := do
  let count ← arrayHeader
  collect C (pair key value) count

def decodeArray {α : Type} (n : Nat) (x : Reader α) : Reader (List α) := do
  arrayHeaderOf n
  let items ← times n x
  unless items.length = n do throw (.countMismatch n items.length)
  pure items

end Reader

open Reader

/-- Reads a field by its function, given how to read values and the fields of structs. -/
def decodeField (Γ : Schema) (value fields : Ty → Reader Value) (σ : List (String × Ty)) :
    FieldReader Ty → Reader Value
  | .value t => value (t.subst σ)
  | .fields t => fields (t.subst σ)
  | .rule path t =>
      match Γ.rule? path with
      | some codec => codec.read
      | none => unreadable t

/-- Reads the fields of a struct without a header, given how to read values. The fuel bounds the
depth of bases. -/
def decodeFieldList (Γ : Schema) (value : Ty → Reader Value) : Nat → Ty → Reader Value
  | fuel + 1, .named name args =>
      match Γ.reader? name with
      | some (item, ⟨some list, _⟩) =>
          Value.list <$> each
            (decodeField Γ value (decodeFieldList Γ value fuel) (Schema.arguments item args))
            list.result.parts
      | _ => unreadable (.named name args)
  | _, t => unreadable t

/-- Reads the entries of a map-framed struct into slots. A name that comes again replaces what its
slot holds. -/
def decodeEntries (struct : String) (holders : List (Holder Ty))
    (read : FieldReader Ty → Reader Value) :
    Nat → List (Option Value) → Reader (List (Option Value))
  | 0, slots => pure slots
  | n + 1, slots => do
      let key ← str
      match holders.findIdx? (·.key == key), holders.find? (·.key == key) with
      | some i, some holder =>
          let v ← read holder.reader
          decodeEntries struct holders read n (slots.set i (some v))
      | _, _ => throw (.structDecode (.unknownField key struct))

/-- The contents of the slots, all of which have to be filled. -/
def takeSlots (struct : String) : List Held → List (Option Value) → Reader (List Value)
  | held :: helds, slot :: slots =>
      match slot with
      | none => throw (.structDecode (.missingField held.key struct))
      | some v => do
          let vs ← takeSlots struct helds slots
          pure (v :: vs)
  | _, _ => pure []

def decodeDerived (Γ : Schema) (value fields : Ty → Reader Value) (t : Ty)
    (σ : List (String × Ty)) (item : Item Ty) (body : ReaderBody Ty) : Reader Value :=
  match body with
  | .fieldArray struct => do
      let count ← arrayHeader
      let expected := Γ.readFieldCount t
      if count ≠ expected then throw (.structDecode (.fieldCount struct expected count))
      fields t
  | .fieldMap struct n holders result => do
      let count ← mapHeader
      if count ≠ n then throw (.structDecode (.fieldCount struct n count))
      let slots ← decodeEntries struct holders (decodeField Γ value fields σ) count
        (holders.map fun _ => none)
      Value.list <$> takeSlots struct result.parts slots
  | .discriminant enum _ => do
      let number ← signed .w64
      match item.data with
      | .enum variants =>
          match (discriminants variants).findIdx? (fun d => number == wireDiscriminant d) with
          | some index => pure (.variant index [])
          | none => throw (.enumDecode (.discriminant number enum))
      | _ => throw (.enumDecode (.discriminant number enum))
  | .variantArray enum arms => do
      let len ← arrayHeader
      if len = 0 then throw (.type (.emptyVariant enum))
      let index ← unsigned .w32
      match arms.find? (·.index == index) with
      | some arm =>
          if len - 1 ≠ arm.count then
            throw (.enumDecode (.fieldCount enum arm.variantName arm.count (len - 1)))
          Value.variant index <$> each (decodeField Γ value fields σ) arm.result.parts
      | none => throw (.enumDecode (.variant index enum))

def decodeOptional (value : Ty → Reader Value) (inner : Ty) : Reader Value :=
  match inner with
  | .option _ => nilOr do
      arrayHeaderOf 1
      value inner
  | .shared pointee => optionOf (sharedValue pointee value)
  | .unique pointee => optionOf (uniqueValue pointee value)
  | _ => nilOr (value inner)

mutual

/-- Reads a value, given how to read the values inside of it. The parts of a tuple are read where
the tuple is. -/
def decodeStep (Γ : Schema) (value : Ty → Reader Value) (t : Ty) : Reader Value :=
  match Γ.codec? t with
  | some codec => codec.read
  | none =>
      match t with
      | .scalar s => Value.scalar <$> scalar s
      | .errorCode => Value.errorCode <$> errorCode
      | .tuple ts => do
          arrayHeaderOf ts.length
          Value.list <$> decodeParts Γ value ts
      | .array e n => Value.list <$> decodeArray n (value e)
      | .seq .slice _ => unreadable t
      | .seq .linked e => Value.list <$> decodeSeq .list (value e)
      -- a deque is what a vector is turned into
      | .seq .vector e | .seq .deque e => Value.list <$> decodeVec (value e)
      | .set kind e => Value.list <$> decodeSeq (.set kind (Γ.order e)) (value e)
      | .map kind k u => do
          let entries ← decodePairs (.map kind (Γ.order k)) (value k) (value u)
          pure (.list (entries.map .ofPair))
      | .option inner => decodeOptional value inner
      | .shared pointee => required .nullShared (sharedValue pointee value)
      | .unique pointee => required .nullUnique (uniqueValue pointee value)
      | .named name args =>
          match Γ.reader? name with
          | some (item, code) =>
              decodeDerived Γ value (decodeFieldList Γ value Schema.baseDepth) t
                (Schema.arguments item args) item code.body
          | none => unreadable t
      | .ref _ | .dyn _ | .param _ => unreadable t

def decodeParts (Γ : Schema) (value : Ty → Reader Value) : List Ty → Reader (List Value)
  | [] => pure []
  | t :: ts => do
      let v ← decodeStep Γ value t
      let vs ← decodeParts Γ value ts
      pure (v :: vs)

end

/-- Reads a value with a bound on the depth of nesting. -/
def decodeWithin (Γ : Schema) : Nat → Ty → Reader Value
  | 0, _ => throw .tooDeep
  | depth + 1, t => decodeStep Γ (decodeWithin Γ depth) t

def depthBound (remaining : Nat) : Nat := 2 * (remaining + 1)

def decode (Γ : Schema) (t : Ty) : Reader Value := do
  decodeWithin Γ (depthBound (← remaining)) t

def decodeFields (Γ : Schema) (t : Ty) : Reader Value := do
  decodeFieldList Γ (decodeWithin Γ (depthBound (← remaining))) Schema.baseDepth t

/-- Reads a value with the default context: most significant byte first, and no types known. -/
def decodeBytes (Γ : Schema) (t : Ty) (bytes : ByteArray) : Except StreamError Value :=
  match decode Γ t (.ofBytes .standard bytes 0 none) with
  | .ok v _ => .ok v
  | .error e _ => .error e

end ObjectStream
