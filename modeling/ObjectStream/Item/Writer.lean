import ObjectStream.Item.Marks

/-!
# Generated writers

From an item, the code that writes its values. The code is a small tree: which
header is written, and for each field by which function the field is written.
A struct gets the list of its fields as well, with the count of the wire
elements that they take, so that another struct can have it for a base.
-/

namespace ObjectStream

/-- Where the value of a field is found: a member of the struct, or what a pattern bound. -/
inductive Access
  | member (m : Member)
  | binding (n : Nat)
  deriving DecidableEq, Repr

/-- The function by which a field of a type is written: that of its type, that for its type's
fields, or that of a rule. -/
inductive FieldWriter (τ : Type)
  | value (type : τ)
  | fields (type : τ)
  | rule (path : String) (type : τ)

/-- One field written, behind its key if it has one. -/
structure WriteStep (τ : Type) where
  key : Option String
  access : Access
  writer : FieldWriter τ

inductive CountTerm (τ : Type)
  | one
  | fieldsOf (type : τ)

structure FieldListWriter (τ : Type) where
  counts : List (CountTerm τ)
  steps : List (WriteStep τ)

inductive Pattern
  | named (names : List Ident)
  | positional (count : Nat)
  | unit
  deriving DecidableEq, Repr

/-- The writing of one variant: the header, the variant's place, and its fields. -/
structure WriteArm (τ : Type) where
  variant : Ident
  pattern : Pattern
  header : Nat
  index : Nat
  steps : List (WriteStep τ)

inductive WriterBody (τ : Type)
  /-- An array of the fields, counted and written by the field list. -/
  | fieldArray
  /-- A map from names to fields. -/
  | fieldMap (count : Nat) (entries : List (WriteStep τ))
  /-- The discriminant alone. -/
  | discriminant (variants : List Ident)
  /-- An array of the variant's place and its fields. -/
  | variantArray (arms : List (WriteArm τ))

structure WriterCode (τ : Type) where
  fieldList : Option (FieldListWriter τ)
  body : WriterBody τ

namespace MarkedField

variable {τ : Type}

def writer (f : MarkedField τ) : FieldWriter τ :=
  if f.marks.base then .fields f.type
  else match f.marks.rule with
    | some path => .rule path f.type
    | none => .value f.type

def writeCount (f : MarkedField τ) : CountTerm τ :=
  if f.marks.base then .fieldsOf f.type else .one

def memberStep (f : MarkedField τ) : WriteStep τ := ⟨none, .member f.member, f.writer⟩

def entryStep (f : MarkedField τ) : WriteStep τ := ⟨some f.key, .member f.member, f.writer⟩

end MarkedField

namespace Fields

variable {τ : Type}

def pattern : Fields τ → Pattern
  | .named fields => .named (fields.map Prod.fst)
  | .positional fields => .positional fields.length
  | .unit => .unit

end Fields

namespace Item

variable {τ : Type}

def writeArm (check : PathCheck) (v : Variant τ) (index : Nat) :
    Except CompileError (WriteArm τ) := do
  let fields ← v.fields.marked check
  if hasBase fields then throw .baseInVariant
  pure
    { variant := v.name
      pattern := v.fields.pattern
      header := 1 + fields.length
      index := index
      steps := fields.zipIdx.map fun (f, n) => ⟨none, .binding n, f.writer⟩ }

def structWriter (marks : ItemMarks) (fields : Fields τ)
    (marked : List (MarkedField τ)) : Except CompileError (WriterBody τ) :=
  if marks.asMap then
    if !fields.isNamed then .error .mapNeedsNames
    else if hasBase marked then .error .baseInMap
    else .ok (.fieldMap marked.length (marked.map MarkedField.entryStep))
  else .ok .fieldArray

def writerCode (item : Item τ) : Except CompileError (WriterCode τ) := do
  let marks ← ItemMarks.ofAttributes item.attributes
  match item.data with
  | .struct fields =>
      let marked ← fields.marked item.checkPath
      let body ← structWriter marks fields marked
      pure ⟨some ⟨marked.map MarkedField.writeCount, marked.map MarkedField.memberStep⟩, body⟩
  | .enum variants =>
      if allBare variants then
        pure ⟨none, .discriminant (variants.map Variant.name)⟩
      else
        let arms ← variants.zipIdx.mapM fun (v, index) => writeArm item.checkPath v index
        pure ⟨none, .variantArray arms⟩
  | .union _ => throw .union

end Item

end ObjectStream
