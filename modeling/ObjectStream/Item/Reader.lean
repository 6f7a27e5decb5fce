import ObjectStream.Item.Marks

/-!
# Generated readers

From an item, the code that reads its values. As in the generated writer, the
code is a small tree: which header is expected, by which function each field is
read, and how the value is put together.
-/

namespace ObjectStream

/-- The function by which a field of a type is read: that of its type, that for its type's fields,
or that of a rule. -/
inductive FieldReader (τ : Type)
  | value (type : τ)
  | fields (type : τ)
  | rule (path : String) (type : τ)

/-- The count of the wire elements of a field: one, or those of a base. -/
inductive ReadCount (τ : Type)
  | one
  | fieldsOf (type : τ)

inductive Construction (ε : Type)
  | named (parts : List (Ident × ε))
  | positional (parts : List ε)
  | unit

namespace Construction

variable {ε : Type}

def parts : Construction ε → List ε
  | .named parts => parts.map Prod.snd
  | .positional parts => parts
  | .unit => []

end Construction

/-- The fields of a struct without a header. -/
structure FieldListReader (τ : Type) where
  counts : List (ReadCount τ)
  result : Construction (FieldReader τ)

/-- A slot that holds a field of a map until all entries are read. -/
structure Holder (τ : Type) where
  slot : String
  key : String
  type : τ
  reader : FieldReader τ

/-- The content of a slot, which has to be there. -/
structure Held where
  slot : String
  key : String
  deriving DecidableEq, Repr

/-- The reading of one variant: its place, the number of its fields, and the value. -/
structure ReadArm (τ : Type) where
  variant : Ident
  variantName : String
  index : Nat
  count : Nat
  result : Construction (FieldReader τ)

inductive ReaderBody (τ : Type)
  /-- An array of the fields, counted and read by the field list. -/
  | fieldArray (struct : String)
  /-- A map from names to fields, in any order. -/
  | fieldMap (struct : String) (count : Nat) (holders : List (Holder τ))
      (result : Construction Held)
  /-- The discriminant alone. -/
  | discriminant (enum : String) (variants : List Ident)
  /-- An array of the variant's place and its fields. -/
  | variantArray (enum : String) (arms : List (ReadArm τ))

structure ReaderCode (τ : Type) where
  fieldList : Option (FieldListReader τ)
  body : ReaderBody τ

namespace MarkedField

variable {τ : Type}

def reader (f : MarkedField τ) : FieldReader τ :=
  if f.marks.base then .fields f.type
  else match f.marks.rule with
    | some path => .rule path f.type
    | none => .value f.type

def readCount (f : MarkedField τ) : ReadCount τ :=
  if f.marks.base then .fieldsOf f.type else .one

def holder (f : MarkedField τ) : Holder τ :=
  ⟨"__bstream_" ++ f.key, f.key, f.type, f.reader⟩

def held (f : MarkedField τ) : Held := ⟨"__bstream_" ++ f.key, f.key⟩

end MarkedField

namespace Fields

variable {τ ε : Type}

def assemble (fields : Fields τ) (parts : List ε) : Construction ε :=
  match fields with
  | .named fields => .named ((fields.map Prod.fst).zip parts)
  | .positional _ => .positional parts
  | .unit => .unit

end Fields

namespace Item

variable {τ : Type}

def readArm (check : PathCheck) (v : Variant τ) (index : Nat) :
    Except CompileError (ReadArm τ) := do
  let fields ← v.fields.marked check
  if hasBase fields then throw .baseInVariant
  pure
    { variant := v.name
      variantName := v.name.name
      index := index
      count := fields.length
      result := v.fields.assemble (fields.map MarkedField.reader) }

def structReader (name : String) (marks : ItemMarks) (fields : Fields τ)
    (marked : List (MarkedField τ)) : Except CompileError (ReaderBody τ) :=
  if marks.asMap then
    if !fields.isNamed then .error .mapNeedsNames
    else if hasBase marked then .error .baseInMap
    else .ok (.fieldMap name marked.length (marked.map MarkedField.holder)
      (fields.assemble (marked.map MarkedField.held)))
  else .ok (.fieldArray name)

def readerCode (item : Item τ) : Except CompileError (ReaderCode τ) := do
  let marks ← ItemMarks.ofAttributes item.attributes
  match item.data with
  | .struct fields =>
      let marked ← fields.marked item.checkPath
      let body ← structReader item.name.name marks fields marked
      pure ⟨some ⟨marked.map MarkedField.readCount,
        fields.assemble (marked.map MarkedField.reader)⟩, body⟩
  | .enum variants =>
      if allBare variants then
        pure ⟨none, .discriminant item.name.name (variants.map Variant.name)⟩
      else
        let arms ← variants.zipIdx.mapM fun (v, index) => readArm item.checkPath v index
        pure ⟨none, .variantArray item.name.name arms⟩
  | .union _ => throw .union

end Item

end ObjectStream
