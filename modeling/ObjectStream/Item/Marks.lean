import ObjectStream.Item.Argument

/-!
# Marks of items and fields

What the attributes of an item and of a field say to the generators. An item takes `as_map`;
a field takes `base` or `with = "path"`, not both. Attributes of other paths are
passed over. The first fault in source order is the one that is reported.
-/

namespace ObjectStream

/-- The path of the attributes that the generators look at. -/
def attributePath : String := "bstream"

/-- What the attributes of an item say: whether a struct is framed as a map. -/
structure ItemMarks where
  asMap : Bool
  deriving DecidableEq, Repr

/-- What the attributes of a field say: whether its own fields stand in its place, and the path of
the rule by which it is written and read. -/
structure FieldMarks where
  base : Bool
  rule : Option String
  deriving DecidableEq, Repr

def Attribute.foldArguments {μ : Type}
    (take : μ → List String → List Lexeme → Except CompileError (μ × List Lexeme)) (known : μ)
    (a : Attribute) : Except CompileError μ := do
  let lexemes ← a.body.lexemes
  Lexeme.foldArguments take lexemes.length known lexemes

namespace ItemMarks

def take (_ : ItemMarks) : List String → List Lexeme → Except CompileError (ItemMarks × List Lexeme)
  | ["as_map"], rest => .ok (⟨true⟩, rest)
  | _, _ => .error .unknownContainerAttribute

def takeAttribute (marks : ItemMarks) (a : Attribute) :
    Except CompileError ItemMarks :=
  if a.path = attributePath then a.foldArguments take marks else .ok marks

def ofAttributes (attributes : List Attribute) : Except CompileError ItemMarks :=
  attributes.foldlM takeAttribute ⟨false⟩

end ItemMarks

namespace FieldMarks

/-- Takes one argument. A later rule takes the place of an earlier one. -/
def take (check : PathCheck) (marks : FieldMarks) :
    List String → List Lexeme → Except CompileError (FieldMarks × List Lexeme)
  | ["base"], rest => .ok ({ marks with base := true }, rest)
  | ["with"], rest => do
      let (path, rest) ← Lexeme.assigned rest
      check path
      pure ({ marks with rule := some path }, rest)
  | _, _ => .error .unknownFieldAttribute

/-- Takes an attribute, behind which the two kinds may not both be set. -/
def takeAttribute (check : PathCheck) (marks : FieldMarks) (a : Attribute) :
    Except CompileError FieldMarks :=
  if a.path = attributePath then do
    let marks ← a.foldArguments (take check) marks
    if marks.base && marks.rule.isSome then throw .baseWithRule
    pure marks
  else .ok marks

def ofAttributes (check : PathCheck) (attributes : List Attribute) :
    Except CompileError FieldMarks :=
  attributes.foldlM (takeAttribute check) ⟨false, none⟩

end FieldMarks

structure MarkedField (τ : Type) where
  member : Member
  type : τ
  marks : FieldMarks

/-- The key of a field: its name as a plain text. -/
def MarkedField.key {τ : Type} (f : MarkedField τ) : String :=
  match f.member with
  | .named name => name.name
  | .position _ => ""

/-- The fields with their marks, or the first fault among them. -/
def Fields.marked {τ : Type} (fields : Fields τ) (check : PathCheck) :
    Except CompileError (List (MarkedField τ)) :=
  fields.members.mapM fun (member, f) => do
    pure ⟨member, f.type, ← FieldMarks.ofAttributes check f.attributes⟩

def hasBase {τ : Type} (fields : List (MarkedField τ)) : Bool := fields.any (·.marks.base)

end ObjectStream
