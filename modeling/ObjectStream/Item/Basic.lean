import ObjectStream.Item.Path

/-!
# Items

The declaration of a struct, an enum or a union, as far as the generators look
at it: its name, its attributes, its generic parameters, and its fields or
variants with their types and attributes. The type of the field types is a
parameter, so that one description serves for declarations as text and for
declarations over the types of this library.
-/

namespace ObjectStream

/-- A name. A raw one is a keyword made into a name by a mark in front. -/
structure Ident where
  name : String
  isRaw : Bool
  deriving DecidableEq, Repr

namespace Ident

def plain (name : String) : Ident := ⟨name, false⟩

def text (i : Ident) : String := if i.isRaw then "r#" ++ i.name else i.name

def ofText (text : String) : Ident :=
  match text.toList with
  | 'r' :: '#' :: rest => ⟨String.ofList rest, true⟩
  | _ => ⟨text, false⟩

end Ident

/-- An argument of an attribute: a path alone, or a path to which a text is assigned. -/
inductive Argument
  | word (path : String)
  | assign (path value : String)
  deriving DecidableEq, Repr

inductive AttributeBody
  | bare
  | value (text : String)
  | list (arguments : List Argument)
  deriving DecidableEq, Repr

structure Attribute where
  path : String
  body : AttributeBody
  deriving DecidableEq, Repr

structure Field (τ : Type) where
  type : τ
  attributes : List Attribute

inductive Fields (τ : Type)
  | named (fields : List (Ident × Field τ))
  | positional (fields : List (Field τ))
  | unit

/-- How a field is named within its struct. -/
inductive Member
  | named (name : Ident)
  | position (n : Nat)
  deriving DecidableEq, Repr

namespace Fields

variable {τ : Type}

def members : Fields τ → List (Member × Field τ)
  | .named fields => fields.map fun (name, f) => (.named name, f)
  | .positional fields => fields.zipIdx.map fun (f, n) => (.position n, f)
  | .unit => []

def isUnit : Fields τ → Bool
  | .unit => true
  | _ => false

def isNamed : Fields τ → Bool
  | .named _ => true
  | _ => false

end Fields

/-- A variant of an enum. The number, if one is given, is its discriminant. -/
structure Variant (τ : Type) where
  name : Ident
  fields : Fields τ
  attributes : List Attribute
  discriminant : Option Int

inductive ItemData (τ : Type)
  | struct (fields : Fields τ)
  | enum (variants : List (Variant τ))
  | union (fields : Fields τ)

/-- A generic parameter. Bounds and the type of a constant are text. -/
inductive GenericParam
  | lifetime (name : String) (bounds : String)
  | type (name : String) (bounds : String)
  | const (name : String) (type : String)
  deriving DecidableEq, Repr

def GenericParam.isLifetime : GenericParam → Bool
  | .lifetime .. => true
  | _ => false

/-- A declaration, and the check of the paths in its attributes. -/
structure Item (τ : Type) where
  name : Ident
  attributes : List Attribute
  generics : List GenericParam
  whereClause : String
  data : ItemData τ
  checkPath : PathCheck := Path.validate

namespace Item

variable {τ : Type}

def typeParams (item : Item τ) : List String :=
  item.generics.filterMap fun
    | .type name _ => some name
    | _ => none

end Item

def allBare {τ : Type} (variants : List (Variant τ)) : Bool := variants.all (·.fields.isUnit)

/-- The discriminants of variants from a first one on: each is the one given, or one more than the
discriminant before it. -/
def discriminantsFrom {τ : Type} (next : Int) : List (Variant τ) → List Int
  | [] => []
  | v :: vs =>
      let d := v.discriminant.getD next
      d :: discriminantsFrom (d + 1) vs

def discriminants {τ : Type} (variants : List (Variant τ)) : List Int :=
  discriminantsFrom 0 variants

end ObjectStream
