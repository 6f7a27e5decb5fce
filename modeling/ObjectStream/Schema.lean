import ObjectStream.Item.Writer
import ObjectStream.Item.Reader
import ObjectStream.Writer.Pointer
import ObjectStream.Reader.Pointer
import ObjectStream.Collection

/-!
# Schemas

A schema says what the declared types are. A type is either derived from an
item, and then written and read by the code generated from it, or it comes with
a writer and a reader of its own. The rules that fields can name are pairs of a
writer and a reader too. A type of keys comes with an order.
-/

namespace ObjectStream

/-- A way of writing and reading values. -/
structure Codec where
  write : Value → Writer Unit
  read : Reader Value

/-- How a type has its options written and read. -/
structure OptionHooks where
  writeNone : Writer Unit
  writeSome : Value → Writer Unit
  readOption : Reader Value

/-- The hooks of a type that leaves them as they are: nil is written for what is absent, and what is
present is written as it is by itself. -/
def Codec.hooks (codec : Codec) : OptionHooks := ⟨Writer.nil, codec.write, Reader.nilOr codec.read⟩

def OptionHooks.codec (hooks : OptionHooks) : Codec where
  write
    | .absent => hooks.writeNone
    | .present v => hooks.writeSome v
    | _ => throw (.illTyped (.option .unit))
  read := hooks.readOption

inductive Declaration
  | derived (item : Item Ty)
  | custom (codec : Codec) (hooks : OptionHooks)

/-- The declared types by path, the field rules by path, and the orders of keys by type. -/
structure Schema where
  types : List (String × Declaration)
  rules : List (String × Codec)
  order : Ty → KeyOrder := fun _ => .structural

namespace Schema

def item? (Γ : Schema) (name : String) : Option (Item Ty) :=
  match Γ.types.lookup name with
  | some (.derived item) => some item
  | _ => none

/-- The writer and reader that a type comes with, or that its content has for options of it. -/
def codec? (Γ : Schema) : Ty → Option Codec
  | .named name _ =>
      match Γ.types.lookup name with
      | some (.custom codec _) => some codec
      | _ => none
  | .option (.named name _) =>
      match Γ.types.lookup name with
      | some (.custom _ hooks) => some hooks.codec
      | _ => none
  | _ => none

def rule? (Γ : Schema) (path : String) : Option Codec := Γ.rules.lookup path

def writer? (Γ : Schema) (name : String) : Option (Item Ty × WriterCode Ty) :=
  match Γ.item? name with
  | some item => item.writerCode.toOption.map fun code => (item, code)
  | none => none

def reader? (Γ : Schema) (name : String) : Option (Item Ty × ReaderCode Ty) :=
  match Γ.item? name with
  | some item => item.readerCode.toOption.map fun code => (item, code)
  | none => none

/-- The arguments of a type by the names of its item's parameters. -/
def arguments (item : Item Ty) (arguments : List Ty) : List (String × Ty) :=
  item.typeParams.zip arguments

/-! ## Field counts -/

/-- The number of wire elements that a struct's fields take when written. The fuel bounds the depth
of bases. -/
def writtenFields (Γ : Schema) : Nat → Ty → Nat
  | fuel + 1, .named name args =>
      match Γ.writer? name with
      | some (item, ⟨some list, _⟩) =>
          let counts := list.counts.map fun
            | .one => 1
            | .fieldsOf t => writtenFields Γ fuel (t.subst (arguments item args))
          counts.foldr (· + ·) 0
      | _ => 0
  | _, _ => 0

def readFields (Γ : Schema) : Nat → Ty → Nat
  | fuel + 1, .named name args =>
      match Γ.reader? name with
      | some (item, ⟨some list, _⟩) =>
          let counts := list.counts.map fun
            | .one => 1
            | .fieldsOf t => readFields Γ fuel (t.subst (arguments item args))
          counts.foldr (· + ·) 0
      | _ => 0
  | _, _ => 0

/-- A bound on the depth of bases. No struct is a base of itself, and no compiler goes so deep. -/
def baseDepth : Nat := 2 ^ 32

def writtenFieldCount (Γ : Schema) (t : Ty) : Nat := Γ.writtenFields baseDepth t

def readFieldCount (Γ : Schema) (t : Ty) : Nat := Γ.readFields baseDepth t

end Schema

/-- The number by which a variant travels: its discriminant as a signed number of 64 bits. -/
def wireDiscriminant (d : Int) : Int := Int.bmod d (2 ^ 64)

end ObjectStream
