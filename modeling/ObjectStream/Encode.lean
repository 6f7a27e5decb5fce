import ObjectStream.Schema
import ObjectStream.Writer.Scalar

/-!
# Writing values

The value of any type, by recursion on the value. A sequence or a set is an
array of its elements, a map an array of pairs, a tuple or a fixed array an array
of its parts. An absent option is nil, or the null pointer where a pointer is
missing. A present one is written as what it holds, with a frame of its own if
that is an option again, so that an absent value inside a present one can be told
from an absent one. A declared type is written by its generated code or by its
own writer.
-/

namespace ObjectStream

def illTyped (t : Ty) : Writer Unit := throw (.illTyped t)

def encodeAbsent (t : Ty) : Writer Unit := if t.isPointer then Writer.nullPointer else Writer.nil

def encodeKey (key : Option String) : Writer Unit :=
  match key with
  | some key => Writer.str key
  | none => pure ()

/-- Whether an object of concrete type `type` can be behind a pointer to `pointee`: it is of that
very type, or the pointee is an interface. -/
def canPoint (pointee type : Ty) : Bool :=
  match pointee with
  | .dyn _ => true
  | _ => pointee == type

/-- The type that is asked how a value is written. References are passed through, and where the
value is present also those within an option; one that stands for an absent value says nothing of
its target. -/
def Ty.asked (t : Ty) : Value → Ty
  | .present _ =>
      match t.deref with
      | .option inner => .option inner.deref
      | t => t
  | _ => t.deref

mutual

def encode (Γ : Schema) (t : Ty) (v : Value) : Writer Unit :=
  match Γ.codec? (t.asked v) with
  | some codec => codec.write v
  | none =>
      match v with
      | .scalar d =>
          match t.deref with
          | .scalar s => Writer.scalar s d
          | _ => illTyped t
      | .errorCode code =>
          match t.deref with
          | .errorCode => Writer.errorCode code
          | _ => illTyped t
      | .list vs =>
          match t.deref with
          | .tuple ts =>
              if vs.length = ts.length then do
                Writer.arrayHeader ts.length
                encodeParts Γ ts vs
              else illTyped t
          | .array e n =>
              if vs.length = n then do
                Writer.arrayHeader n
                encodeEach Γ e vs
              else illTyped t
          | .seq _ e | .set _ e => do
              Writer.arrayHeader vs.length
              encodeEach Γ e vs
          | .map _ k u => do
              Writer.arrayHeader vs.length
              encodeEach Γ (.tuple [k, u]) vs
          | .named name args =>
              match Γ.writer? name with
              | some (item, ⟨some list, .fieldArray⟩) => do
                  Writer.objectHeader (Γ.writtenFieldCount t.deref)
                  encodeSteps Γ (Schema.arguments item args) list.steps vs
              | some (item, ⟨_, .fieldMap count entries⟩) => do
                  Writer.mapHeader count
                  encodeSteps Γ (Schema.arguments item args) entries vs
              | _ => illTyped t
          | _ => illTyped t
      | .absent =>
          match t.deref with
          | .option inner => encodeAbsent inner
          | _ => illTyped t
      | .present v =>
          match t.deref with
          | .option inner => do
              if inner.deref.isOption then Writer.arrayHeader 1
              encode Γ inner v
          | _ => illTyped t
      | .variant index fields =>
          match t.deref with
          | .named name args =>
              match Γ.writer? name with
              | some (⟨_, _, _, _, .enum variants, _⟩, ⟨_, .discriminant _⟩) =>
                  match (discriminants variants)[index]? with
                  | some d => Writer.int (wireDiscriminant d)
                  | none => illTyped t
              | some (item, ⟨_, .variantArray arms⟩) =>
                  match arms[index]? with
                  | some arm => do
                      Writer.arrayHeader arm.header
                      Writer.uint arm.index
                      encodeSteps Γ (Schema.arguments item args) arm.steps fields
                  | none => illTyped t
              | _ => illTyped t
          | _ => illTyped t
      | .shared id type body =>
          match t.deref with
          | .shared pointee =>
              if canPoint pointee type then Writer.shared id type (encode Γ type body)
              else illTyped t
          | _ => illTyped t
      | .unique type body =>
          match t.deref with
          | .unique pointee =>
              if canPoint pointee type then Writer.unique type (encode Γ type body)
              else illTyped t
          | _ => illTyped t

def encodeFields (Γ : Schema) (t : Ty) (v : Value) : Writer Unit :=
  match v with
  | .list vs =>
      match t with
      | .named name args =>
          match Γ.writer? name with
          | some (item, ⟨some list, _⟩) =>
              encodeSteps Γ (Schema.arguments item args) list.steps vs
          | _ => illTyped t
      | _ => illTyped t
  | _ => illTyped t

def encodeEach (Γ : Schema) (t : Ty) (vs : List Value) : Writer Unit :=
  match vs with
  | [] => pure ()
  | v :: vs => do
      encode Γ t v
      encodeEach Γ t vs

def encodeParts (Γ : Schema) (ts : List Ty) (vs : List Value) : Writer Unit :=
  match vs with
  | [] => pure ()
  | v :: vs =>
      match ts with
      | t :: ts => do
          encode Γ t v
          encodeParts Γ ts vs
      | [] => illTyped .unit

def encodeSteps (Γ : Schema) (σ : List (String × Ty)) (steps : List (WriteStep Ty))
    (vs : List Value) : Writer Unit :=
  match vs with
  | [] => if steps.isEmpty then pure () else illTyped .unit
  | v :: vs =>
      match steps with
      | step :: steps => do
          encodeKey step.key
          match step.writer with
          | .value t => encode Γ (t.subst σ) v
          | .fields t => encodeFields Γ (t.subst σ) v
          | .rule path t =>
              match Γ.rule? path with
              | some codec => codec.write v
              | none => illTyped t
          encodeSteps Γ σ steps vs
      | [] => illTyped .unit

end

end ObjectStream
