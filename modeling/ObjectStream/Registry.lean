import ObjectStream.Value

/-!
# Type registry

A pointer is written as the tag of its object's concrete type and the object.
The registry assigns tags to types on the way out, and on the way in says what
a tag stands for: which type to read, and how the object becomes one that the
pointer can hold. There is a map for each direction, and a step of the setup fails
before it changes any of them, so that each type has at most one tag and each tag at
most one type. Tag zero, which stands for the null pointer, is never assigned.
-/

namespace ObjectStream

def nullTag : TypeTag := 0

/-- How an object of one type becomes an object behind a pointer to another: a value of type
`source` is read, and converted to one of the concrete type `result`. -/
structure Upcast where
  source : Ty
  result : Ty
  convert : Value → Value

namespace Upcast

def plain (t : Ty) : Upcast := ⟨t, t, id⟩

end Upcast

/-- What is known of types: the tags of types, the types that tags stand for, and how objects with a
tag become pointees of a target. Each is a map, as the list of its entries. -/
structure Registry where
  tags : List (Ty × TypeTag)
  names : List (TypeTag × Ty)
  constructors : List ((TypeTag × Ty) × Upcast)

/-- What sets up a registry. If it fails, there still is a registry behind it. -/
abbrev Setup (α : Type) := EStateM StreamError Registry α

namespace Registry

def empty : Registry := ⟨[], [], []⟩

def tag? (r : Registry) (t : Ty) : Option TypeTag := r.tags.lookup t

def holder? (r : Registry) (tag : TypeTag) : Option Ty := r.names.lookup tag

def name? (r : Registry) (tag : TypeTag) : Option String := (r.holder? tag).map Ty.fullName

def contains (r : Registry) (tag : TypeTag) : Bool := (r.holder? tag).isSome

def size (r : Registry) : Nat := r.names.length

def requireTag (r : Registry) (t : Ty) : Except StreamError TypeTag :=
  match r.tag? t with
  | some tag => .ok tag
  | none => .error (.unregisteredType (.type t))

/-- How an object with this tag becomes a pointee of type `target`. -/
def upcast? (r : Registry) (tag : TypeTag) (target : Ty) : Option Upcast :=
  r.constructors.lookup (tag, target)

def put {κ ν : Type} [BEq κ] (key : κ) (value : ν) (entries : List (κ × ν)) : List (κ × ν) :=
  (key, value) :: entries.filter (·.1 != key)

def withTag (r : Registry) (t : Ty) (tag : TypeTag) : Registry :=
  { r with tags := put t tag r.tags, names := put tag t r.names }

/-- A constructor of pointees of type `target` from the objects with a tag. -/
def withUpcast (r : Registry) (tag : TypeTag) (target : Ty) (upcast : Upcast) : Registry :=
  { r with constructors := put (tag, target) upcast r.constructors }

/-- A type with a tag, whose objects are pointees of pointers to the type itself. -/
def enter (r : Registry) (t : Ty) (tag : TypeTag) : Registry :=
  (r.withTag t tag).withUpcast tag t (.plain t)

section Put

variable {κ ν : Type} [BEq κ] [LawfulBEq κ] (key : κ) (value : ν) (entries : List (κ × ν))

theorem lookup_put (k : κ) :
    (put key value entries).lookup k = if k == key then some value else entries.lookup k := by
  have hfilter (h : (k == key) = false) :
      (entries.filter (·.1 != key)).lookup k = entries.lookup k := by
    induction entries with
    | nil => rfl
    | cons e es ih =>
        cases he : e.1 == key with
        | true =>
            have hk : (k == e.1) = false := by rwa [eq_of_beq he]
            rw [List.filter_cons_of_neg (by simp [bne, he]), ih, List.lookup_cons, hk]
        | false =>
            rw [List.filter_cons_of_pos (by simp [bne, he]), List.lookup_cons, ih,
              List.lookup_cons]
  rw [put, List.lookup_cons]
  cases h : k == key with
  | true => rfl
  | false => exact hfilter h

/-- Each key has one entry. -/
theorem nodup_put (h : (entries.map Prod.fst).Nodup) :
    ((put key value entries).map Prod.fst).Nodup := by
  rw [put, List.map_cons, List.nodup_cons]
  refine ⟨fun hmem => ?_, h.sublist (List.filter_sublist.map Prod.fst)⟩
  obtain ⟨e, he, hkey⟩ := List.mem_map.1 hmem
  have hother := (List.mem_filter.1 he).2
  rw [hkey, bne_self_eq_false] at hother
  cases hother

end Put

section

variable (r : Registry) (t u : Ty) (tag tag' : TypeTag)

@[simp] theorem tag?_enter :
    (r.enter t tag).tag? u = if u == t then some tag else r.tag? u := lookup_put t tag r.tags u

@[simp] theorem holder?_enter :
    (r.enter t tag).holder? tag' = if tag' == tag then some t else r.holder? tag' :=
  lookup_put tag t r.names tag'

@[simp] theorem upcast?_withUpcast (target : Ty) (upcast : Upcast) :
    (r.withUpcast tag t upcast).upcast? tag' target =
      if (tag', target) == (tag, t) then some upcast else r.upcast? tag' target :=
  lookup_put (tag, t) upcast r.constructors (tag', target)

@[simp] theorem upcast?_enter (target : Ty) :
    (r.enter t tag).upcast? tag' target =
      if (tag', target) == (tag, t) then some (.plain t) else r.upcast? tag' target :=
  upcast?_withUpcast (r.withTag t tag) t tag tag' target (.plain t)

end

/-- Assigns a tag to a type and makes its objects pointees of pointers to the type itself. -/
def assign (t : Ty) (tag : TypeTag) : Setup Unit := do
  let r ← get
  if tag = nullTag then throw (.invalidArgument (.reservedTag tag))
  else match r.holder? tag with
    | some holder => throw (.invalidArgument (.tagTaken tag holder))
    | none =>
        match r.tag? t with
        | some held => throw (.invalidArgument (.typeTaken t held))
        | none => modify (·.enter t tag)

/-- Lets pointers to `target` hold objects of a registered type, and returns the tag of these. A
later upcast of the same type to the same target takes the place of an earlier one. -/
def addUpcast (target : Ty) (upcast : Upcast) : Setup TypeTag := do
  let r ← get
  match r.tag? upcast.source with
  | some tag =>
      modify (·.withUpcast tag target upcast)
      pure tag
  | none => throw (.unregisteredType (.type upcast.source))

/-- The registered tags in increasing order, each with its type. -/
def byTag (r : Registry) : List (TypeTag × Ty) :=
  r.names.mergeSort fun a b => a.1 ≤ b.1

def listing (r : Registry) : String :=
  "\x7b" ++ ", ".intercalate
    (r.byTag.map fun (tag, t) => s!"TypeTag({tag}): " ++ t.fullName.quote) ++ "\x7d"

end Registry

end ObjectStream
