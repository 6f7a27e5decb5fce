import ObjectStream.ErrorCategory.System

/-!
# Error categories and error codes

An error code is a number qualified by the category that gives it meaning. Two
codes are the same when their numbers and the names of their categories are, so
a category is known by its name alone. On the wire the category travels as its
place in an index, which both ends must have built alike. The index holds no
name twice: adding a category whose name is known changes nothing.
-/

namespace ObjectStream

/-- How a category words a number: behind a label, or as the operating system does. -/
inductive Wording
  | labelled (label : String)
  | operatingSystem
  deriving DecidableEq, Repr

/-- A source of error numbers. -/
structure ErrorCategory where
  name : String
  wording : Wording
  deriving DecidableEq, Repr

namespace ErrorCategory

def generic : ErrorCategory := ⟨"generic", .labelled "generic error"⟩

def system : ErrorCategory := ⟨"system", .operatingSystem⟩

def message (category : ErrorCategory) (number : Int) : String :=
  match category.wording with
  | .labelled label => s!"{label} {number}"
  | .operatingSystem => systemMessage number ++ s!" (os error {number})"

end ErrorCategory

structure ErrorCode where
  category : ErrorCategory
  value : Int
  deriving DecidableEq, Repr

namespace ErrorCode

/-- Two codes name the same error: the same number under the same name. -/
def same (a b : ErrorCode) : Bool :=
  a.value == b.value && a.category.name == b.category.name

def message (code : ErrorCode) : String := code.category.message code.value

def display (code : ErrorCode) : String :=
  s!"{code.category.name}:{code.value} ({code.message})"

def summary (code : ErrorCode) : String :=
  "ErrorCode \x7b category: " ++ code.category.name.quote ++ ", value: " ++
    toString code.value ++ " \x7d"

def ofSystem (number : Int) : ErrorCode := ⟨.system, number⟩

/-- The operating system's number of a code, if its category goes by the system's name. -/
def systemNumber? (code : ErrorCode) : Option Int :=
  if code.category.name == ErrorCategory.system.name then some code.value else none

end ErrorCode

/-- The categories that a stream can name, by place. -/
structure CategoryIndex where
  categories : List ErrorCategory
  deriving DecidableEq, Repr

namespace CategoryIndex

def empty : CategoryIndex := ⟨[]⟩

/-- How many categories stand in front of the first of that name. -/
def before? (index : CategoryIndex) (name : String) : Option Nat :=
  index.categories.findIdx? (·.name == name)

/-- The place of the first category of that name, as far as 32 bits hold it. -/
def placeOf? (index : CategoryIndex) (name : String) : Option Nat :=
  (index.before? name).map (· % 2 ^ 32)

def category? (index : CategoryIndex) (place : Nat) : Option ErrorCategory :=
  index.categories[place]?

/-- Adds a category at the end, unless its name is known; the second component is its place. -/
def add (index : CategoryIndex) (category : ErrorCategory) : CategoryIndex × Nat :=
  match index.placeOf? category.name with
  | some place => (index, place)
  | none => (⟨index.categories ++ [category]⟩, index.categories.length % 2 ^ 32)

def standard : CategoryIndex := ((empty.add .generic).1.add .system).1

def size (index : CategoryIndex) : Nat := index.categories.length

def listing (index : CategoryIndex) : String :=
  "[" ++ ", ".intercalate (index.categories.map (·.name.quote)) ++ "]"

end CategoryIndex

end ObjectStream
