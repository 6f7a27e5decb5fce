import ObjectStream.KeyOrder

/-!
# Collections

A collection is made of elements that come one by one: it starts out empty, takes
an element at a time, and is what it is when the last one has come. A table takes
an element to its place, and if the place is taken it makes one element of the two.
What that is depends on the kind of table. A table that is ordered by its keys is
built at once from elements that are sorted, and of those with one key the last one
stays; other tables keep the key that they have. The value of an entry is always the
last one that came.
-/

namespace ObjectStream

open Std

/-- How a collection is made of elements that come one after the other. -/
structure Collector (α γ : Type) where
  State : Type
  start : State
  take : State → α → State
  finish : State → γ

namespace Collector

variable {α γ : Type}

def ofList (C : Collector α γ) (xs : List α) : γ := C.finish (xs.foldl C.take C.start)

def list : Collector α (List α) := ⟨List α, [], fun done a => a :: done, List.reverse⟩

end Collector

/-- How the elements of a table compare, and what becomes of one in the table and a new one that
compares equal. -/
structure TableRule (α : Type) where
  compare : α → α → Ordering
  merge : α → α → α
  lawful : TransCmp compare
  merge_eq : ∀ old new, compare old new = .eq → compare (merge old new) new = .eq

instance {α : Type} (R : TableRule α) : TransCmp R.compare := R.lawful

namespace TableKind

/-- Whether a table lists its elements in the order of their keys. A hashed table has no order of
its own, and is listed in that of the keys too. -/
def isSorted : TableKind → Bool
  | .indexed => false
  | _ => true

/-- Which of two equal keys a table keeps. -/
def keep (kind : TableKind) (old new : Value) : Value :=
  match kind with
  | .ordered => new
  | .hashed | .fastHashed | .indexed => old

theorem keep_eq (kind : TableKind) (o : KeyOrder) {old new : Value}
    (h : o.compare old new = .eq) : o.compare (kind.keep old new) new = .eq := by
  cases kind with
  | ordered => exact ReflCmp.compare_self
  | hashed | fastHashed | indexed => exact h

end TableKind

namespace TableRule

def ofSet (kind : TableKind) (o : KeyOrder) : TableRule Value where
  compare := o.compare
  merge := kind.keep
  lawful := o.lawful
  merge_eq _ _ h := kind.keep_eq o h

/-- The entries of a map compare by their keys, and the new value takes the place of the old. -/
def ofMap (kind : TableKind) (o : KeyOrder) : TableRule (Value × Value) where
  compare p q := o.compare p.1 q.1
  merge old new := (kind.keep old.1 new.1, new.2)
  lawful := {
    eq_swap := OrientedCmp.eq_swap
    isLE_trans := TransCmp.isLE_trans }
  merge_eq _ _ h := kind.keep_eq o h

end TableRule

/-! ## Tables

While elements come a table is held from its end to its start, so that elements which
are in order already go to the front. -/

namespace Table

variable {α : Type} (R : TableRule α)

/-- Puts an element behind the last one that is less, or makes one of it and its equal. -/
def insertSorted (x : α) : List α → List α
  | [] => [x]
  | y :: ys =>
      match R.compare x y with
      | .gt => x :: y :: ys
      | .eq => R.merge y x :: ys
      | .lt => y :: insertSorted x ys

def mergeInto (x : α) : List α → Option (List α)
  | [] => none
  | y :: ys =>
      if R.compare x y = .eq then some (R.merge y x :: ys)
      else (mergeInto x ys).map (y :: ·)

/-- Puts an element behind all others, or makes one of it and its equal. -/
def insertLast (x : α) (table : List α) : List α := (mergeInto R x table).getD (x :: table)

def insert (kind : TableKind) (table : List α) (x : α) : List α :=
  if kind.isSorted then insertSorted R x table else insertLast R x table

def collector (kind : TableKind) : Collector α (List α) := ⟨List α, [], insert R kind, List.reverse⟩

end Table

namespace Collector

def set (kind : TableKind) (o : KeyOrder) : Collector Value (List Value) :=
  Table.collector (.ofSet kind o) kind

def map (kind : TableKind) (o : KeyOrder) : Collector (Value × Value) (List (Value × Value)) :=
  Table.collector (.ofMap kind o) kind

end Collector

namespace Table

/-- The set of some values, as keys without an order of their own. -/
def set (kind : TableKind) (vs : List Value) : List Value :=
  (Collector.set kind .structural).ofList vs

def map (kind : TableKind) (entries : List Value) : List Value :=
  ((Collector.map kind .structural).ofList (entries.map Value.toPair)).map .ofPair

end Table

end ObjectStream
