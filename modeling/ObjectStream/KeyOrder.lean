import ObjectStream.Value

/-!
# The order of keys

The keys of a table are ordered, and two of them are the same to the table if they
compare equal. A type of keys may come with an order of its own. Otherwise keys are
ordered by their sorts first and by what they hold then. That order is oriented and
transitive: what two comparisons say together about a third one is kept when
comparisons are made one after the other, so it holds of lists of keys because it
holds of their parts.
-/

namespace ObjectStream

open Std

def Datum.rank : Datum → Nat
  | .bool _ => 0
  | .int _ => 1
  | .single _ => 2
  | .double _ => 3
  | .text _ => 4
  | .bytes _ => 5

/-- The order of scalars as keys: numbers by value, texts and bytes by their bytes, and scalars of
different sorts by their sort. -/
def Datum.compare : Datum → Datum → Ordering
  | .bool a, .bool b => Ord.compare a b
  | .int a, .int b => Ord.compare a b
  | .single a, .single b => Ord.compare a b
  | .double a, .double b => Ord.compare a b
  | .text a, .text b => Ord.compare a b
  | .bytes a, .bytes b =>
      Ord.compare (a.data.toList.map UInt8.toNat) (b.data.toList.map UInt8.toNat)
  | a, b => Ord.compare a.rank b.rank

/-- The order of error codes as keys: by the name of the category and by the number then. -/
def ErrorCode.compare (a b : ErrorCode) : Ordering :=
  (Ord.compare a.category.name b.category.name).then (Ord.compare a.value b.value)

namespace Value

def rank : Value → Nat
  | .scalar _ => 0
  | .errorCode _ => 1
  | .list _ => 2
  | .absent => 3
  | .present _ => 4
  | .variant .. => 5
  | .shared .. => 6
  | .unique .. => 7

mutual

/-- The order that values have as keys by their parts: lists are compared part by part, pointers by
their objects, variants by their places, and values of different sorts by their sort. -/
def compare : Value → Value → Ordering
  | .scalar a, .scalar b => a.compare b
  | .errorCode a, .errorCode b => a.compare b
  | .present a, .present b => compare a b
  | .shared _ _ a, .shared _ _ b => compare a b
  | .unique _ a, .unique _ b => compare a b
  | .list as, .list bs => compareList as bs
  | .variant i as, .variant j bs => (Ord.compare i j).then (compareList as bs)
  | a, b => Ord.compare a.rank b.rank

def compareList : List Value → List Value → Ordering
  | [], [] => .eq
  | [], _ :: _ => .lt
  | _ :: _, [] => .gt
  | a :: as, b :: bs => (compare a b).then (compareList as bs)

end

end Value

/-! ## The laws of an order -/

/-- What the comparisons of a first with a second and of the second with a third say about that of
the first with the third. -/
def Chains (first second both : Ordering) : Prop :=
  (first = .eq → both = second) ∧ (second = .eq → both = first) ∧ (first = second → both = first)

namespace Chains

variable {o₁ o₂ o₃ p₁ p₂ p₃ : Ordering}

theorem of_ord {α : Type} [Ord α] [TransOrd α] (a b c : α) :
    Chains (compare a b) (compare b c) (compare a c) := by
  refine ⟨TransCmp.congr_left, fun h => (TransCmp.congr_right h).symm, fun h => ?_⟩
  cases hab : compare a b with
  | lt => exact TransCmp.lt_trans hab (h ▸ hab)
  | eq => exact TransCmp.eq_trans hab (h ▸ hab)
  | gt => exact TransCmp.gt_trans hab (h ▸ hab)

/-- A second comparison counts only where the first one makes no difference. -/
theorem andThen (ho : Chains o₁ o₂ o₃) (hp : o₁ = .eq → o₂ = .eq → Chains p₁ p₂ p₃) :
    Chains (o₁.then p₁) (o₂.then p₂) (o₃.then p₃) := by
  obtain ⟨hfirst, hsecond, hsame⟩ := ho
  cases o₁ with
  | eq =>
      obtain rfl := hfirst rfl
      cases o₃ with
      | eq => exact hp rfl rfl
      | lt | gt => simp [Chains, eq_comm]
  | lt | gt =>
      cases o₂ with
      | eq =>
          obtain rfl := hsecond rfl
          simp [Chains]
      | lt | gt => simp_all [Chains]

theorem isLE (h : Chains o₁ o₂ o₃) (h₁ : o₁.isLE) (h₂ : o₂.isLE) : o₃.isLE := by
  obtain ⟨hfirst, hsecond, hsame⟩ := h
  cases o₁ with
  | gt => cases h₁
  | eq => rwa [hfirst rfl]
  | lt =>
      cases o₂ with
      | gt => cases h₂
      | eq => rwa [hsecond rfl]
      | lt => rwa [hsame rfl]

/-- Comparing by rank first leaves those of one rank to be compared. -/
theorem ranked {l m n : Nat} (hp : l = m → m = n → Chains p₁ p₂ p₃) :
    Chains ((compare l m).then p₁) ((compare m n).then p₂) ((compare l n).then p₃) :=
  (of_ord l m n).andThen fun hlm hmn =>
    hp (Nat.compare_eq_eq.1 hlm) (Nat.compare_eq_eq.1 hmn)

end Chains

theorem swap_ranked {m n : Nat} {o p : Ordering} (h : m = n → o.swap = p) :
    ((compare m n).then o).swap = (compare n m).then p := by
  rw [Ordering.swap_then, ← OrientedOrd.eq_swap]
  cases hnm : compare n m with
  | eq => exact h (Nat.compare_eq_eq.1 hnm).symm
  | lt | gt => rfl

/-! ## Scalars -/

namespace Datum

/-- Scalars are compared by their sorts first. -/
theorem compare_eq_then (a b : Datum) :
    a.compare b = (Ord.compare a.rank b.rank).then (a.compare b) := by
  cases a <;> cases b <;> rfl

theorem compare_swap (a b : Datum) : (a.compare b).swap = b.compare a := by
  rw [a.compare_eq_then, b.compare_eq_then]
  refine swap_ranked fun hrank => ?_
  cases a <;> cases b <;> cases hrank <;> exact OrientedOrd.eq_swap.symm

theorem compare_chains (a b c : Datum) : Chains (a.compare b) (b.compare c) (a.compare c) := by
  rw [a.compare_eq_then b, b.compare_eq_then c, a.compare_eq_then c]
  refine .ranked fun hab hbc => ?_
  cases a <;> cases b <;> cases hab <;> cases c <;> cases hbc <;>
    exact .of_ord _ _ _

end Datum

namespace ErrorCode

theorem compare_swap (a b : ErrorCode) : (a.compare b).swap = b.compare a := by
  rw [compare, compare, Ordering.swap_then, ← OrientedOrd.eq_swap, ← OrientedOrd.eq_swap]

theorem compare_chains (a b c : ErrorCode) :
    Chains (a.compare b) (b.compare c) (a.compare c) :=
  (Chains.of_ord _ _ _).andThen fun _ _ => .of_ord _ _ _

end ErrorCode

/-! ## Values -/

namespace Value

/-- Values are compared by their sorts first. -/
theorem compare_eq_then (a b : Value) :
    compare a b = (Ord.compare a.rank b.rank).then (compare a b) := by
  cases a <;> cases b <;> simp [compare, rank]

mutual

theorem compare_swap (a b : Value) : (compare a b).swap = compare b a := by
  rw [compare_eq_then a, compare_eq_then b]
  refine swap_ranked fun hrank => ?_
  cases a <;> cases b <;> simp [rank] at hrank
  case scalar.scalar a b => exact a.compare_swap b
  case errorCode.errorCode a b => exact a.compare_swap b
  case list.list as bs => exact compareList_swap as bs
  case absent.absent => rfl
  case present.present a b => exact compare_swap a b
  case variant.variant i as j bs =>
    rw [compare, compare, Ordering.swap_then, ← OrientedOrd.eq_swap, compareList_swap as bs]
  case shared.shared a _ _ b => exact compare_swap a b
  case unique.unique a _ b => exact compare_swap a b

theorem compareList_swap (as bs : List Value) : (compareList as bs).swap = compareList bs as := by
  cases as with
  | nil => cases bs <;> rfl
  | cons a as =>
      cases bs with
      | nil => rfl
      | cons b bs =>
          rw [compareList, compareList, Ordering.swap_then, compare_swap a b,
            compareList_swap as bs]

end

mutual

theorem compare_chains (a b c : Value) :
    Chains (compare a b) (compare b c) (compare a c) := by
  rw [compare_eq_then a b, compare_eq_then b c, compare_eq_then a c]
  refine .ranked fun hab hbc => ?_
  cases a <;> cases b <;> simp [rank] at hab <;> cases c <;> simp [rank] at hbc
  case scalar.scalar.scalar a b c => exact a.compare_chains b c
  case errorCode.errorCode.errorCode a b c => exact a.compare_chains b c
  case list.list.list as bs cs => exact compareList_chains as bs cs
  case absent.absent.absent => simp [Chains, compare, rank]
  case present.present.present a b c => exact compare_chains a b c
  case variant.variant.variant i as j bs k cs =>
    exact (Chains.of_ord i j k).andThen fun _ _ => compareList_chains as bs cs
  case shared.shared.shared a _ _ b _ _ c => exact compare_chains a b c
  case unique.unique.unique a _ b _ c => exact compare_chains a b c

theorem compareList_chains (as bs cs : List Value) :
    Chains (compareList as bs) (compareList bs cs) (compareList as cs) := by
  cases as with
  | nil => cases bs <;> cases cs <;> simp [Chains, compareList]
  | cons a as =>
      cases bs with
      | nil => cases cs <;> simp [Chains, compareList]
      | cons b bs =>
          cases cs with
          | nil => simp [Chains, compareList, eq_comm]
          | cons c cs =>
              exact (compare_chains a b c).andThen fun _ _ => compareList_chains as bs cs

end

instance : TransCmp compare where
  eq_swap := (compare_swap _ _).symm
  isLE_trans := (compare_chains _ _ _).isLE

/-! ## What no order sees -/

mutual

/-- A value without what no order of keys sees: the identities of shared objects and the wording of
error categories. -/
def erase : Value → Value
  | .scalar d => .scalar d
  | .errorCode code => .errorCode ⟨⟨code.category.name, .operatingSystem⟩, code.value⟩
  | .list vs => .list (eraseList vs)
  | .absent => .absent
  | .present v => .present (erase v)
  | .variant index vs => .variant index (eraseList vs)
  | .shared _ type body => .shared 0 type (erase body)
  | .unique type body => .unique type (erase body)

def eraseList : List Value → List Value
  | [] => []
  | v :: vs => erase v :: eraseList vs

end

theorem eraseList_eq_map (vs : List Value) : eraseList vs = vs.map erase := by
  induction vs with
  | nil => rfl
  | cons v vs ih => rw [eraseList, ih, List.map_cons]

mutual

theorem compare_erase (v w : Value) : compare (erase v) (erase w) = compare v w := by
  cases v with
  | list vs => cases w <;> simp only [erase, compare, rank, compareList_erase]
  | variant i vs => cases w <;> simp only [erase, compare, rank, compareList_erase]
  | present v => cases w <;> simp only [erase, compare, rank, compare_erase]
  | shared _ _ v => cases w <;> simp only [erase, compare, rank, compare_erase]
  | unique _ v => cases w <;> simp only [erase, compare, rank, compare_erase]
  | scalar d => cases w <;> simp only [erase, compare, rank]
  | errorCode code => cases w <;> simp only [erase, compare, rank, ErrorCode.compare]
  | absent => cases w <;> simp only [erase, compare, rank]

theorem compareList_erase (vs ws : List Value) :
    compareList (eraseList vs) (eraseList ws) = compareList vs ws := by
  cases vs with
  | nil => cases ws <;> simp only [eraseList, compareList]
  | cons v vs =>
      cases ws with
      | nil => simp only [eraseList, compareList]
      | cons w ws => simp only [eraseList, compareList, compare_erase, compareList_erase]

end

end Value

/-- An order of keys. It sees what keys hold, and not which objects are the same. -/
structure KeyOrder where
  compare : Value → Value → Ordering
  lawful : TransCmp compare
  blind : ∀ v w, compare v.erase w.erase = compare v w

instance (o : KeyOrder) : TransCmp o.compare := o.lawful

def KeyOrder.structural : KeyOrder := ⟨Value.compare, inferInstance, Value.compare_erase⟩

end ObjectStream
