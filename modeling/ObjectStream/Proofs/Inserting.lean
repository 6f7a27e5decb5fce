import Mathlib.Data.List.Basic
import Mathlib.Data.List.Induction
import ObjectStream.Collection

/-!
# Tables as insertions in order

Inserting an element into a table does one of two things: the element gets a place
of its own, or it is merged into the one element that compares equal. All else is
read off that. What a table has under a key is what the elements with that key are
merged into, one after the other. A sorted table has its elements in order, and an
indexed set has them in the order in which they came first. A function that keeps
the order and takes merged elements to merged ones takes tables to tables.
-/

namespace ObjectStream

open Std

namespace TableRule

variable {α : Type} (R : TableRule α)

def same (x y : α) : Bool := R.compare x y == .eq

/-- What becomes of a new element and the one in the table, if there is one. -/
def join (old : Option α) (new : α) : α := old.elim new (R.merge · new)

/-- What elements with one key are merged into, one after the other. -/
def joined (xs : List α) : Option α := xs.foldl (fun old new => some (R.join old new)) none

/-- The elements whose keys have not come before. -/
def firsts : List α → List α
  | [] => []
  | x :: xs => x :: (firsts xs).filter (!R.same x ·)

variable {R} {x y z : α} {xs : List α}

theorem same_iff : R.same x y = true ↔ R.compare x y = .eq := beq_iff_eq

theorem same_of_ne (h : R.compare x y ≠ .eq) : R.same x y = false := beq_false_of_ne h

theorem same_self : R.same x x = true := same_iff.2 ReflCmp.compare_self

theorem same_comm : R.same x y = R.same y x := by
  rw [Bool.eq_iff_iff, same_iff, same_iff, OrientedCmp.eq_comm]

theorem same_left (h : R.same x y = true) : R.same x z = R.same y z := by
  rw [same, same, TransCmp.congr_left (same_iff.1 h)]

theorem same_right (h : R.same y z = true) : R.same x y = R.same x z := by
  rw [same_comm, same_left h, same_comm]

/-- Of two elements that compare equal comes one that compares equal. -/
theorem same_merge (h : R.same x y = true) : R.same (R.merge x y) y = true :=
  same_iff.2 (R.merge_eq x y (same_iff.1 h))

theorem joined_concat (xs : List α) (x : α) :
    R.joined (xs ++ [x]) = some (R.join (R.joined xs) x) := by
  rw [joined, List.foldl_append]
  rfl

theorem any_firsts (k : α) (xs : List α) : (R.firsts xs).any (R.same k) = xs.any (R.same k) := by
  induction xs with
  | nil => rfl
  | cons x xs ih =>
      rw [firsts, List.any_cons, List.any_cons, List.any_filter, ← ih]
      cases hk : R.same k x with
      | true => rfl
      | false =>
          have hother : (fun y => !R.same x y && R.same k y) = R.same k := by
            funext y
            cases hxy : R.same x y with
            | true => rw [← same_right hxy, hk]; rfl
            | false => rfl
          rw [hother]

/-- An element at the end is new if none with its key came before. -/
theorem firsts_concat (xs : List α) (y : α) :
    R.firsts (xs ++ [y]) = if xs.any (R.same y) then R.firsts xs else R.firsts xs ++ [y] := by
  induction xs with
  | nil => rfl
  | cons x xs ih =>
      rw [List.cons_append, firsts, ih, List.any_cons]
      cases hxs : xs.any (R.same y) with
      | true => simp [firsts]
      | false => cases hxy : R.same y x <;> simp [firsts, same_comm.trans hxy]

end TableRule

namespace Table

variable {α : Type} {R : TableRule α} {kind : TableKind} {x y k : α} {table table' xs : List α}

/-! ## Inserting an element -/

/-- An element gets a place of its own in a table, or is merged into the one that compares equal. -/
inductive Entered (R : TableRule α) (x : α) : List α → List α → Prop
  | new (front back : List α) : (∀ y ∈ front ++ back, R.same x y = false) →
      Entered R x (front ++ back) (front ++ x :: back)
  | merged (front back : List α) {y : α} : R.same x y = true →
      (∀ z ∈ front ++ back, R.same x z = false) →
      Entered R x (front ++ y :: back) (front ++ R.merge y x :: back)

theorem Entered.cons (h : Entered R x table table') (hy : R.same x y = false) :
    Entered R x (y :: table) (y :: table') := by
  cases h with
  | new front back hall => exact .new (y :: front) back (List.forall_mem_cons.2 ⟨hy, hall⟩)
  | merged front back hsame hall =>
      exact .merged (y :: front) back hsame (List.forall_mem_cons.2 ⟨hy, hall⟩)

def Distinct (R : TableRule α) (table : List α) : Prop :=
  table.Pairwise fun x y => R.same x y = false

/-- The elements come in the order opposite to theirs. -/
def Descending (R : TableRule α) (table : List α) : Prop :=
  table.Pairwise fun x y => R.compare x y = .gt

theorem Descending.distinct (h : Descending R table) : Distinct R table :=
  h.imp fun hgt => TableRule.same_of_ne (by simp [hgt])

theorem entered_insertSorted (h : Descending R table) :
    Entered R x table (insertSorted R x table) := by
  induction table with
  | nil => exact .new [] [] nofun
  | cons y ys ih =>
      rw [insertSorted]
      split
      next hgt =>
        refine .new [] (y :: ys) fun z hz => TableRule.same_of_ne ?_
        rcases List.mem_cons.1 hz with rfl | hz
        · simp [hgt]
        · simp [TransCmp.gt_trans hgt (List.rel_of_pairwise_cons h hz)]
      next heq =>
        have hsame := TableRule.same_iff.2 heq
        refine .merged [] ys hsame fun z hz => ?_
        rw [TableRule.same_left hsame]
        exact List.rel_of_pairwise_cons h.distinct hz
      next hlt => exact (ih h.of_cons).cons (TableRule.same_of_ne (by simp [hlt]))

theorem entered_mergeInto (h : Distinct R table) :
    (mergeInto R x table = none ∧ ∀ y ∈ table, R.same x y = false) ∨
      ∃ table', mergeInto R x table = some table' ∧ Entered R x table table' := by
  induction table with
  | nil => exact .inl ⟨rfl, nofun⟩
  | cons y ys ih =>
      rw [mergeInto]
      split
      next heq =>
        have hsame := TableRule.same_iff.2 heq
        refine .inr ⟨_, rfl, .merged [] ys hsame fun z hz => ?_⟩
        rw [TableRule.same_left hsame]
        exact List.rel_of_pairwise_cons h hz
      next hne =>
        have hy := TableRule.same_of_ne hne
        rcases ih h.of_cons with ⟨hnone, hall⟩ | ⟨table', hsome, hentered⟩
        · exact .inl ⟨by rw [hnone]; rfl, List.forall_mem_cons.2 ⟨hy, hall⟩⟩
        · exact .inr ⟨_, by rw [hsome]; rfl, hentered.cons hy⟩

theorem entered_insertLast (h : Distinct R table) :
    Entered R x table (insertLast R x table) := by
  rw [insertLast]
  rcases entered_mergeInto (x := x) h with ⟨hnone, hall⟩ | ⟨table', hsome, hentered⟩
  · rw [hnone]
    exact .new [] table hall
  · rw [hsome]
    exact hentered

namespace Entered

theorem mem (h : Entered R x table table') {z : α} (hz : z ∈ table') :
    z ∈ table ∨ R.same z x = true := by
  cases h with
  | new front back hall =>
      rcases List.mem_append.1 hz with hz | hz
      · exact .inl (List.mem_append_left _ hz)
      · rcases List.mem_cons.1 hz with rfl | hz
        · exact .inr TableRule.same_self
        · exact .inl (List.mem_append_right _ hz)
  | merged front back hxy hall =>
      rcases List.mem_append.1 hz with hz | hz
      · exact .inl (List.mem_append_left _ hz)
      · rcases List.mem_cons.1 hz with rfl | hz
        · exact .inr (TableRule.same_merge (TableRule.same_comm.trans hxy))
        · exact .inl (List.mem_append_right _ (List.mem_cons_of_mem _ hz))

/-- Under the key of the new element is what it was merged into, and all else is as before. -/
theorem find? (h : Entered R x table table') (k : α) :
    table'.find? (R.same k) =
      if R.same k x then some (R.join (table.find? (R.same k)) x) else table.find? (R.same k) := by
  cases hkx : R.same k x with
  | true =>
      have hrest (z : α) (hz : R.same x z = false) : R.same k z = false :=
        (TableRule.same_left hkx).trans hz
      cases h with
      | new front back hall =>
          have hnone : (front ++ back).find? (R.same k) = none :=
            List.find?_eq_none.2 fun z hz => by simp [hrest z (hall z hz)]
          rw [hnone]
          rw [List.find?_append, Option.or_eq_none_iff] at hnone
          simp [List.find?_append, hnone.1, hkx, TableRule.join]
      | @merged front back y hxy hall =>
          have hfront : front.find? (R.same k) = none :=
            List.find?_eq_none.2 fun z hz => by
              simp [hrest z (hall z (List.mem_append_left _ hz))]
          have hky : R.same k y = true := (TableRule.same_left hkx).trans hxy
          have hmerged : R.same k (R.merge y x) = true := by
            rw [TableRule.same_right (TableRule.same_merge (TableRule.same_comm.trans hxy)), hkx]
          simp [List.find?_append, hfront, hky, hmerged, TableRule.join]
  | false =>
      cases h with
      | new front back hall => simp [List.find?_append, hkx]
      | merged front back hxy hall =>
          have hyx := TableRule.same_comm.trans hxy
          have hmerged := TableRule.same_right (x := k) (TableRule.same_merge hyx)
          have hky := TableRule.same_right (x := k) hyx
          simp [List.find?_append, hmerged, hky, hkx]

theorem distinct (h : Entered R x table table') (htable : Distinct R table) :
    Distinct R table' := by
  cases h with
  | new front back hall =>
      rw [Distinct, List.pairwise_append] at htable ⊢
      refine ⟨htable.1, List.pairwise_cons.2 ⟨fun z hz => hall z (by simp [hz]), htable.2.1⟩, ?_⟩
      intro a ha b hb
      rcases List.mem_cons.1 hb with rfl | hb
      · exact TableRule.same_comm.trans (hall a (by simp [ha]))
      · exact htable.2.2 a ha b hb
  | @merged front back y hxy hall =>
      have hmerged := TableRule.same_merge (TableRule.same_comm.trans hxy)
      rw [Distinct, List.pairwise_append, List.pairwise_cons] at htable ⊢
      refine ⟨htable.1, ⟨fun z hz => ?_, htable.2.1.2⟩, fun a ha b hb => ?_⟩
      · exact (TableRule.same_left hmerged).trans (hall z (by simp [hz]))
      · rcases List.mem_cons.1 hb with rfl | hb
        · rw [TableRule.same_right hmerged, TableRule.same_comm]
          exact hall a (by simp [ha])
        · exact htable.2.2 a ha b (List.mem_cons_of_mem _ hb)

/-- What is closed under new orders and under merging passes to the table from what it had and what
came. -/
theorem closed {P : List α → Prop} (hperm : ∀ {xs ys : List α}, xs.Perm ys → P xs → P ys)
    (hmerge : ∀ {old new : α} {xs : List α}, P (old :: new :: xs) → P (R.merge old new :: xs))
    (h : Entered R x table table') {rest : List α} (hP : P (table ++ x :: rest)) :
    P (table' ++ rest) := by
  cases h with
  | new front back hall =>
      refine hperm ?_ hP
      rw [List.append_assoc, List.append_assoc]
      exact (List.perm_middle).append_left front
  | @merged front back y hxy hall =>
      have hfront : P (y :: x :: (front ++ back ++ rest)) := by
        have hx : (front ++ back ++ x :: rest).Perm (x :: (front ++ back ++ rest)) :=
          List.perm_middle
        rw [List.append_assoc] at hx hP
        exact hperm (List.perm_middle.trans (hx.cons y)) hP
      refine hperm ?_ (hmerge hfront)
      rw [List.append_assoc, List.append_assoc]
      exact List.perm_middle.symm

end Entered

theorem Descending.insertSorted (h : Descending R table) :
    Descending R (insertSorted R x table) := by
  induction table with
  | nil => exact List.pairwise_singleton _ _
  | cons y ys ih =>
      rw [Table.insertSorted]
      split
      next hgt =>
        refine List.pairwise_cons.2 ⟨fun z hz => ?_, h⟩
        rcases List.mem_cons.1 hz with rfl | hz
        · exact hgt
        · exact TransCmp.gt_trans hgt (List.rel_of_pairwise_cons h hz)
      next heq =>
        refine List.pairwise_cons.2 ⟨fun z hz => ?_, h.of_cons⟩
        rw [TransCmp.congr_left (R.merge_eq y x (OrientedCmp.eq_symm heq)),
          TransCmp.congr_left heq]
        exact List.rel_of_pairwise_cons h hz
      next hlt =>
        refine List.pairwise_cons.2 ⟨fun z hz => ?_, ih h.of_cons⟩
        have hyx : R.compare y x = .gt := OrientedCmp.gt_iff_lt.2 hlt
        rcases (entered_insertSorted h.of_cons).mem hz with hz | hz
        · exact List.rel_of_pairwise_cons h hz
        · rwa [TransCmp.congr_right (TableRule.same_iff.1 hz)]

/-! ## Inserting in order -/

section Collector

variable (R) (kind)

/-- A table that some elements were inserted into, from its end to its start. -/
def held (xs : List α) : List α := xs.foldl (insert R kind) []

theorem ofList_collector (xs : List α) : (collector R kind).ofList xs = (held R kind xs).reverse :=
  rfl

theorem held_concat (xs : List α) (x : α) :
    held R kind (xs ++ [x]) = insert R kind (held R kind xs) x := by
  rw [held, List.foldl_append]
  rfl

/-- The elements of a table are in order if it is sorted, and different in any case. -/
theorem kept_held (xs : List α) :
    (kind.isSorted = true → Descending R (held R kind xs)) ∧ Distinct R (held R kind xs) := by
  induction xs using List.reverseRecOn with
  | nil => exact ⟨fun _ => .nil, .nil⟩
  | append_singleton xs x ih =>
      rw [held_concat, insert]
      cases hkind : kind.isSorted with
      | true =>
          have hsorted : Descending R (insertSorted R x (held R kind xs)) :=
            (ih.1 hkind).insertSorted
          exact ⟨fun _ => hsorted, hsorted.distinct⟩
      | false => exact ⟨nofun, (entered_insertLast ih.2).distinct ih.2⟩

theorem entered_held (xs : List α) (x : α) :
    Entered R x (held R kind xs) (held R kind (xs ++ [x])) := by
  obtain ⟨hsorted, hdistinct⟩ := kept_held R kind xs
  rw [held_concat, insert]
  split
  next hkind => exact entered_insertSorted (hsorted hkind)
  next => exact entered_insertLast hdistinct

theorem find?_held (k : α) (xs : List α) :
    (held R kind xs).find? (R.same k) = R.joined (xs.filter (R.same k)) := by
  induction xs using List.reverseRecOn with
  | nil => rfl
  | append_singleton xs x ih =>
      rw [(entered_held R kind xs x).find?, List.filter_append, ih]
      cases hkx : R.same k x with
      | true => rw [List.filter_singleton, hkx, Bool.cond_true, TableRule.joined_concat, if_pos rfl]
      | false => simp [hkx]

/-- What is closed under new orders and under merging passes from elements to their table. -/
theorem closed_ofList {P : List α → Prop}
    (hperm : ∀ {xs ys : List α}, xs.Perm ys → P xs → P ys)
    (hmerge : ∀ {old new : α} {xs : List α}, P (old :: new :: xs) → P (R.merge old new :: xs))
    {xs : List α} (hP : P xs) : P ((collector R kind).ofList xs) := by
  -- the elements that have not come yet vary
  have hheld (ys rest : List α) (h : P (ys ++ rest)) : P (held R kind ys ++ rest) := by
    induction ys using List.reverseRecOn generalizing rest with
    | nil => exact h
    | append_singleton ys x ih =>
        rw [List.append_assoc] at h
        exact (entered_held R kind ys x).closed hperm hmerge (ih _ h)
  have hall := hheld xs [] (by rwa [List.append_nil])
  rw [List.append_nil] at hall
  exact hperm (List.reverse_perm _).symm hall

end Collector

theorem Distinct.find?_reverse (h : Distinct R table) (k : α) :
    table.reverse.find? (R.same k) = table.find? (R.same k) := by
  induction table with
  | nil => rfl
  | cons y ys ih =>
      rw [List.reverse_cons, List.find?_append, ih h.of_cons]
      cases hky : R.same k y with
      | false => simp [hky]
      | true =>
          have hnone : ys.find? (R.same k) = none := List.find?_eq_none.2 fun z hz => by
            rw [TableRule.same_left hky, List.rel_of_pairwise_cons h hz]
            exact Bool.false_ne_true
          simp [hky, hnone]

/-- Under each key there is what the elements with that key are merged into. -/
theorem find?_ofList (R : TableRule α) (kind : TableKind) (k : α) (xs : List α) :
    ((collector R kind).ofList xs).find? (R.same k) = R.joined (xs.filter (R.same k)) := by
  rw [ofList_collector, (kept_held R kind xs).2.find?_reverse, find?_held]

/-- A table that is listed by key has its elements in order. -/
theorem sorted_ofList (R : TableRule α) (hkind : kind.isSorted = true) (xs : List α) :
    ((collector R kind).ofList xs).Pairwise fun x y => R.compare x y = .lt := by
  rw [ofList_collector, List.pairwise_reverse]
  exact ((kept_held R kind xs).1 hkind).imp OrientedCmp.gt_iff_lt.1

/-! ## Elements that stay -/

theorem mergeInto_of_kept (h : ∀ old new, R.merge old new = old) (x : α) (table : List α) :
    mergeInto R x table = if table.any (R.same x) then some table else none := by
  induction table with
  | nil => rfl
  | cons y ys ih =>
      rw [mergeInto, List.any_cons, h]
      by_cases heq : R.compare x y = .eq
      · rw [if_pos heq, TableRule.same_iff.2 heq]
        rfl
      · rw [if_neg heq, TableRule.same_of_ne heq, Bool.false_or, ih]
        cases ys.any (R.same x) <;> rfl

/-- If an element that is in the table stays, a table that is not sorted is made of the elements
whose keys have not come before. -/
theorem ofList_of_kept (hkind : kind.isSorted = false) (h : ∀ old new, R.merge old new = old)
    (xs : List α) : (collector R kind).ofList xs = R.firsts xs := by
  have hheld : held R kind xs = (R.firsts xs).reverse := by
    induction xs using List.reverseRecOn with
    | nil => rfl
    | append_singleton xs x ih =>
        rw [held_concat, ih, insert, hkind, if_neg Bool.false_ne_true, insertLast,
          mergeInto_of_kept h, List.any_reverse, TableRule.any_firsts, TableRule.firsts_concat]
        cases xs.any (R.same x) with
        | true => rfl
        | false => simp
  rw [ofList_collector, hheld, List.reverse_reverse]

/-! ## Tables under a function -/

section Map

variable {β : Type} {S : TableRule β} {f : α → β}

theorem insertSorted_map (hcompare : ∀ a b, S.compare (f a) (f b) = R.compare a b)
    (hmerge : ∀ a b, S.merge (f a) (f b) = f (R.merge a b)) (x : α) (table : List α) :
    insertSorted S (f x) (table.map f) = (insertSorted R x table).map f := by
  induction table with
  | nil => rfl
  | cons y ys ih =>
      rw [List.map_cons, insertSorted, insertSorted, hcompare, ih, hmerge]
      cases R.compare x y <;> rfl

theorem mergeInto_map (hcompare : ∀ a b, S.compare (f a) (f b) = R.compare a b)
    (hmerge : ∀ a b, S.merge (f a) (f b) = f (R.merge a b)) (x : α) (table : List α) :
    mergeInto S (f x) (table.map f) = (mergeInto R x table).map (List.map f) := by
  induction table with
  | nil => rfl
  | cons y ys ih =>
      rw [List.map_cons, mergeInto, mergeInto, hcompare, ih, hmerge]
      split
      · rfl
      · cases mergeInto R x ys <;> rfl

/-- A function that keeps the order and takes merged elements to merged ones takes a table to that
of the images. -/
theorem ofList_map (kind : TableKind) (hcompare : ∀ a b, S.compare (f a) (f b) = R.compare a b)
    (hmerge : ∀ a b, S.merge (f a) (f b) = f (R.merge a b)) (xs : List α) :
    (collector S kind).ofList (xs.map f) = ((collector R kind).ofList xs).map f := by
  have hheld : held S kind (xs.map f) = (held R kind xs).map f := by
    induction xs using List.reverseRecOn with
    | nil => rfl
    | append_singleton xs x ih =>
        rw [List.map_append, List.map_singleton, held_concat, held_concat, ih, insert, insert]
        split
        · exact insertSorted_map hcompare hmerge x _
        · rw [insertLast, insertLast, mergeInto_map hcompare hmerge]
          cases mergeInto R x (held R kind xs) <;> rfl
  rw [ofList_collector, ofList_collector, hheld, List.map_reverse]

end Map

/-! ## Elements with different keys -/

theorem perm_held (kind : TableKind) (h : Distinct R xs) : (held R kind xs).Perm xs := by
  induction xs using List.reverseRecOn with
  | nil => exact List.Perm.refl _
  | append_singleton xs x ih =>
      rw [Distinct, List.pairwise_append] at h
      have hperm := ih h.1
      have hnone (y : α) (hy : y ∈ held R kind xs) : R.same x y = false :=
        TableRule.same_comm.trans (h.2.2 y (hperm.mem_iff.1 hy) x List.mem_cons_self)
      have hentered := entered_held R kind xs x
      generalize held R kind (xs ++ [x]) = table at hentered
      refine List.Perm.trans ?_ (List.perm_append_singleton x xs).symm
      generalize htable : held R kind xs = before at hentered hperm hnone
      cases hentered with
      | new => exact List.perm_middle.trans (hperm.cons x)
      | @merged front back y hxy => simp [hnone y] at hxy

/-- A table has all elements if their keys are different. -/
theorem perm_ofList (kind : TableKind) (h : Distinct R xs) :
    xs.Perm ((collector R kind).ofList xs) :=
  ((List.reverse_perm _).trans (perm_held kind h)).symm

/-- Elements that are in order already stay so in a sorted table. -/
theorem ofList_of_sorted (hkind : kind.isSorted = true)
    (h : xs.Pairwise fun x y => R.compare x y = .lt) : (collector R kind).ofList xs = xs := by
  have hdistinct : Distinct R xs := h.imp fun hlt => TableRule.same_of_ne (by simp [hlt])
  refine (perm_ofList kind hdistinct).symm.eq_of_pairwise (fun a b _ _ hab hba => ?_)
    (sorted_ofList R hkind xs) h
  rw [OrientedCmp.gt_iff_lt.2 hba] at hab
  cases hab

theorem insertLast_of_new (h : ∀ y ∈ table, R.same x y = false) :
    insertLast R x table = x :: table := by
  have hnone : mergeInto R x table = none := by
    induction table with
    | nil => rfl
    | cons y ys ih =>
        rw [List.forall_mem_cons] at h
        have hne : R.compare x y ≠ .eq := fun heq => by
          rw [TableRule.same_iff.2 heq] at h
          cases h.1
        rw [mergeInto, if_neg hne, ih h.2]
        rfl
  rw [insertLast, hnone]
  rfl

/-- Elements with different keys stay in order in an indexed table. -/
theorem ofList_indexed (h : Distinct R xs) : (collector R .indexed).ofList xs = xs := by
  have hheld : held R .indexed xs = xs.reverse := by
    induction xs using List.reverseRecOn with
    | nil => rfl
    | append_singleton xs x ih =>
        rw [Distinct, List.pairwise_append] at h
        have hinsert (table : List α) : insert R .indexed table x = insertLast R x table := rfl
        rw [held_concat, ih h.1, hinsert, insertLast_of_new fun y hy => ?_, List.reverse_append]
        · rfl
        · exact TableRule.same_comm.trans (h.2.2 y (List.mem_reverse.1 hy) x List.mem_cons_self)
  rw [ofList_collector, hheld, List.reverse_reverse]

end Table

end ObjectStream
