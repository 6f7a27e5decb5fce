import ObjectStream.Decode
import ObjectStream.Proofs.Inserting

/-!
# Reading element by element

Collections that take elements as they come read the same elements as a vector that
keeps them, so every collection is read by one loop, and what differs is what is made
of the elements. The parts of a tuple are read one after the other, however deep
tuples stand in tuples.
-/

namespace ObjectStream

/-- What holds of a tuple if it does of its parts, and of all other types, holds of all types. -/
theorem Ty.tuple_induction {motive : Ty → Prop}
    (tuple : ∀ ts, (∀ t ∈ ts, motive t) → motive (.tuple ts))
    (other : ∀ t, (∀ ts, t ≠ .tuple ts) → motive t) (t : Ty) : motive t := by
  induction hn : sizeOf t using Nat.strongRecOn generalizing t with
  | ind n ih =>
      cases t with
      | tuple ts =>
          refine tuple ts fun u hu => ih (sizeOf u) ?_ u rfl
          have hlt := List.sizeOf_lt_of_mem hu
          rw [← hn, Ty.tuple.sizeOf_spec]
          omega
      | _ => exact other _ nofun

namespace Reader

variable {α β γ : Type}

theorem ofList_list (xs : List α) : Collector.list.ofList xs = xs := by
  have hfold (done : List α) : (xs.foldl (fun done a => a :: done) done).reverse =
      done.reverse ++ xs := by
    induction xs generalizing done with
    | nil => simp
    | cons x xs ih => rw [List.foldl_cons, ih, List.reverse_cons, List.append_assoc]; rfl
  exact hfold []

/-- Collecting is reading all and putting the elements in. -/
theorem collect_eq (C : Collector α γ) (x : Reader α) (n : Nat) :
    collect C x n = C.ofList <$> times n x := by
  have honto (done : List α) : collectOnto C x n (done.reverse.foldl C.take C.start) =
      C.ofList <$> repeatOnto x n done := by
    induction n generalizing done with
    | zero => simp [collectOnto, repeatOnto, Collector.ofList]
    | succ n ih =>
        simp only [collectOnto, repeatOnto, map_bind]
        congr 1
        funext a
        rw [← ih, List.reverse_cons, List.foldl_append, List.foldl_cons, List.foldl_nil]
  exact honto []

theorem times_map (f : α → β) (x : Reader α) (n : Nat) :
    times n (f <$> x) = List.map f <$> times n x := by
  have honto (done : List α) : repeatOnto (f <$> x) n (done.map f) =
      List.map f <$> repeatOnto x n done := by
    induction n generalizing done with
    | zero => simp [repeatOnto]
    | succ n ih =>
        simp only [repeatOnto, map_bind, bind_map_left, ← ih, List.map_cons]
  exact honto []

theorem decodeSeq_eq (C : Collector α γ) (x : Reader α) :
    decodeSeq C x = C.ofList <$> decodeVec x := by
  simp only [decodeSeq, decodeVec, collect_eq, map_bind]

theorem decodePairs_eq (C : Collector (α × β) γ) (key : Reader α) (value : Reader β) :
    decodePairs C key value = C.ofList <$> decodeVec (pair key value) :=
  decodeSeq_eq C (pair key value)

/-- As many elements are read as were asked for. -/
theorem times_check (x : Reader α) (n : Nat) (e : List α → StreamError) :
    (do
      let items ← times n x
      unless items.length = n do throw (e items)
      pure items) = times n x := by
  have honto (done : List α) : (do
      let items ← repeatOnto x n done
      unless items.length = done.length + n do throw (e items)
      pure items) = repeatOnto x n done := by
    induction n generalizing done with
    | zero => simp [repeatOnto]
    | succ n ih =>
        simp only [repeatOnto, bind_assoc]
        congr 1
        funext a
        have hlength : done.length + (n + 1) = (a :: done).length + n := by
          rw [List.length_cons]
          omega
        rw [hlength]
        exact ih (a :: done)
  have hall := honto []
  rwa [List.length_nil, Nat.zero_add] at hall

theorem decodeArray_eq (n : Nat) (x : Reader α) :
    decodeArray n x = (do
      arrayHeaderOf n
      times n x) := by
  rw [← times_check x n fun items => .countMismatch n items.length]
  rfl

end Reader

open Reader

section Steps

variable {Γ : Schema} (value : Ty → Reader Value)

theorem decodeStep_custom {t : Ty} {codec : Codec} (h : Γ.codec? t = some codec) :
    decodeStep Γ value t = codec.read := by
  unfold decodeStep
  simp only [h]

theorem decodeStep_option {t : Ty} (h : Γ.codec? (.option t) = none) :
    decodeStep Γ value (.option t) = decodeOptional value t := by
  unfold decodeStep
  simp only [h]

theorem decodeParts_eq (ts : List Ty) : decodeParts Γ value ts = each (decodeStep Γ value) ts := by
  induction ts with
  | nil => rfl
  | cons t ts ih => rw [decodeParts, each, ih]

theorem decodeStep_tuple (ts : List Ty) : decodeStep Γ value (.tuple ts) = (do
    arrayHeaderOf ts.length
    Value.list <$> each (decodeStep Γ value) ts) := by
  rw [← decodeParts_eq]
  rfl

theorem decodeStep_array (e : Ty) (n : Nat) : decodeStep Γ value (.array e n) = (do
    arrayHeaderOf n
    Value.list <$> times n (value e)) := by
  have hstep : decodeStep Γ value (.array e n) = Value.list <$> decodeArray n (value e) := rfl
  rw [hstep, decodeArray_eq, map_bind]

theorem decodeStep_seq {kind : SeqKind} (h : kind ≠ .slice) (e : Ty) :
    decodeStep Γ value (.seq kind e) = Value.list <$> decodeVec (value e) := by
  cases kind with
  | slice => exact absurd rfl h
  | vector | deque => rfl
  | linked =>
      have hstep : decodeStep Γ value (.seq .linked e) =
          Value.list <$> decodeSeq .list (value e) := rfl
      rw [hstep, decodeSeq_eq, Functor.map_map]
      simp only [ofList_list]

theorem decodeStep_set (kind : TableKind) (e : Ty) : decodeStep Γ value (.set kind e) =
    (fun vs => .list ((Collector.set kind (Γ.order e)).ofList vs)) <$> decodeVec (value e) := by
  have hstep : decodeStep Γ value (.set kind e) =
      Value.list <$> decodeSeq (.set kind (Γ.order e)) (value e) := rfl
  rw [hstep, decodeSeq_eq, Functor.map_map]

theorem decodeStep_map (kind : TableKind) (k u : Ty) : decodeStep Γ value (.map kind k u) =
    (fun ps => .list (((Collector.map kind (Γ.order k)).ofList ps).map .ofPair)) <$>
      decodeVec (pair (value k) (value u)) := by
  have hstep : decodeStep Γ value (.map kind k u) = (do
      let entries ← decodePairs (.map kind (Γ.order k)) (value k) (value u)
      pure (.list (entries.map .ofPair))) := rfl
  rw [hstep, decodePairs_eq, bind_pure_comp, Functor.map_map]

/-- A pair is a tuple of two. -/
theorem decodeStep_pair (k u : Ty) : decodeStep Γ value (.tuple [k, u]) =
    Value.ofPair <$> pair (decodeStep Γ value k) (decodeStep Γ value u) := by
  have hpair (v w : Value) : Value.list [v, w] = .ofPair (v, w) := rfl
  simp only [decodeStep_tuple, pair, each, map_eq_pure_bind, bind_assoc, pure_bind, hpair,
    List.length_cons, List.length_nil]

end Steps

end ObjectStream
