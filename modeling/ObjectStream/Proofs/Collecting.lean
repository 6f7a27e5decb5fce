import ObjectStream.Proofs.Elements
import ObjectStream.Proofs.Inserting
import ObjectStream.Proofs.Unmoved

/-!
# Collections agree with vectors

A vector is read in a loop that keeps the elements. Other collections take the
elements as they come, one by one, and stop at the one that fails. Both read the
same elements, so a collection is what it makes of the elements of the vector, and
where one of them fails the other fails with the same error and leaves the stream
the same. An array looks at the count first. What a table makes of its elements is
said by the keys: which of the equal ones stays, and where it stands.
-/

namespace ObjectStream

open Std

/-! ## Sets and maps -/

def KeyOrder.same (o : KeyOrder) (v w : Value) : Bool := o.compare v w == .eq

/-- Which of some equal keys stays, if they are put into a table in order. -/
def TableKind.kept (kind : TableKind) (vs : List Value) : Option Value :=
  match kind with
  | .ordered => vs.getLast?
  | .hashed | .fastHashed | .indexed => vs.head?

namespace TableRule

variable (kind : TableKind) (o : KeyOrder)

theorem joined_ofSet (vs : List Value) : (ofSet kind o).joined vs = kind.kept vs := by
  induction vs using List.reverseRecOn with
  | nil => cases kind <;> rfl
  | append_singleton vs v ih =>
      rw [joined_concat, ih]
      cases kind with
      | ordered =>
          have hlast : TableKind.ordered.kept (vs ++ [v]) = some v := List.getLast?_concat
          rw [hlast]
          cases TableKind.ordered.kept vs <;> rfl
      | hashed | fastHashed | indexed => cases vs <;> rfl

theorem joined_ofMap_value (ps : List (Value × Value)) :
    ((ofMap kind o).joined ps).map (·.2) = ps.getLast?.map (·.2) := by
  induction ps using List.reverseRecOn with
  | nil => rfl
  | append_singleton ps p ih =>
      rw [joined_concat, List.getLast?_concat]
      cases (ofMap kind o).joined ps <;> rfl

end TableRule

namespace Table

variable (kind : TableKind) (o : KeyOrder)

structure SetOf (vs table : List Value) : Prop where
  /-- Of equal values there is one in the set. -/
  found : ∀ k, table.find? (o.same k) = kind.kept (vs.filter (o.same k))
  sorted : kind.isSorted = true → table.Pairwise fun v w => o.compare v w = .lt
  /-- Where the set is not sorted, the values stand in the order in which they came first. -/
  firsts : kind.isSorted = false → table = (TableRule.ofSet kind o).firsts vs

structure MapOf (ps table : List (Value × Value)) : Prop where
  /-- The keys are put into the map like the elements of a set. -/
  keys : SetOf kind o (ps.map (·.1)) (table.map (·.1))
  /-- The value under a key is the last one that came with it. -/
  value : ∀ k, (table.find? fun p => o.same k p.1).map (·.2) =
    (ps.filter fun p => o.same k p.1).getLast?.map (·.2)

theorem setOf_ofList (vs : List Value) : SetOf kind o vs ((Collector.set kind o).ofList vs) where
  found k := by
    rw [← TableRule.joined_ofSet kind o]
    exact find?_ofList (.ofSet kind o) kind k vs
  sorted hkind := sorted_ofList (.ofSet kind o) hkind vs
  firsts hkind := by
    refine ofList_of_kept hkind (fun old new => ?_) vs
    cases kind with
    | indexed => rfl
    | ordered | hashed | fastHashed => cases hkind

/-- The keys of a map are put into it like the elements of a set. -/
theorem keys_ofList (ps : List (Value × Value)) :
    ((Collector.map kind o).ofList ps).map (·.1) =
      (Collector.set kind o).ofList (ps.map (·.1)) :=
  (ofList_map (R := .ofMap kind o) (S := .ofSet kind o) kind (fun _ _ => rfl) (fun _ _ => rfl)
    ps).symm

theorem mapOf_ofList (ps : List (Value × Value)) :
    MapOf kind o ps ((Collector.map kind o).ofList ps) where
  keys := by
    rw [keys_ofList]
    exact setOf_ofList kind o _
  value k := by
    -- a pair is looked up by its key, whatever its value is
    have hfound := find?_ofList (.ofMap kind o) kind (k, k) ps
    have hsame : (TableRule.ofMap kind o).same (k, k) = fun p => o.same k p.1 := rfl
    rw [hsame] at hfound
    rw [← TableRule.joined_ofMap_value kind o, ← hfound]
    rfl

end Table

namespace Reader

variable {α β γ : Type}

/-- Both results are successes with values that belong together, or failures with the same error,
and leave the stream the same. -/
def Correspond (R : α → β → Prop) :
    EStateM.Result StreamError InStream α → EStateM.Result StreamError InStream β → Prop
  | .ok a s, .ok b t => R a b ∧ s = t
  | .error e s, .error f t => e = f ∧ s = t
  | _, _ => False

/-- What is made of the same reading in two ways. -/
theorem correspond_map {R : α → β → Prop} {f : γ → α} {g : γ → β} (h : ∀ c, R (f c) (g c))
    (x : Reader γ) (r : InStream) : Correspond R ((f <$> x) r) ((g <$> x) r) := by
  rw [map_eq_pure_bind, map_eq_pure_bind]
  cases hx : x r with
  | error e s =>
      rw [bind_failed hx, bind_failed hx]
      exact ⟨rfl, rfl⟩
  | ok c s =>
      rw [bind_of_ok hx, bind_of_ok hx]
      exact ⟨h c, rfl⟩

/-- A collection is what it makes of the elements of the vector. -/
theorem correspond_decodeSeq (C : Collector α γ) (x : Reader α) (r : InStream) :
    Correspond (fun c as => c = C.ofList as) (decodeSeq C x r) (decodeVec x r) := by
  have hmap := correspond_map (R := fun c as => c = C.ofList as) (f := C.ofList) (g := id)
    (fun _ => rfl) (decodeVec x) r
  rwa [id_map, ← decodeSeq_eq] at hmap

/-! ## A header with a count that is asked for -/

section Header

variable {r s : InStream} {e : StreamError} {m n : Nat}

theorem arrayHeaderOf_same (h : arrayHeader r = .ok n s) : arrayHeaderOf n r = .ok () s := by
  have hcheck : (do
      let actual ← arrayHeader
      unless actual = n do throw (StreamError.countMismatch n actual)) r = .ok () s := by
    rw [bind_of_ok h, if_pos rfl]
    rfl
  rw [arrayHeaderOf, orRestore, hcheck]

theorem arrayHeaderOf_other (h : arrayHeader r = .ok m s) (hne : m ≠ n) :
    arrayHeaderOf n r = .error (.countMismatch n m) r := by
  refine orRestore_failed (t := s) (Head.arrayHeaderOf n).still ?_
  rw [bind_of_ok h, if_neg hne]
  rfl

theorem arrayHeader_recovers (h : arrayHeader r = .error e s) : s = r :=
  Recovers.orRestore Head.arrayHeader.still r e s h

theorem arrayHeaderOf_failed (h : arrayHeader r = .error e s) :
    arrayHeaderOf n r = .error e r :=
  orRestore_failed (Head.arrayHeaderOf n).still (bind_failed h)

variable (x : Reader α)

theorem decodeArray_same (h : arrayHeader r = .ok n s) : decodeArray n x r = decodeVec x r := by
  rw [decodeArray_eq, decodeVec, bind_of_ok (arrayHeaderOf_same h), bind_of_ok h]

theorem decodeArray_other (h : arrayHeader r = .ok m s) (hne : m ≠ n) :
    decodeArray n x r = .error (.countMismatch n m) r := by
  rw [decodeArray_eq, bind_failed (arrayHeaderOf_other h hne)]

theorem decodeArray_failed (n : Nat) (h : arrayHeader r = .error e s) :
    decodeArray n x r = decodeVec x r := by
  obtain rfl := arrayHeader_recovers h
  rw [decodeArray_eq, decodeVec, bind_failed (arrayHeaderOf_failed h), bind_failed h]

end Header

end Reader

open Reader

namespace Schema

variable (Γ : Schema) (r : InStream)

def inside (t : Ty) : Reader Value := decodeWithin Γ (2 * r.cursor.remaining + 1) t

theorem decode_eq_inside (t : Ty) : decode Γ t r = decodeStep Γ (Γ.inside r) t r := rfl

/-- The parts of a tuple are read like the values inside of what the tuple stands in. -/
theorem inside_pair (k u : Ty) :
    Γ.inside r (.tuple [k, u]) = Value.ofPair <$> pair (Γ.inside r k) (Γ.inside r u) :=
  decodeStep_pair (decodeWithin Γ (2 * r.cursor.remaining)) k u

theorem decode_vec (e : Ty) :
    decode Γ (.vec e) r = (Value.list <$> decodeVec (Γ.inside r e)) r := rfl

theorem decode_vec_pair (k u : Ty) : decode Γ (.vec (.tuple [k, u])) r =
    ((fun ps => .list (ps.map .ofPair)) <$> decodeVec (pair (Γ.inside r k) (Γ.inside r u))) r := by
  simp only [decode_vec, inside_pair, decodeVec, times_map, map_bind, Functor.map_map]

theorem decode_array (e : Ty) (n : Nat) :
    decode Γ (.array e n) r = (Value.list <$> decodeArray n (Γ.inside r e)) r := rfl

/-! ## Agreement -/

/-- Reading collections at a place of a stream, compared with reading vectors there. -/
structure CollectsAlike (Γ : Schema) (r : InStream) : Prop where
  /-- The sequences are read alike. -/
  sequence : ∀ kind e, kind ≠ .slice → decode Γ (.seq kind e) r = decode Γ (.vec e) r
  /-- Any collection is what it makes of the elements of the vector, however these are read. -/
  collection : ∀ {α γ : Type} (C : Collector α γ) (x : Reader α),
    Correspond (fun c as => c = C.ofList as) (decodeSeq C x r) (decodeVec x r)
  /-- In particular it is what it makes of the elements of a vector of one of the types. -/
  elements : ∀ {γ : Type} (C : Collector Value γ) (e : Ty),
    Correspond (fun c v => ∃ vs, v = .list vs ∧ c = C.ofList vs)
      (decodeSeq C (Γ.inside r e) r) (decode Γ (.vec e) r)
  /-- An array is read like a vector if its count is announced, or if no count is. -/
  array : ∀ e n, (∀ m s, arrayHeader r = .ok m s → m = n) →
    decode Γ (.array e n) r = decode Γ (.vec e) r
  /-- Another count is refused, and the cursor stays. -/
  arrayCount : ∀ e n m s, arrayHeader r = .ok m s → m ≠ n →
    decode Γ (.array e n) r = .error (.countMismatch n m) r
  /-- A set has the elements of the vector put into it in order. -/
  set : ∀ kind e, Correspond
    (fun w v => ∃ vs table, v = .list vs ∧ w = .list table ∧
      Table.SetOf kind (Γ.order e) vs table)
    (decode Γ (.set kind e) r) (decode Γ (.vec e) r)
  /-- Any collection of pairs is what it makes of the pairs of the vector. -/
  pairs : ∀ {γ : Type} (C : Collector (Value × Value) γ) (k u : Ty),
    Correspond
      (fun c v => ∃ ps : List (Value × Value), v = .list (ps.map .ofPair) ∧ c = C.ofList ps)
      (decodePairs C (Γ.inside r k) (Γ.inside r u) r) (decode Γ (.vec (.tuple [k, u])) r)
  /-- A map has the pairs of the vector put into it in order. -/
  map : ∀ kind k u, Correspond
    (fun w v => ∃ ps table : List (Value × Value),
      v = .list (ps.map .ofPair) ∧ w = .list (table.map .ofPair) ∧
        Table.MapOf kind (Γ.order k) ps table)
    (decode Γ (.map kind k u) r) (decode Γ (.vec (.tuple [k, u])) r)

/-- Collections are read wherever vectors are, fail where vectors fail, and hold the same. -/
theorem collectsAlike (Γ : Schema) (r : InStream) : Γ.CollectsAlike r where
  sequence kind e h := by
    rw [decode_vec, decode_eq_inside, decodeStep_seq (Γ.inside r) h]
  collection C x := correspond_decodeSeq C x r
  elements C e := by
    rw [decode_vec, decodeSeq_eq]
    exact correspond_map (fun vs => ⟨vs, rfl, rfl⟩) _ r
  array e n h := by
    rw [decode_vec, decode_array, map_eq_pure_bind, map_eq_pure_bind]
    have hread : decodeArray n (Γ.inside r e) r = decodeVec (Γ.inside r e) r := by
      cases hheader : arrayHeader r with
      | ok m s =>
          obtain rfl := h m s hheader
          exact decodeArray_same _ hheader
      | error err s => exact decodeArray_failed _ n hheader
    simp only [bind, EStateM.bind, hread]
  arrayCount e n m s hheader hne := by
    rw [decode_array, map_eq_pure_bind, bind_failed (decodeArray_other _ hheader hne)]
  set kind e := by
    rw [decode_vec, decode_eq_inside, decodeStep_set]
    exact correspond_map
      (fun vs => ⟨vs, _, rfl, rfl, Table.setOf_ofList kind (Γ.order e) vs⟩) _ r
  pairs C k u := by
    rw [decode_vec_pair, decodePairs_eq]
    exact correspond_map (fun ps => ⟨ps, rfl, rfl⟩) _ r
  map kind k u := by
    rw [decode_vec_pair, decode_eq_inside, decodeStep_map]
    exact correspond_map
      (fun ps => ⟨ps, _, rfl, rfl, Table.mapOf_ofList kind (Γ.order k) ps⟩) _ r

end Schema

/-- A key that comes again keeps its place in an indexed map, and gets a new value. -/
example : Table.map .indexed [.ofPair (.scalar (.int 2), .absent),
    .ofPair (.scalar (.int 1), .absent), .ofPair (.scalar (.int 2), .scalar (.int 7))] =
    [.ofPair (.scalar (.int 2), .scalar (.int 7)), .ofPair (.scalar (.int 1), .absent)] := rfl

end ObjectStream
