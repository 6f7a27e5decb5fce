import ObjectStream.Proofs.Derived
import ObjectStream.Proofs.Failing

/-!
# Bases are flattened

The fields of a base stand among those of the struct, without a header and without
keys, and the bases of the base in the same way. What is left when every base has
been replaced by its fields are the leaves. A struct is counted, written and read as
its leaves are in their order, so it cannot be told on the wire from a tuple, or from
a struct without bases, that has these for its fields.
-/

namespace ObjectStream

def Part.isLeaf : Part → Bool
  | .fields _ => false
  | _ => true

namespace Schema

/-- The leaves of parts: a base is replaced by the leaves of its fields. -/
inductive Leaves (Γ : Schema) : List Part → List Part → Prop
  | nil : Leaves Γ [] []
  | leaf {p : Part} {ps qs : List Part} : p.isLeaf = true → Leaves Γ ps qs →
      Leaves Γ (p :: ps) (p :: qs)
  | base {name : String} {args : List Ty} {item : Item Ty} {asMap : Bool}
      {fields : List (MarkedField Ty)} {ps qs qs' : List Part} :
      Γ.plan? name = some (item, .struct asMap fields) →
      Leaves Γ (fields.map (MarkedField.part (arguments item args))) qs → Leaves Γ ps qs' →
      Leaves Γ (.fields (.named name args) :: ps) (qs ++ qs')

inductive Spreads (Γ : Schema) : List Part → List Value → List Value → Prop
  | nil : Spreads Γ [] [] []
  | leaf {p : Part} {ps : List Part} {v : Value} {vs us : List Value} : p.isLeaf = true →
      Spreads Γ ps vs us → Spreads Γ (p :: ps) (v :: vs) (v :: us)
  | base {name : String} {args : List Ty} {item : Item Ty} {asMap : Bool}
      {fields : List (MarkedField Ty)} {ps : List Part} {ws vs us us' : List Value} :
      Γ.plan? name = some (item, .struct asMap fields) →
      Spreads Γ (fields.map (MarkedField.part (arguments item args))) ws us →
      Spreads Γ ps vs us' →
      Spreads Γ (.fields (.named name args) :: ps) (.list ws :: vs) (us ++ us')

variable {Γ : Schema} {ps qs : List Part} {vs ws us : List Value} {fuel : Nat}

/-! ## Leaves -/

theorem nests_of_partNests {name : String} {args : List Ty} {item : Item Ty} {asMap : Bool}
    {fields : List (MarkedField Ty)} (hplan : Γ.plan? name = some (item, .struct asMap fields))
    (h : ∀ p ∈ fields.map (MarkedField.part (arguments item args)), Γ.PartNests fuel p) :
    Γ.Nests (fuel + 1) (.named name args) := by
  simp only [Nests, hplan]
  intro f hf hbase
  have hpart : f.part (arguments item args) = .fields (f.type.subst (arguments item args)) := by
    simp only [MarkedField.part, MarkedField.writer, hbase, if_true]
  have hnests := h _ (List.mem_map_of_mem hf)
  rwa [hpart] at hnests

/-- Where no struct is a base of itself, there are leaves. -/
theorem exists_leaves (h : ∀ p ∈ ps, Γ.PartNests fuel p) : ∃ qs, Γ.Leaves ps qs := by
  induction fuel using Nat.strongRecOn generalizing ps with
  | ind fuel ihfuel =>
      induction ps with
      | nil => exact ⟨[], .nil⟩
      | cons p ps ih =>
          obtain ⟨hp, hps⟩ := List.forall_mem_cons.1 h
          obtain ⟨qs', hqs'⟩ := ih hps
          cases p with
          | whole t => exact ⟨_, .leaf rfl hqs'⟩
          | rule path t => exact ⟨_, .leaf rfl hqs'⟩
          | fields t =>
              obtain ⟨less, name, args, item, asMap, fields, rfl, rfl, hplan, hfields⟩ :=
                Nests.exists_struct hp
              obtain ⟨qs, hqs⟩ := ihfuel less (Nat.lt_succ_self less) hfields
              exact ⟨_, .base hplan hqs hqs'⟩

theorem Leaves.isLeaf (h : Γ.Leaves ps qs) : ∀ q ∈ qs, q.isLeaf = true := by
  induction h with
  | nil => nofun
  | leaf hp _ ih => exact List.forall_mem_cons.2 ⟨hp, ih⟩
  | base _ _ _ ih ih' => exact List.forall_mem_append.2 ⟨ih, ih'⟩

theorem partCount_of_isLeaf {p : Part} (h : p.isLeaf = true) (fuel : Nat) :
    Γ.partCount fuel p = 1 := by
  cases p with
  | whole t => rfl
  | rule path t => rfl
  | fields t => cases h

/-- Parts are as many values as they have leaves. -/
theorem Leaves.sum_partCount (h : Γ.Leaves ps qs) (hnests : ∀ p ∈ ps, Γ.PartNests fuel p) :
    (ps.map (Γ.partCount fuel)).sum = qs.length := by
  induction h generalizing fuel with
  | nil => rfl
  | leaf hp _ ih =>
      rw [List.map_cons, List.sum_cons, partCount_of_isLeaf hp,
        ih (List.forall_mem_cons.1 hnests).2, List.length_cons, Nat.add_comm]
  | @base name args item asMap fields ps qs qs' hplan _ _ ih ih' =>
      obtain ⟨hbase, hps⟩ := List.forall_mem_cons.1 hnests
      cases fuel with
      | zero => cases hbase
      | succ fuel =>
          have hcount : Γ.partCount (fuel + 1) (.fields (.named name args)) = qs.length :=
            (readFields_struct fuel hplan).trans
              (ih fun p => partNests_of_nests hplan hbase)
          rw [List.map_cons, List.sum_cons, hcount, ih' hps, List.length_append]

/-! ## Values of leaves -/

/-- There is one value for each leaf. -/
theorem Leaves.length_eq (h : Γ.Leaves ps qs) (hvs : Γ.Spreads ps vs us) :
    us.length = qs.length := by
  induction h generalizing vs us with
  | nil =>
      cases hvs
      rfl
  | leaf hp _ ih =>
      cases hvs with
      | leaf _ hvs => rw [List.length_cons, List.length_cons, ih hvs]
      | base => cases hp
  | base hplan _ _ ih ih' =>
      cases hvs with
      | leaf hp => cases hp
      | base hplan' hws hvs =>
          cases hplan.symm.trans hplan'
          rw [List.length_append, List.length_append, ih hws, ih' hvs]

/-- The values of the leaves are determined by those of the parts. -/
theorem Spreads.unique {us' : List Value} (h : Γ.Spreads ps vs us) (h' : Γ.Spreads ps vs us') :
    us' = us := by
  induction h generalizing us' with
  | nil =>
      cases h'
      rfl
  | leaf hp _ ih =>
      cases h' with
      | leaf _ h' => rw [ih h']
      | base => cases hp
  | base hplan _ _ ih ih' =>
      cases h' with
      | leaf hp => cases hp
      | base hplan' hws hvs =>
          cases hplan.symm.trans hplan'
          rw [ih hws, ih' hvs]

/-- The values of the parts are determined by those of the leaves. -/
theorem Leaves.unique (h : Γ.Leaves ps qs) {vs' us' : List Value} (hvs : Γ.Spreads ps vs us)
    (hvs' : Γ.Spreads ps vs' us') (hus : us' = us) : vs' = vs := by
  induction h generalizing vs vs' us us' with
  | nil =>
      cases hvs
      cases hvs'
      rfl
  | leaf hp _ ih =>
      cases hvs with
      | leaf _ hvs =>
          cases hvs' with
          | leaf _ hvs' =>
              obtain ⟨hhead, htail⟩ := List.cons.inj hus
              rw [ih hvs hvs' htail, hhead]
          | base => cases hp
      | base => cases hp
  | base hplan hqs _ ih ih' =>
      cases hvs with
      | leaf hp => cases hp
      | base hplan₁ hws hvs =>
          cases hplan.symm.trans hplan₁
          cases hvs' with
          | leaf hp => cases hp
          | base hplan₂ hws' hvs' =>
              cases hplan.symm.trans hplan₂
              have hlen := (hqs.length_eq hws').trans (hqs.length_eq hws).symm
              obtain ⟨hfront, hback⟩ := List.append_inj hus hlen
              rw [ih hws hws' hfront, ih' hvs hvs' hback]

/-- Values for the leaves are put together to values of the parts in one way. -/
theorem Leaves.existsUnique_spreads (h : Γ.Leaves ps qs) (hus : us.length = qs.length) :
    ∃! vs, Γ.Spreads ps vs us := by
  suffices hexists : ∃ vs, Γ.Spreads ps vs us by
    obtain ⟨vs, hvs⟩ := hexists
    exact ⟨vs, hvs, fun vs' hvs' => h.unique hvs hvs' rfl⟩
  induction h generalizing us with
  | nil =>
      rw [List.eq_nil_of_length_eq_zero hus]
      exact ⟨[], .nil⟩
  | leaf hp _ ih =>
      obtain ⟨u, us, rfl⟩ := List.exists_cons_of_length_eq_add_one hus
      obtain ⟨vs, hvs⟩ := ih (Nat.succ.inj hus)
      exact ⟨_, .leaf hp hvs⟩
  | @base name args item asMap fields ps qs qs' hplan _ _ ih ih' =>
      rw [List.length_append] at hus
      have hfront : (us.take qs.length).length = qs.length := by
        rw [List.length_take]
        omega
      have hback : (us.drop qs.length).length = qs'.length := by
        rw [List.length_drop]
        omega
      obtain ⟨ws, hws⟩ := ih hfront
      obtain ⟨vs, hvs⟩ := ih' hback
      rw [← List.take_append_drop qs.length us]
      exact ⟨_, .base hplan hws hvs⟩

theorem spreads_of_zip (hlen : vs.length = ps.length)
    (h : ∀ q ∈ ps.zip vs, ∃ us, Γ.Spreads [q.1] [q.2] us) : ∃ us, Γ.Spreads ps vs us := by
  induction ps generalizing vs with
  | nil =>
      rw [List.eq_nil_of_length_eq_zero hlen]
      exact ⟨[], .nil⟩
  | cons p ps ih =>
      obtain ⟨v, vs, rfl⟩ := List.exists_cons_of_length_eq_add_one hlen
      rw [List.zip_cons_cons, List.forall_mem_cons] at h
      obtain ⟨us, hus⟩ := h.1
      obtain ⟨us', hus'⟩ := ih (Nat.succ.inj hlen) h.2
      cases hus with
      | leaf hp _ => exact ⟨_, .leaf hp hus'⟩
      | base hplan hws _ => exact ⟨_, .base hplan hws hus'⟩

/-- Whatever is made of fields has values for its leaves. -/
theorem Built.exists_spreads {P : Part → Value → Prop} {p : Part} {v : Value} (h : Γ.Built P p v) :
    ∃ us, Γ.Spreads [p] [v] us := by
  induction h with
  | whole _ => exact ⟨_, .leaf rfl .nil⟩
  | rule _ => exact ⟨_, .leaf rfl .nil⟩
  | base hplan hlen _ ih =>
      obtain ⟨us, hus⟩ := spreads_of_zip (by rw [List.length_map, hlen]) ih
      exact ⟨_, .base hplan hus .nil⟩

/-! ## Writing -/

theorem writeParts_append {ps' : List Part} {vs' : List Value} (hlen : vs.length = ps.length) :
    Γ.writeParts (ps ++ ps') (vs ++ vs') = (do
      Γ.writeParts ps vs
      Γ.writeParts ps' vs') := by
  induction ps generalizing vs with
  | nil =>
      rw [List.eq_nil_of_length_eq_zero hlen]
      rfl
  | cons p ps ih =>
      obtain ⟨v, vs, rfl⟩ := List.exists_cons_of_length_eq_add_one hlen
      simp only [List.cons_append, writeParts, ih (Nat.succ.inj hlen), bind_assoc]

/-- Parts are written as their leaves. -/
theorem Leaves.writeParts_eq (h : Γ.Leaves ps qs) (hvs : Γ.Spreads ps vs us) :
    Γ.writeParts ps vs = Γ.writeParts qs us := by
  induction h generalizing vs us with
  | nil =>
      cases hvs
      rfl
  | leaf hp _ ih =>
      cases hvs with
      | leaf _ hvs => rw [writeParts, writeParts, ih hvs]
      | base => cases hp
  | base hplan hqs _ ih ih' =>
      cases hvs with
      | leaf hp => cases hp
      | base hplan' hws hvs =>
          cases hplan.symm.trans hplan'
          rw [writeParts, writePart_fields hplan, ih hws, ih' hvs,
            writeParts_append (hqs.length_eq hws)]

end Schema

/-! ## Readers that correspond -/

namespace Reader

variable {α β γ δ : Type}

/-- From every stream the readers both succeed, with related values, or they both fail, with
related errors, and the streams are the same behind. -/
def Corresponds (Q : α → β → Prop) (E : StreamError → StreamError → Prop) (x : Reader α)
    (y : Reader β) : Prop :=
  ∀ r, (∃ a b r', x r = .ok a r' ∧ y r = .ok b r' ∧ Q a b) ∨
    ∃ e e' r', x r = .error e r' ∧ y r = .error e' r' ∧ E e e'

namespace Corresponds

variable {Q : α → β → Prop} {Q' : γ → δ → Prop} {E : StreamError → StreamError → Prop}
  {x : Reader α} {y : Reader β}

theorem same (hE : ∀ e, E e e) (x : Reader α) : Corresponds Eq E x x := by
  intro r
  cases hx : x r with
  | ok a r' => exact .inl ⟨a, a, r', rfl, rfl, rfl⟩
  | error e r' => exact .inr ⟨e, e, r', rfl, rfl, hE e⟩

theorem pure {a : α} {b : β} (h : Q a b) : Corresponds Q E (Pure.pure a) (Pure.pure b) :=
  fun r => .inl ⟨a, b, r, rfl, rfl, h⟩

theorem throw {e e' : StreamError} (h : E e e') :
    Corresponds Q E (MonadExcept.throw e) (MonadExcept.throw e') :=
  fun r => .inr ⟨e, e', r, rfl, rfl, h⟩

theorem bind {f : α → Reader γ} {g : β → Reader δ} (hx : Corresponds Q E x y)
    (hf : ∀ a b, Q a b → Corresponds Q' E (f a) (g b)) :
    Corresponds Q' E (x >>= f) (y >>= g) := by
  intro r
  rcases hx r with ⟨a, b, r', hxr, hyr, hab⟩ | ⟨e, e', r', hxr, hyr, he⟩
  · rw [bind_of_ok hxr, bind_of_ok hyr]
    exact hf a b hab r'
  · rw [bind_failed hxr, bind_failed hyr]
    exact .inr ⟨e, e', r', rfl, rfl, he⟩

theorem map {f : α → γ} {g : β → δ} (hx : Corresponds Q E x y)
    (h : ∀ a b, Q a b → Q' (f a) (g b)) : Corresponds Q' E (f <$> x) (g <$> y) := by
  rw [map_eq_pure_bind, map_eq_pure_bind]
  exact hx.bind fun a b hab => .pure (h a b hab)

end Corresponds

theorem each_append (read : α → Reader β) (as as' : List α) :
    each read (as ++ as') = (do
      let bs ← each read as
      let bs' ← each read as'
      Pure.pure (bs ++ bs')) := by
  induction as with
  | nil => simp [each]
  | cons a as ih => simp [each, ih]

end Reader

namespace Schema

variable {Γ : Schema} {ps qs : List Part} {fuel : Nat}

theorem readPart_of_isLeaf {p : Part} (h : p.isLeaf = true) (value : Ty → Reader Value)
    (fuel fuel' : Nat) : Γ.readPart value fuel p = Γ.readPart value fuel' p := by
  cases p with
  | whole t => rfl
  | rule path t => rfl
  | fields t => cases h

/-- Parts are read as their leaves. -/
theorem Leaves.corresponds {E : StreamError → StreamError → Prop} (hE : ∀ e, E e e)
    (h : Γ.Leaves ps qs) (hnests : ∀ p ∈ ps, Γ.PartNests fuel p) (value : Ty → Reader Value)
    (fuel' : Nat) :
    Reader.Corresponds (Γ.Spreads ps) E (Reader.each (Γ.readPart value fuel) ps)
      (Reader.each (Γ.readPart value fuel') qs) := by
  induction h generalizing fuel with
  | nil => exact .pure .nil
  | leaf hp _ ih =>
      rw [Reader.each, Reader.each, readPart_of_isLeaf hp value fuel fuel']
      refine (Reader.Corresponds.same hE _).bind fun v _ hv => ?_
      subst hv
      exact (ih (List.forall_mem_cons.1 hnests).2).bind fun vs us hvs => .pure (.leaf hp hvs)
  | base hplan _ _ ih ih' =>
      obtain ⟨hbase, hps⟩ := List.forall_mem_cons.1 hnests
      cases fuel with
      | zero => cases hbase
      | succ fuel =>
          rw [Reader.each, Reader.each_append, readPart, decodeFieldList_struct value fuel hplan,
            map_eq_pure_bind, bind_assoc]
          refine (ih fun p => partNests_of_nests hplan hbase).bind fun ws us hws => ?_
          rw [pure_bind]
          exact (ih' hps).bind fun vs us' hvs => .pure (.base hplan hws hvs)

/-! ## Structs without bases -/

/-- What decides how a part is written and read: of a field under a rule that there is, the type
does not matter. -/
def manner (Γ : Schema) : Part → Part
  | .rule path t => if (Γ.rule? path).isSome then .rule path .unit else .rule path t
  | p => p

theorem isLeaf_manner (p : Part) : (Γ.manner p).isLeaf = p.isLeaf := by
  cases p with
  | whole t => rfl
  | fields t => rfl
  | rule path t =>
      rw [manner]
      split <;> rfl

theorem writePart_manner (p : Part) (v : Value) : Γ.writePart (Γ.manner p) v = Γ.writePart p v := by
  cases p with
  | whole t => rfl
  | fields t => rfl
  | rule path t => cases hrule : Γ.rule? path <;> simp [manner, writePart, hrule]

theorem readPart_manner (value : Ty → Reader Value) (fuel : Nat) (p : Part) :
    Γ.readPart value fuel (Γ.manner p) = Γ.readPart value fuel p := by
  cases p with
  | whole t => rfl
  | fields t => rfl
  | rule path t => cases hrule : Γ.rule? path <;> simp [manner, readPart, hrule]

theorem writeParts_of_manner (h : ps.map Γ.manner = qs.map Γ.manner) (vs : List Value) :
    Γ.writeParts ps vs = Γ.writeParts qs vs := by
  have hmanner (ps : List Part) (vs : List Value) :
      Γ.writeParts (ps.map Γ.manner) vs = Γ.writeParts ps vs := by
    induction ps generalizing vs with
    | nil => rfl
    | cons p ps ih =>
        cases vs with
        | nil => rfl
        | cons v vs => rw [List.map_cons, writeParts, writeParts, writePart_manner, ih]
  rw [← hmanner ps, h, hmanner]

theorem each_of_manner (h : ps.map Γ.manner = qs.map Γ.manner) (value : Ty → Reader Value)
    (fuel : Nat) :
    Reader.each (Γ.readPart value fuel) ps = Reader.each (Γ.readPart value fuel) qs := by
  have hmanner (ps : List Part) : Reader.each (Γ.readPart value fuel) (ps.map Γ.manner) =
      Reader.each (Γ.readPart value fuel) ps := by
    rw [Reader.each_map]
    simp only [readPart_manner]
  rw [← hmanner ps, h, hmanner]

variable {name name' : String} {args args' : List Ty} {item item' : Item Ty} {asMap : Bool}
  {fields fields' : List (MarkedField Ty)} {leaves : List Part}

/-- A struct that has the leaves for its fields counts them. -/
theorem readFieldCount_of_manner (hplan : Γ.plan? name = some (item, .struct asMap fields))
    (hsame : (fields.map (MarkedField.part (arguments item args))).map Γ.manner =
      leaves.map Γ.manner) (hleaf : ∀ q ∈ leaves, q.isLeaf = true) :
    Γ.readFieldCount (.named name args) = leaves.length := by
  obtain ⟨fuel, hfuel⟩ := exists_baseDepth
  have hlen : fields.length = leaves.length := by
    simpa only [List.length_map] using congrArg List.length hsame
  have hparts : ∀ p ∈ fields.map (MarkedField.part (arguments item args)),
      Γ.partCount fuel p = 1 := by
    intro p hp
    obtain ⟨q, hq, hmanner⟩ := List.mem_map.1 (hsame ▸ List.mem_map_of_mem hp)
    refine partCount_of_isLeaf ?_ fuel
    rw [← isLeaf_manner p, ← hmanner, isLeaf_manner q]
    exact hleaf q hq
  rw [readFieldCount, hfuel, readFields_struct fuel hplan, sum_partCount hparts, List.length_map,
    hlen]

/-- A struct counts its leaves. -/
theorem Leaves.readFieldCount_eq (hplan : Γ.plan? name = some (item, .struct asMap fields))
    (hnests : Γ.Nests baseDepth (.named name args))
    (h : Γ.Leaves (fields.map (MarkedField.part (arguments item args))) leaves) :
    Γ.readFieldCount (.named name args) = leaves.length := by
  obtain ⟨fuel, hfuel⟩ := exists_baseDepth
  rw [hfuel] at hnests
  rw [readFieldCount, hfuel, readFields_struct fuel hplan]
  exact h.sum_partCount fun p => partNests_of_nests hplan hnests

/-- A struct that is framed as an array is written as its leaves behind a header. -/
theorem Leaves.encode_eq {vs us : List Value}
    (hplan : Γ.plan? name = some (item, .struct false fields))
    (hnests : Γ.Nests baseDepth (.named name args))
    (h : Γ.Leaves (fields.map (MarkedField.part (arguments item args))) leaves)
    (hvs : Γ.Spreads (fields.map (MarkedField.part (arguments item args))) vs us) :
    encode Γ (.named name args) (.list vs) = (do
      Writer.arrayHeader leaves.length
      Γ.writeParts leaves us) := by
  have hwrite : Γ.writePart (.whole (.named name args)) (.list vs) = _ := writePart_struct hplan
  rwa [if_neg Bool.false_ne_true, writtenFieldCount_eq, h.readFieldCount_eq hplan hnests,
    h.writeParts_eq hvs] at hwrite

end Schema

/-- The errors are the same, or say of one struct and of another that the number of fields is
wrong. -/
inductive StreamError.SameBut (struct struct' : String) : StreamError → StreamError → Prop
  | same (e : StreamError) : SameBut struct struct' e e
  | fieldCount (expected actual : Nat) : SameBut struct struct'
      (.structDecode (.fieldCount struct expected actual))
      (.structDecode (.fieldCount struct' expected actual))

namespace Schema

variable {Γ : Schema} {name name' : String} {args args' : List Ty} {item item' : Item Ty}
  {asMap : Bool} {fields fields' : List (MarkedField Ty)} {leaves : List Part}

/-- A struct is read as one that has its leaves for fields. -/
theorem Leaves.decodeStep_corresponds (hplan : Γ.plan? name = some (item, .struct false fields))
    (hnests : Γ.Nests baseDepth (.named name args))
    (h : Γ.Leaves (fields.map (MarkedField.part (arguments item args))) leaves)
    (hplan' : Γ.plan? name' = some (item', .struct false fields'))
    (hsame : (fields'.map (MarkedField.part (arguments item' args'))).map Γ.manner =
      leaves.map Γ.manner) (value : Ty → Reader Value) :
    Reader.Corresponds
      (fun v w => ∃ vs us, v = .list vs ∧ w = .list us ∧
        Γ.Spreads (fields.map (MarkedField.part (arguments item args))) vs us)
      (StreamError.SameBut item.name.name item'.name.name)
      (decodeStep Γ value (.named name args)) (decodeStep Γ value (.named name' args')) := by
  rw [decodeStep_struct value hplan, decodeStep_struct value hplan', if_neg Bool.false_ne_true,
    if_neg Bool.false_ne_true, h.readFieldCount_eq hplan hnests,
    readFieldCount_of_manner hplan' hsame h.isLeaf]
  refine (Reader.Corresponds.same .same _).bind fun count _ hcount => ?_
  subst hcount
  obtain ⟨fuel, hfuel⟩ := exists_baseDepth
  by_cases hlen : count = leaves.length
  · rw [if_pos hlen, if_pos hlen]
    rw [hfuel] at hnests ⊢
    rw [decodeFieldList_struct value fuel hplan, decodeFieldList_struct value fuel hplan',
      each_of_manner hsame]
    exact (h.corresponds .same (fun p => partNests_of_nests hplan hnests) value fuel).map
      fun vs us hvs => ⟨vs, us, rfl, rfl, hvs⟩
  · rw [if_neg hlen, if_neg hlen]
    exact .throw (.fieldCount _ _)

theorem Made.exists_spreads {P : Part → Value → Prop} {vs : List Value}
    (h : Γ.Made P item args (.list vs)) (hplan : Γ.plan? name = some (item, .struct asMap fields)) :
    ∃ us, Γ.Spreads (fields.map (MarkedField.part (arguments item args))) vs us := by
  have hfields := Item.marked_of_plan (plan_of_plan? hplan)
  cases h with
  | struct hdata hmarked hlen hparts =>
      rw [Item.fields, hdata, hmarked] at hfields
      cases hfields
      exact spreads_of_zip (by rw [List.length_map, hlen]) fun q hq =>
        (hparts q hq).exists_spreads

/-- A struct with its parts is flattened to the leaves: both counts are theirs, its values are
those of the leaves put together, its fields are written as the leaves in their order, and, unless
it is framed as a map, it is written and read as what has the leaves for its fields. -/
structure Flattens (Γ : Schema) (name : String) (args : List Ty) (item : Item Ty) (asMap : Bool)
    (parts leaves : List Part) : Prop where
  leaf : ∀ q ∈ leaves, q.isLeaf = true
  writtenFieldCount : Γ.writtenFieldCount (.named name args) = leaves.length
  readFieldCount : Γ.readFieldCount (.named name args) = leaves.length
  /-- The values of the leaves are found in every value that is made of fields. -/
  spread : ∀ P vs, Γ.Made P item args (.list vs) →
    ∃! us, us.length = leaves.length ∧ Γ.Spreads parts vs us
  gathered : ∀ us, us.length = leaves.length → ∃! vs, Γ.Spreads parts vs us
  encodeFields : ∀ vs us, Γ.Spreads parts vs us →
    encodeFields Γ (.named name args) (.list vs) = Γ.writeParts leaves us
  encode : asMap = false → ∀ vs us, Γ.Spreads parts vs us →
    encode Γ (.named name args) (.list vs) = (do
      Writer.arrayHeader leaves.length
      Γ.writeParts leaves us)
  tuple : asMap = false → ∀ ts, leaves = ts.map .whole → ∀ vs us, Γ.Spreads parts vs us →
    ObjectStream.encode Γ (.named name args) (.list vs) =
      ObjectStream.encode Γ (.tuple ts) (.list us)
  flat : asMap = false → ∀ name' args' item' fields',
    Γ.plan? name' = some (item', .struct false fields') →
    (fields'.map (MarkedField.part (arguments item' args'))).map Γ.manner = leaves.map Γ.manner →
    (∀ vs us, Γ.Spreads parts vs us → ObjectStream.encode Γ (.named name args) (.list vs) =
      ObjectStream.encode Γ (.named name' args') (.list us)) ∧
    Reader.Corresponds
      (fun v w => ∃ vs us, v = .list vs ∧ w = .list us ∧ Γ.Spreads parts vs us)
      (StreamError.SameBut item.name.name item'.name.name)
      (decode Γ (.named name args)) (decode Γ (.named name' args'))

/-- Every struct is flattened to its leaves, to which bases of any kind lead at any depth. -/
theorem exists_leaves_flattens (hplan : Γ.plan? name = some (item, .struct asMap fields))
    (hnests : Γ.Nests baseDepth (.named name args)) :
    (∃ leaves, Γ.Leaves (fields.map (MarkedField.part (arguments item args))) leaves) ∧
    ∀ leaves, Γ.Leaves (fields.map (MarkedField.part (arguments item args))) leaves →
      Γ.Flattens name args item asMap (fields.map (MarkedField.part (arguments item args)))
        leaves := by
  constructor
  · obtain ⟨fuel, hfuel⟩ := exists_baseDepth
    rw [hfuel] at hnests
    exact exists_leaves fun p => partNests_of_nests hplan hnests
  intro leaves h
  have hread := h.readFieldCount_eq hplan hnests
  refine ⟨h.isLeaf, (writtenFieldCount_eq Γ _).trans hread, hread, fun P vs hmade => ?_,
    fun us => h.existsUnique_spreads, fun vs us hvs => ?_, ?_, ?_, ?_⟩
  · obtain ⟨us, hus⟩ := hmade.exists_spreads hplan
    exact ⟨us, ⟨h.length_eq hus, hus⟩, fun us' hus' => hus.unique hus'.2⟩
  · exact (writePart_fields hplan).trans (h.writeParts_eq hvs)
  · rintro rfl vs us hvs
    exact h.encode_eq hplan hnests hvs
  · rintro rfl ts rfl vs us hvs
    have hlen : us.length = ts.length := by rw [h.length_eq hvs, List.length_map]
    have htuple : Γ.writePart (.whole (.tuple ts)) (.list us) = _ :=
      writePart_list (by rw [Schema.parts, if_pos hlen])
    rw [h.encode_eq hplan hnests hvs, List.length_map, ← hlen]
    exact htuple.symm
  · rintro rfl name' args' item' fields' hplan' hsame
    refine ⟨fun vs us hvs => ?_, fun r => h.decodeStep_corresponds hplan hnests hplan' hsame _ r⟩
    have hflat : Γ.writePart (.whole (.named name' args')) (.list us) = _ :=
      writePart_struct hplan'
    rw [if_neg Bool.false_ne_true, writtenFieldCount_eq,
      readFieldCount_of_manner hplan' hsame h.isLeaf, writeParts_of_manner hsame] at hflat
    exact (h.encode_eq hplan hnests hvs).trans hflat.symm

end Schema

/-! ## Bundles -/

namespace Sample

/-- The sample types with a bundle, whose bases are of every kind, and one bundle without bases. -/
def bundles : Schema where
  types := [
    struct "Bundle" (.named [field "seq" .u16, marked base "tagged" (type "Tagged"),
      marked base "marker" (type "Marker"), marked base "pair" (.named (home ++ "::Pair") [.u8]),
      marked base "config" (type "MapWith"), field "flag" .bool]),
    struct "FlatBundle" (.positional [part .u16, part .u32, part .u8, part .string, part .u8,
      part .u8, ⟨.u32, [withRule hexPath]⟩, part (type "Config"), part .bool])] ++ schema.types
  rules := schema.rules

def bundleParts : List Part :=
  [.whole .u16, .fields (type "Tagged"), .fields (type "Marker"),
    .fields (.named (home ++ "::Pair") [.u8]), .fields (type "MapWith"), .whole .bool]

def bundleLeaves : List Part :=
  [.whole .u16, .whole .u32, .whole .u8, .whole .string, .whole .u8, .whole .u8,
    .rule hexPath .u32, .whole (type "Config"), .whole .bool]

theorem nests_bundles {name : String} {args : List Ty} {item : Item Ty} {asMap : Bool}
    {fields : List (MarkedField Ty)}
    (hplan : bundles.plan? name = some (item, .struct asMap fields))
    (hbase : hasBase fields = false) (n : Nat) : bundles.Nests (n + 1) (.named name args) :=
  Schema.nests_of_partNests hplan fun _ => Schema.partNests_of_hasBase hbase n

/-- The header is a base of a base of the bundle. -/
theorem nests_bundle {item : Item Ty} {fields : List (MarkedField Ty)}
    (hplan : bundles.plan? (home ++ "::Bundle") = some (item, .struct false fields))
    (hparts : fields.map (MarkedField.part (Schema.arguments item [])) = bundleParts)
    (n : Nat) : bundles.Nests (n + 3) (type "Bundle") := by
  have hheader : bundles.Nests (n + 1) (type "Header") :=
    nests_bundles rfl rfl n
  have hmarker : bundles.Nests (n + 2) (type "Marker") :=
    nests_bundles rfl rfl (n + 1)
  have hpair : bundles.Nests (n + 2) (.named (home ++ "::Pair") [.u8]) :=
    nests_bundles rfl rfl (n + 1)
  have hconfig : bundles.Nests (n + 2) (type "MapWith") :=
    nests_bundles rfl rfl (n + 1)
  have htagged : bundles.Nests (n + 2) (type "Tagged") := by
    obtain ⟨_, _, htagged, hparts⟩ : ∃ item fields,
        bundles.plan? (home ++ "::Tagged") = some (item, .struct false fields) ∧
          fields.map (MarkedField.part (Schema.arguments item [])) =
            [.fields (type "Header"), .whole .string] := ⟨_, _, rfl, rfl⟩
    refine Schema.nests_of_partNests htagged ?_
    rw [hparts]
    simp only [List.forall_mem_cons]
    exact ⟨hheader, trivial, nofun⟩
  refine Schema.nests_of_partNests hplan ?_
  rw [hparts, bundleParts]
  simp only [List.forall_mem_cons]
  exact ⟨trivial, htagged, hmarker, hpair, hconfig, trivial, nofun⟩

def bundled : Value := .list [.scalar (.text "c"), .scalar (.int 2), .absent]

def bundle : List Value :=
  [.scalar (.int 9), .list [.list [.scalar (.int 7), .scalar (.int 1)], .scalar (.text "hi")],
    .list [], .list [.scalar (.int 3), .scalar (.int 4)], .list [.scalar (.int 255), bundled],
    .scalar (.bool true)]

def flatBundle : List Value :=
  [.scalar (.int 9), .scalar (.int 7), .scalar (.int 1), .scalar (.text "hi"), .scalar (.int 3),
    .scalar (.int 4), .scalar (.int 255), bundled, .scalar (.bool true)]

theorem leaves_bundle : bundles.Leaves bundleParts bundleLeaves := by
  change bundles.Leaves _ (.whole .u16 ::
    (([.whole .u32, .whole .u8] ++ [.whole .string]) ++ ([] ++ ([.whole .u8, .whole .u8] ++
      ([.rule hexPath .u32, .whole (type "Config")] ++ [.whole .bool])))))
  refine .leaf rfl (.base rfl (.base rfl ?header (.leaf rfl .nil)) (.base rfl .nil
    (.base rfl ?pair (.base rfl ?config (.leaf rfl .nil)))))
  case header | pair | config => exact .leaf rfl (.leaf rfl .nil)

theorem spreads_bundle : bundles.Spreads bundleParts bundle flatBundle := by
  change bundles.Spreads _ _ (.scalar (.int 9) ::
    (([.scalar (.int 7), .scalar (.int 1)] ++ [.scalar (.text "hi")]) ++ ([] ++
      ([.scalar (.int 3), .scalar (.int 4)] ++ ([.scalar (.int 255), bundled] ++
        [.scalar (.bool true)])))))
  refine .leaf rfl (.base rfl (.base rfl ?header (.leaf rfl .nil)) (.base rfl .nil
    (.base rfl ?pair (.base rfl ?config (.leaf rfl .nil)))))
  case header | pair | config => exact .leaf rfl (.leaf rfl .nil)

end Sample

/-- A bundle is flattened to its leaves, those of a tuple struct with a base of its own, a unit
struct, a generic struct and a struct that is framed as a map elsewhere. It is written as the
bundle without bases. -/
theorem flattens_bundle :
    ∃ item fields, Sample.bundles.plan? (Sample.home ++ "::Bundle") =
        some (item, .struct false fields) ∧
      Sample.bundles.Nests Schema.baseDepth (Sample.type "Bundle") ∧
      Sample.bundles.Flattens (Sample.home ++ "::Bundle") [] item false
        (fields.map (MarkedField.part (Schema.arguments item []))) Sample.bundleLeaves ∧
      encode Sample.bundles (Sample.type "Bundle") (.list Sample.bundle) =
        encode Sample.bundles (Sample.type "FlatBundle") (.list Sample.flatBundle) := by
  obtain ⟨item, fields, hplan, hparts⟩ : ∃ item fields,
      Sample.bundles.plan? (Sample.home ++ "::Bundle") = some (item, .struct false fields) ∧
        fields.map (MarkedField.part (Schema.arguments item [])) = Sample.bundleParts :=
    ⟨_, _, rfl, rfl⟩
  obtain ⟨flat, fields', hplan', hparts'⟩ : ∃ item fields,
      Sample.bundles.plan? (Sample.home ++ "::FlatBundle") = some (item, .struct false fields) ∧
        fields.map (MarkedField.part (Schema.arguments item [])) = Sample.bundleLeaves :=
    ⟨_, _, rfl, rfl⟩
  have hnests : Sample.bundles.Nests Schema.baseDepth (Sample.type "Bundle") := by
    obtain ⟨n, hn⟩ : ∃ n, Schema.baseDepth = n + 3 := ⟨2 ^ 32 - 3, rfl⟩
    rw [hn]
    exact Sample.nests_bundle hplan hparts n
  have hflattens := (Schema.exists_leaves_flattens hplan hnests).2 Sample.bundleLeaves
    (hparts ▸ Sample.leaves_bundle)
  obtain ⟨hencode, -⟩ := hflattens.flat rfl _ [] _ _ hplan' (congrArg _ hparts')
  exact ⟨item, fields, hplan, hnests, hflattens,
    hencode Sample.bundle Sample.flatBundle (hparts ▸ Sample.spreads_bundle)⟩

end ObjectStream
