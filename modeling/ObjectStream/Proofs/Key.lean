import ObjectStream.Proofs.Inserting
import ObjectStream.Proofs.Typing

/-!
# Keys and tables

No order of keys sees the identities of shared objects or the wording of error
categories, so keys that differ in these alone are in the same places of a table.
A table built again from its elements is the list of the elements, up to the order
of a hashed table.
-/

namespace ObjectStream

namespace TableKind

/-- What no order of keys sees does not decide whether a list runs through a table. -/
theorem lists_of_erase {kind : TableKind} {o : KeyOrder} {keys us : List Value}
    (h : kind.Lists o keys) (hkeys : us.map Value.erase = keys.map Value.erase) :
    kind.Lists o us := by
  have htransfer (R : Ordering → Prop) (hvs : keys.Pairwise fun v w => R (o.compare v w)) :
      us.Pairwise fun v w => R (o.compare v w) := by
    have herased : (keys.map Value.erase).Pairwise fun v w => R (o.compare v w) := by
      rw [List.pairwise_map]
      simpa only [o.blind] using hvs
    rw [← hkeys, List.pairwise_map] at herased
    simpa only [o.blind] using herased
  cases kind with
  | ordered => exact htransfer (· = .lt) h
  | hashed | fastHashed | indexed => exact htransfer (· ≠ .eq) h

end TableKind

/-- A table built again from a list that runs through it is that list, up to the order of a hashed
table. -/
theorem Table.ofList_of_lists {α : Type} {R : TableRule α} (kind : TableKind) {o : KeyOrder}
    (key : α → Value) (hR : ∀ x y, R.compare x y = o.compare (key x) (key y)) {xs : List α}
    (h : kind.Lists o (xs.map key)) : xs.Perm ((collector R kind).ofList xs) ∧
      (kind.isHashed = false → xs = (collector R kind).ofList xs) := by
  have hdistinct (hne : (xs.map key).Pairwise fun v w => o.compare v w ≠ .eq) :
      Distinct R xs := by
    rw [List.pairwise_map] at hne
    exact hne.imp fun hxy => TableRule.same_of_ne (by rwa [hR])
  cases kind with
  | ordered =>
      have hsorted : xs.Pairwise fun x y => R.compare x y = .lt := by
        simpa only [TableKind.Lists, List.pairwise_map, ← hR] using h
      have hkind : TableKind.ordered.isSorted = true := rfl
      have heq := ofList_of_sorted hkind hsorted
      rw [heq]
      exact ⟨List.Perm.refl _, fun _ => rfl⟩
  | indexed =>
      have heq := ofList_indexed (hdistinct h)
      rw [heq]
      exact ⟨List.Perm.refl _, fun _ => rfl⟩
  | hashed | fastHashed => exact ⟨perm_ofList _ (hdistinct h), fun hhashed => by cases hhashed⟩

/-! ## Keys that are read back -/

/-- What is equal at each place of two lists is equal in the lists. -/
theorem map_eq_of_zip {α β γ : Type} (f : β → γ) (ps : List α) {vs ws : List β}
    (hlen : ps.length = vs.length) (hws : ws.length = vs.length)
    (h : ∀ q ∈ ps.zip (vs.zip ws), f q.2.2 = f q.2.1) : ws.map f = vs.map f := by
  refine List.ext_getElem (by simp [hws]) fun i hi hi' => ?_
  rw [List.length_map] at hi hi'
  have hp : i < ps.length := hlen ▸ hi'
  have hmem : (ps[i], vs[i], ws[i]) ∈ ps.zip (vs.zip ws) :=
    List.mem_iff_getElem.2 ⟨i, by simp [hlen, hws, hi'], by simp⟩
  rw [List.getElem_map, List.getElem_map]
  exact h _ hmem

/-- Lists are the same to the order of keys if what stands at each place is. -/
theorem eraseList_eq {α : Type} (ps : List α) {vs ws : List Value} {R : α → Value → Value → Prop}
    (hlen : ps.length = vs.length) (hws : ws.length = vs.length)
    (hsame : ∀ q ∈ ps.zip (vs.zip ws), R q.1 q.2.1 q.2.2)
    (ih : ∀ q ∈ ps.zip vs, ∀ w, R q.1 q.2 w → w.erase = q.2.erase) :
    Value.eraseList ws = Value.eraseList vs := by
  rw [Value.eraseList_eq_map, Value.eraseList_eq_map]
  refine map_eq_of_zip _ ps hlen hws fun q hq => ?_
  have hmem : (q.1, q.2.1) ∈ ps.zip vs := by
    obtain ⟨i, hi⟩ := List.mem_iff_getElem?.1 hq
    obtain ⟨hp, hvw⟩ := List.getElem?_zip_eq_some.1 hi
    exact List.mem_iff_getElem?.2
      ⟨i, List.getElem?_zip_eq_some.2 ⟨hp, (List.getElem?_zip_eq_some.1 hvw).1⟩⟩
  exact ih (q.1, q.2.1) hmem q.2.2 (hsame q hq)

theorem Schema.codec?_of_parts {Γ : Schema} {t : Ty} {n : Nat} {ps : List Part}
    (h : Γ.parts (.whole t) n = some ps) : Γ.codec? t = none := by
  cases t <;> simp [parts] at h <;> rfl

section Erased

variable {α : Type} (ps : List α) {vs ws : List Value} {R : α → Value → Value → Prop}

theorem erase_list (hlen : ps.length = vs.length) (hws : ws.length = vs.length)
    (hsame : ∀ q ∈ ps.zip (vs.zip ws), R q.1 q.2.1 q.2.2)
    (ih : ∀ q ∈ ps.zip vs, ∀ w, R q.1 q.2 w → w.erase = q.2.erase) :
    (Value.list ws).erase = (Value.list vs).erase := by
  rw [Value.erase, Value.erase, eraseList_eq ps hlen hws hsame ih]

theorem erase_variant (index : Nat) (hlen : ps.length = vs.length) (hws : ws.length = vs.length)
    (hsame : ∀ q ∈ ps.zip (vs.zip ws), R q.1 q.2.1 q.2.2)
    (ih : ∀ q ∈ ps.zip vs, ∀ w, R q.1 q.2 w → w.erase = q.2.erase) :
    (Value.variant index ws).erase = (Value.variant index vs).erase := by
  rw [Value.erase, Value.erase, eraseList_eq ps hlen hws hsame ih]

/-- Elements that are all of one kind. -/
theorem erase_elements {P : Value → Value → Prop} (hws : ws.length = vs.length)
    (hsame : ∀ q ∈ vs.zip ws, P q.1 q.2) (ih : ∀ v ∈ vs, ∀ w, P v w → w.erase = v.erase) :
    (Value.list ws).erase = (Value.list vs).erase :=
  erase_list (R := fun _ => P) vs rfl hws
    (fun q hq => hsame q.2 (List.of_mem_zip hq).2)
    fun q hq w hw => ih q.2 (List.of_mem_zip hq).2 w hw

end Erased

/-- Codes that name one error. -/
theorem erase_errorCode {a b : ErrorCode} (h : a.same b = true) :
    (Value.errorCode b).erase = (Value.errorCode a).erase := by
  rw [ErrorCode.same, Bool.and_eq_true, beq_iff_eq, beq_iff_eq] at h
  rw [Value.erase, Value.erase, h.1, h.2]

/-- A pair is the same as pairs of the same parts alone. -/
theorem Same.exists_pair {Γ : Schema} {ρ : Renaming} {t u : Ty} {e : Value × Value} {w : Value}
    (h : Same Γ ρ (.whole (.tuple [t, u])) (.ofPair e) w) :
    ∃ p : Value × Value, w = .ofPair p ∧ Same Γ ρ (.whole t) e.1 p.1 ∧
      Same Γ ρ (.whole u) e.2 p.2 := by
  cases h with
  | list hparts hlen hall =>
      cases hparts
      obtain ⟨a, b, rfl⟩ := List.length_eq_two.1 hlen
      exact ⟨(a, b), rfl, hall (.whole t, e.1, a) (by simp), hall (.whole u, e.2, b) (by simp)⟩
  | custom hcodec => cases hcodec

/-- A key is read back as one in the same place. -/
theorem Same.erase {Γ : Schema} {c : Context} {H : Heap} {ρ : Renaming}
    {p : Part} {v w : Value} (h : Fits Γ c H true p v) (hsame : Same Γ ρ p v w) :
    w.erase = v.erase := by
  -- what is in a table is a key in any case, and other parts are keys because the whole is one
  generalize hkey : true = key at h
  induction h generalizing w with
  | scalar _ _ => cases hsame <;> rfl
  | errorCode _ =>
      cases hsame with
      | errorCode hsame => exact erase_errorCode hsame
      | custom _ => rfl
  | list hparts _ ih =>
      cases hsame with
      | list hparts' hws hall =>
          rw [hparts] at hparts'
          cases hparts'
          exact erase_list _ (Schema.length_parts hparts) hws hall fun q hq w hw => ih q hq hw hkey
      | struct | set | map => cases hparts
      | custom _ => rfl
      | rule => rfl
  | struct hplan hlen _ ih =>
      cases hsame with
      | list hparts' _ _ => cases hparts'
      | struct hplan' hws hall =>
          rw [hplan] at hplan'
          cases hplan'
          exact erase_list _ (by simp [hlen]) hws hall fun q hq w hw => ih q hq hw hkey
      | custom _ => rfl
  | set hhashed _ _ ih =>
      cases hsame with
      | list hparts' _ _ => cases hparts'
      | set hlen hall _ heq =>
          rw [← heq (hhashed hkey.symm)]
          exact erase_elements hlen hall fun v hv w hw => ih v hv hw rfl
      | custom _ => rfl
  | map hhashed _ _ _ ihk ihv =>
      cases hsame with
      | list hparts' _ _ => cases hparts'
      | map hlen hall _ heq =>
          rw [← heq (hhashed hkey.symm)]
          refine erase_elements hlen hall fun v hv w hw => ?_
          obtain ⟨e, he, rfl⟩ := List.mem_map.1 hv
          obtain ⟨p, rfl, hk, hx⟩ := hw.exists_pair
          simp only [Value.ofPair, Value.erase, Value.eraseList, ihk e he hk rfl, ihv e he hx hkey]
      | custom _ => rfl
  | absent _ => cases hsame <;> rfl
  | present _ _ ih =>
      cases hsame with
      | present _ hsame => rw [Value.erase, Value.erase, ih hsame hkey]
      | custom _ => rfl
  | bare hplan hindex =>
      cases hsame with
      | bare _ => rfl
      | variant _ _ hws _ => rw [List.eq_nil_of_length_eq_zero hws]
      | custom _ => rfl
  | variant hplan hfields hlen _ ih =>
      cases hsame with
      | bare _ => rfl
      | variant hplan' hfields' hws hall =>
          rw [hplan] at hplan'
          cases hplan'
          rw [hfields] at hfields'
          cases hfields'
          exact erase_variant _ _ (by simp [hlen]) hws hall fun q hq w hw => ih q hq hw hkey
      | custom _ => rfl
  | shared hheap hmakes _ ih =>
      cases hsame with
      | shared _ hsame => rw [Value.erase, Value.erase, ih hsame hkey]
      | custom _ => rfl
  | unique hmakes _ ih =>
      cases hsame with
      | unique hsame => rw [Value.erase, Value.erase, ih hsame hkey]
      | custom _ => rfl
  | custom hcodec _ _ =>
      cases hsame with
      | list hparts _ _ => rw [Schema.codec?_of_parts hparts] at hcodec; cases hcodec
      | struct hplan _ _ | variant hplan _ _ _ =>
          rw [Schema.codec?_of_plan? hplan] at hcodec
          cases hcodec
      | errorCode hsame => exact erase_errorCode hsame
      | present hnone _ => rw [hnone] at hcodec; cases hcodec
      | set | map | shared | unique => cases hcodec
      | scalar | absent | bare | custom => rfl
  | rule hrule _ _ =>
      cases hsame with
      | list hparts' _ _ => cases hparts'
      | rule => rfl

end ObjectStream
