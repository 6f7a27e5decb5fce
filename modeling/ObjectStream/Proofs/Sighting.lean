import ObjectStream.Proofs.Typing

/-!
# Sightings of shared objects

Facts about the order in which shared objects are first seen. Entering sightings
only ever extends the list of objects, and keeps it free of repetitions. An
object is not sighted within itself, as its value would have to be smaller than
itself.
-/

namespace ObjectStream

@[simp] theorem enterAll_nil (seen : List Identity) : enterAll seen [] = seen := rfl

theorem enterAll_cons (seen : List Identity) (id : Identity) (ids : List Identity) :
    enterAll seen (id :: ids) = enterAll (if id ∈ seen then seen else seen ++ [id]) ids := rfl

theorem enterAll_append (seen ids ids' : List Identity) :
    enterAll seen (ids ++ ids') = enterAll (enterAll seen ids) ids' :=
  List.foldl_append

theorem prefix_enterAll (seen ids : List Identity) : seen <+: enterAll seen ids := by
  induction ids generalizing seen with
  | nil => exact List.prefix_rfl
  | cons id ids ih =>
      rw [enterAll_cons]
      refine List.IsPrefix.trans ?_ (ih _)
      split
      · exact List.prefix_rfl
      · exact List.prefix_append seen [id]

theorem nodup_enterAll {seen : List Identity} (h : seen.Nodup) (ids : List Identity) :
    (enterAll seen ids).Nodup := by
  induction ids generalizing seen with
  | nil => exact h
  | cons a ids ih =>
      rw [enterAll_cons]
      apply ih
      split
      · exact h
      · next ha =>
          rw [List.nodup_append]
          refine ⟨h, by simp, ?_⟩
          intro x hx y hy
          rw [List.mem_singleton] at hy
          subst hy
          exact fun he => ha (he ▸ hx)

namespace Value

/-- What is sighted in a list is sighted in one of its values. -/
theorem exists_sighted {seen : List Identity} {vs : List Value} {id : Identity}
    (h : id ∈ sightingsIn seen vs) : ∃ v ∈ vs, ∃ seen', id ∈ sightings seen' v := by
  induction vs generalizing seen with
  | nil => simp [sightingsIn] at h
  | cons v vs ih =>
      rw [sightingsIn] at h
      rcases List.mem_append.1 h with h | h
      · exact ⟨v, List.mem_cons_self, seen, h⟩
      · obtain ⟨w, hw, seen', hid⟩ := ih h
        exact ⟨w, List.mem_cons_of_mem _ hw, seen', hid⟩

end Value

theorem getElem?_of_isPrefix {α : Type} {as bs : List α} (h : as <+: bs) {k : Nat} {a : α}
    (hk : as[k]? = some a) : bs[k]? = some a := by
  obtain ⟨tail, rfl⟩ := h
  rw [List.getElem?_append_left (List.getElem?_eq_some_iff.1 hk).1]
  exact hk

theorem exists_mem_zip {α β : Type} {as : List α} {bs : List β} {b : β}
    (hlen : as.length = bs.length) (hb : b ∈ bs) : ∃ a, (a, b) ∈ as.zip bs := by
  obtain ⟨i, hi, rfl⟩ := List.mem_iff_getElem.1 hb
  have hi' : i < as.length := hlen ▸ hi
  exact ⟨as[i], List.mem_iff_getElem.2 ⟨i, by simp [hlen, hi], by simp⟩⟩

variable {Γ : Schema} {c : Context} {H : Heap}

/-- Each object that is sighted within a value is smaller than the value. -/
def Value.Founded (H : Heap) (v : Value) : Prop :=
  ∀ seen, ∀ id ∈ v.sightings seen, sizeOf (H id).body < sizeOf v

namespace Value.Founded

variable {vs : List Value}

theorem of_plain {v : Value} (h : ∀ seen, v.sightings seen = []) : v.Founded H := by
  intro seen id hid
  rw [h] at hid
  cases hid

theorem sizeOf_lt (h : ∀ v ∈ vs, v.Founded H) {seen : List Identity} {id : Identity}
    (hid : id ∈ sightingsIn seen vs) : sizeOf (H id).body < sizeOf vs := by
  obtain ⟨v, hv, seen', hsight⟩ := exists_sighted hid
  exact Nat.lt_trans (h v hv seen' id hsight) (List.sizeOf_lt_of_mem hv)

theorem list (h : ∀ v ∈ vs, v.Founded H) : (Value.list vs).Founded H := by
  intro seen id hid
  have hlt := sizeOf_lt h hid
  simp only [Value.list.sizeOf_spec]
  omega

theorem variant (index : Nat) (h : ∀ v ∈ vs, v.Founded H) : (Value.variant index vs).Founded H := by
  intro seen id hid
  have hlt := sizeOf_lt h hid
  simp only [Value.variant.sizeOf_spec]
  omega

theorem present {v : Value} (h : v.Founded H) : (Value.present v).Founded H := by
  intro seen id hid
  have hlt := h seen id hid
  simp only [Value.present.sizeOf_spec]
  omega

theorem unique {type : Ty} {body : Value} (h : body.Founded H) :
    (Value.unique type body).Founded H := by
  intro seen id hid
  have hlt := h seen id hid
  simp only [Value.unique.sizeOf_spec]
  omega

theorem shared {id : Identity} {type : Ty} {body : Value} (hbody : (H id).body = body)
    (h : body.Founded H) : (Value.shared id type body).Founded H := by
  intro seen id' hid
  have hself : sizeOf (H id).body < sizeOf (Value.shared id type body) := by
    rw [hbody, Value.shared.sizeOf_spec]
    omega
  rw [sightings] at hid
  split at hid
  · rw [List.mem_singleton] at hid
    rw [hid]
    exact hself
  · rcases List.mem_cons.1 hid with rfl | hid
    · exact hself
    · have hlt := h _ id' hid
      rw [← hbody] at hlt
      exact Nat.lt_trans hlt hself

end Value.Founded

/-- An object that is sighted within a value of a type is smaller than the value. -/
theorem Fits.founded {key : Bool} {p : Part} {v : Value} (h : Fits Γ c H key p v) :
    v.Founded H := by
  have helements {ps : List Part} {vs : List Value} (hlen : ps.length = vs.length)
      (ih : ∀ q ∈ ps.zip vs, q.2.Founded H) : ∀ v ∈ vs, v.Founded H := by
    intro v hv
    obtain ⟨p, hp⟩ := exists_mem_zip hlen hv
    exact ih (p, v) hp
  induction h with
  | scalar | errorCode | absent | bare => exact .of_plain fun _ => rfl
  | custom _ _ hplain | rule _ _ hplain => exact .of_plain hplain
  | struct _ hlen _ ih => exact .list (helements (by simp [hlen]) ih)
  | list hparts _ ih => exact .list (helements (Schema.length_parts hparts) ih)
  | variant _ _ hlen _ ih => exact .variant _ (helements (by simp [hlen]) ih)
  | set _ _ _ ih => exact .list ih
  | map _ _ _ _ ihk ihv =>
      refine .list fun v hv => ?_
      obtain ⟨e, he, rfl⟩ := List.mem_map.1 hv
      refine .list ?_
      simp only [List.forall_mem_cons]
      exact ⟨ihk e he, ihv e he, by simp⟩
  | present _ _ ih => exact .present ih
  | shared hheap _ _ ih => exact .shared (by rw [hheap]) ih
  | unique _ _ ih => exact .unique ih

/-- An object is not sighted within itself. -/
theorem Fits.not_sighted {key : Bool} {t : Ty} {id : Identity} {pointee type : Ty} {body : Value}
    (hheap : H id = ⟨pointee, type, body⟩) (h : Fits Γ c H key (.whole t) body)
    (seen : List Identity) : id ∉ body.sightings seen := by
  intro hid
  have hlt := h.founded seen id hid
  rw [hheap] at hlt
  exact Nat.lt_irrefl _ hlt

end ObjectStream
