import ObjectStream.Proofs.ReadPointer

/-!
# Parts in order

Lists of parts, with and without keys in front of them. If each part is mirrored,
the list is, and what is read has a part for each part that was written. The
entries of a map-framed struct are read into slots that start empty; as each
name comes once, the slots are full at the end, in declared order.
-/

namespace ObjectStream

variable {Γ : Schema} {c : Context} {H : Heap}

def PartByPart (R : Part → Value → Value → Prop) (ps : List Part) (vs ws : List Value) : Prop :=
  ws.length = vs.length ∧ ∀ q ∈ ps.zip (vs.zip ws), R q.1 q.2.1 q.2.2

namespace PartByPart

variable {R : Part → Value → Value → Prop} {p : Part} {ps : List Part} {v w : Value}
  {vs ws : List Value}

theorem nil : PartByPart R ps [] [] := ⟨rfl, by simp⟩

theorem cons (h : R p v w) (hrest : PartByPart R ps vs ws) :
    PartByPart R (p :: ps) (v :: vs) (w :: ws) := by
  refine ⟨by rw [List.length_cons, List.length_cons, hrest.1], ?_⟩
  simp only [List.zip_cons_cons, List.forall_mem_cons]
  exact ⟨h, hrest.2⟩

end PartByPart

def SameAll (Γ : Schema) (ρ : Renaming) (ps : List Part) (vs ws : List Value) : Prop :=
  ws.length = vs.length ∧ ∀ q ∈ ps.zip (vs.zip ws), Same Γ ρ q.1 q.2.1 q.2.2

namespace SameAll

variable {ρ ρ' : Renaming} {p : Part} {ps : List Part} {v w : Value} {vs ws : List Value}

theorem nil : SameAll Γ ρ ps [] [] := PartByPart.nil

theorem cons (h : Same Γ ρ p v w) (hrest : SameAll Γ ρ ps vs ws) :
    SameAll Γ ρ (p :: ps) (v :: vs) (w :: ws) := PartByPart.cons h hrest

/-- What is read for equal parts, place by place. -/
theorem of_replicate (h : SameAll Γ ρ (List.replicate vs.length p) vs ws) :
    ws.length = vs.length ∧ ∀ q ∈ vs.zip ws, Same Γ ρ p q.1 q.2 := by
  refine ⟨h.1, fun q hq => ?_⟩
  have hlen : (List.replicate vs.length p).length = (vs.zip ws).length := by simp [h.1]
  obtain ⟨p', hp'⟩ := exists_mem_zip hlen hq
  have hp := List.eq_of_mem_replicate (List.of_mem_zip hp').1
  rw [← hp]
  exact h.2 _ hp'

end SameAll

/-- The sightings of a list are those of its first value and then those of the rest. -/
theorem sightBoth_sightings (v : Value) (vs : List Value) :
    sightBoth (fun seen => v.sightings seen) (fun seen => Value.sightingsIn seen vs) =
      fun seen => Value.sightingsIn seen (v :: vs) := by
  funext seen
  rw [Value.sightingsIn]
  rfl

namespace Writes

theorem parts {ps : List Part} {vs : List Value} (hlen : ps.length = vs.length)
    (h : ∀ q ∈ ps.zip vs, Writes c H (fun seen => q.2.sightings seen) (fun _ => True)
      (Γ.writePart q.1 q.2)) :
    Writes c H (fun seen => Value.sightingsIn seen vs) (fun _ => True) (Γ.writeParts ps vs) := by
  induction ps generalizing vs with
  | nil =>
      have hnil : vs = [] := List.eq_nil_of_length_eq_zero hlen.symm
      subst hnil
      exact pure
  | cons p ps ih =>
      cases vs with
      | nil => cases hlen
      | cons v vs =>
          rw [List.zip_cons_cons, List.forall_mem_cons] at h
          rw [← sightBoth_sightings]
          exact seq h.1 (ih (Nat.succ.inj hlen) h.2) fun _ _ _ _ => trivial

end Writes

namespace Mirrors

theorem parts {size : Nat} (read : Part → Reader Value) {ps : List Part} {vs : List Value}
    (hlen : ps.length = vs.length)
    (hw : ∀ q ∈ ps.zip vs, Writes c H (fun seen => q.2.sightings seen) (fun _ => True)
      (Γ.writePart q.1 q.2))
    (h : ∀ q ∈ ps.zip vs, Mirrors Γ c H size (fun seen => q.2.sightings seen)
      (Γ.writePart q.1 q.2) (read q.1) fun ρ w => Same Γ ρ q.1 q.2 w) :
    Mirrors Γ c H size (fun seen => Value.sightingsIn seen vs) (Γ.writeParts ps vs)
      (Reader.each read ps) fun ρ ws => SameAll Γ ρ ps vs ws := by
  induction ps generalizing vs with
  | nil =>
      have hnil : vs = [] := List.eq_nil_of_length_eq_zero hlen.symm
      subst hnil
      exact pure fun _ => SameAll.nil
  | cons p ps ih =>
      cases vs with
      | nil => cases hlen
      | cons v vs =>
          rw [List.zip_cons_cons, List.forall_mem_cons] at h hw
          rw [← sightBoth_sightings]
          have hrest (w : Value) : Mirrors Γ c H size (fun seen => Value.sightingsIn seen vs)
              (Γ.writeParts ps vs) (do let ws ← Reader.each read ps; Pure.pure (w :: ws))
              fun ρ us => ∃ ws, us = w :: ws ∧ SameAll Γ ρ ps vs ws := by
            rw [← map_eq_pure_bind]
            exact (ih (Nat.succ.inj hlen) hw.2 h.2).map _ fun ρ ws hws => ⟨ws, rfl, hws⟩
          refine seq hw.1 (Writes.parts (Nat.succ.inj hlen) hw.2) h.1 hrest ?_
          · rintro ρ ρ' w us hρ hw ⟨ws, rfl, hws⟩
            exact SameAll.cons (hw.mono hρ) hws

/-- An action behind that leaves the stream alone, and does not fail on what is right. -/
theorem settle {α β : Type} {size : Nat} {sight : List Identity → List Identity} {x : Writer Unit}
    {y : Reader α} {g : α → Reader β} {Q : Renaming → α → Prop} {Q' : Renaming → β → Prop}
    (h : Mirrors Γ c H size sight x y Q)
    (hstays : ∀ a r, (∃ b, g a r = .ok b r) ∨ ∃ e, g a r = .error e r)
    (hQ : ∀ ρ a, Q ρ a → ∃ b, (∀ r, g a r = .ok b r) ∧ Q' ρ b) :
    Mirrors Γ c H size sight x (y >>= g) Q' := by
  intro s s' bytes hs hx hwrote hsize W hW hW32 r tail hc htracks hrest
  have hy := h s s' bytes hs hx hwrote hsize W hW hW32 r tail hc htracks hrest
  simp only [bind, EStateM.bind]
  cases hres : y r with
  | error e r' =>
      rw [hres] at hy
      exact hy
  | ok a r' =>
      rw [hres] at hy
      obtain ⟨hcursor, hmoved, hright⟩ := hy
      dsimp only
      rcases hstays a r' with ⟨b, hb⟩ | ⟨e, he⟩
      · rw [hb]
        refine ⟨hcursor, hmoved, fun ha hstep => ?_⟩
        obtain ⟨ha', hfilled, hq⟩ := hright ha hstep
        obtain ⟨b', hb', hq'⟩ := hQ _ a hq
        rw [hb'] at hb
        cases hb
        exact ⟨ha', hfilled, hq'⟩
      · rw [he]
        refine ⟨⟨_, List.prefix_rfl, hmoved⟩, fun ha hstep => ?_⟩
        obtain ⟨_, _, hq⟩ := hright ha hstep
        obtain ⟨b, hb, _⟩ := hQ _ a hq
        rw [hb] at he
        cases he

/-- A pointer that is there is found. -/
theorem required {size : Nat} {sight : List Identity → List Identity} {x : Writer Unit}
    {y : Reader (Option Value)} {Q : Renaming → Value → Prop} (fault : TypeFault)
    (h : Mirrors Γ c H size sight x y fun ρ w? => ∃ w, w? = some w ∧ Q ρ w) :
    Mirrors Γ c H size sight x (Reader.required fault y) Q := by
  refine settle h (fun w? r => ?_) fun ρ w? hw => ?_
  · cases w? with
    | some w => exact .inl ⟨w, rfl⟩
    | none => exact .inr ⟨_, rfl⟩
  · obtain ⟨w, rfl, hq⟩ := hw
    exact ⟨w, fun _ => rfl, hq⟩

/-- A pointer that may be missing, but is not. -/
theorem optionOf {size : Nat} {sight : List Identity → List Identity} {x : Writer Unit}
    {y : Reader (Option Value)} {Q : Renaming → Value → Prop}
    (h : Mirrors Γ c H size sight x y fun ρ w? => ∃ w, w? = some w ∧ Q ρ w) :
    Mirrors Γ c H size sight x (Reader.optionOf y) fun ρ w => ∃ v, w = .present v ∧ Q ρ v := by
  refine settle h (fun w? r => ?_) fun ρ w? hw => ?_
  · cases w? with
    | some w => exact .inl ⟨_, rfl⟩
    | none => exact .inl ⟨_, rfl⟩
  · obtain ⟨w, rfl, hq⟩ := hw
    exact ⟨_, fun _ => rfl, w, rfl, hq⟩

end Mirrors

/-! ## Entries behind keys -/

namespace Schema

def writeEntries (Γ : Schema) : List (String × Part) → List Value → Writer Unit
  | (key, p) :: ps, v :: vs => do
      Writer.str key
      Γ.writePart p v
      writeEntries Γ ps vs
  | [], [] => pure ()
  | _, _ => illTyped .unit

def entry (σ : List (String × Ty)) (f : MarkedField Ty) : String × Part := (f.key, f.part σ)

theorem encodeSteps_entries (Γ : Schema) (σ : List (String × Ty)) (fields : List (MarkedField Ty))
    (vs : List Value) :
    encodeSteps Γ σ (fields.map MarkedField.entryStep) vs =
      Γ.writeEntries (fields.map (entry σ)) vs := by
  induction vs generalizing fields with
  | nil =>
      rw [encodeSteps]
      cases fields <;> rfl
  | cons v vs ih =>
      cases fields with
      | nil =>
          rw [List.map_nil, encodeSteps]
          rfl
      | cons f fields =>
          rw [List.map_cons, encodeSteps, ih fields]
          simp only [MarkedField.entryStep, encodeKey, List.map_cons, entry, writeEntries,
            writePart, MarkedField.part]
          cases f.writer with
          | value t => rfl
          | fields t => rfl
          | rule path t =>
              dsimp only
              cases Γ.rule? path <;> rfl

end Schema

namespace Writes

theorem entries {ps : List (String × Part)} {vs : List Value} (hlen : ps.length = vs.length)
    (h : ∀ q ∈ (ps.map Prod.snd).zip vs, Writes c H (fun seen => q.2.sightings seen)
      (fun _ => True) (Γ.writePart q.1 q.2)) :
    Writes c H (fun seen => Value.sightingsIn seen vs) (fun _ => True)
      (Γ.writeEntries ps vs) := by
  induction ps generalizing vs with
  | nil =>
      have hnil : vs = [] := List.eq_nil_of_length_eq_zero hlen.symm
      subst hnil
      exact pure
  | cons p ps ih =>
      cases vs with
      | nil => cases hlen
      | cons v vs =>
          rw [List.map_cons, List.zip_cons_cons, List.forall_mem_cons] at h
          have hrest : Writes c H (fun seen => Value.sightingsIn seen (v :: vs)) (fun _ => True)
              (do Γ.writePart p.2 v; Γ.writeEntries ps vs) := by
            rw [← sightBoth_sightings]
            exact seq h.1 (ih (Nat.succ.inj hlen) h.2) fun _ _ _ _ => trivial
          exact (behind (Conveys.str p.1) hrest).imp fun _ _ => trivial

end Writes

/-- A key is found at the place of its field. -/
theorem find_holder {before after : List (MarkedField Ty)} {f : MarkedField Ty}
    (hkeys : ((before ++ f :: after).map MarkedField.key).Nodup) :
    ((before ++ f :: after).map MarkedField.holder).findIdx? (·.key == f.key) =
        some before.length ∧
      ((before ++ f :: after).map MarkedField.holder).find? (·.key == f.key) =
        some f.holder := by
  rw [List.map_append, List.map_cons, List.nodup_append] at hkeys
  have hbefore (g : MarkedField Ty) (hg : g ∈ before) : (g.key == f.key) = false :=
    beq_eq_false_iff_ne.2 (hkeys.2.2 g.key (List.mem_map_of_mem hg) f.key List.mem_cons_self)
  constructor
  · rw [List.findIdx?_eq_some_iff_getElem]
    refine ⟨by simp, by simp [MarkedField.holder], fun j hj => ?_⟩
    have hj' : j < before.length := by simpa using hj
    simp only [List.getElem_map, List.getElem_append_left hj', MarkedField.holder]
    simpa using hbefore _ (List.getElem_mem hj')
  · rw [List.find?_map, List.find?_append]
    have hnone : before.find? ((fun h : Holder Ty => h.key == f.key) ∘ MarkedField.holder) =
        none := by
      rw [List.find?_eq_none]
      intro g hg
      simpa [MarkedField.holder] using hbefore g hg
    simp [hnone, MarkedField.holder]

/-- The first of the slots that are still empty is filled. -/
theorem fill_slot (done : List Value) (n : Nat) (w : Value) :
    (done.map some ++ List.replicate (n + 1) none).set done.length (some w) =
      (done ++ [w]).map some ++ List.replicate n none := by
  rw [List.replicate_succ, List.set_append_right _ _ (by simp)]
  simp

namespace Mirrors

/-- The entries still to come fill the slots that are still empty. -/
theorem entries {size : Nat} (struct : String) (value : Ty → Reader Value) (fuel : Nat)
    (σ : List (String × Ty)) {before after : List (MarkedField Ty)} {done vs : List Value}
    (hkeys : ((before ++ after).map MarkedField.key).Nodup)
    (hdone : done.length = before.length) (hlen : vs.length = after.length)
    (hw : ∀ q ∈ (after.map (MarkedField.part σ)).zip vs,
      Writes c H (fun seen => q.2.sightings seen) (fun _ => True) (Γ.writePart q.1 q.2))
    (h : ∀ q ∈ (after.map (MarkedField.part σ)).zip vs,
      Mirrors Γ c H size (fun seen => q.2.sightings seen) (Γ.writePart q.1 q.2)
        (Γ.readPart value fuel q.1) fun ρ w => Same Γ ρ q.1 q.2 w) :
    Mirrors Γ c H size (fun seen => Value.sightingsIn seen vs)
      (Γ.writeEntries (after.map (Schema.entry σ)) vs)
      (decodeEntries struct ((before ++ after).map MarkedField.holder)
        (decodeField Γ value (decodeFieldList Γ value fuel) σ) after.length
        (done.map some ++ List.replicate after.length none))
      fun ρ slots => ∃ ws, slots = (done ++ ws).map some ∧
        SameAll Γ ρ (after.map (MarkedField.part σ)) vs ws := by
  induction after generalizing before done vs size with
  | nil =>
      have hnil : vs = [] := List.eq_nil_of_length_eq_zero hlen
      subst hnil
      exact pure fun ρ => ⟨[], by simp, SameAll.nil⟩
  | cons f after ih =>
      cases vs with
      | nil => cases hlen
      | cons v vs =>
          rw [List.map_cons, List.zip_cons_cons, List.forall_mem_cons] at h hw
          obtain ⟨hindex, hholder⟩ := find_holder hkeys
          have hlen' : vs.length = after.length := Nat.succ.inj hlen
          have hsplit : before ++ f :: after = (before ++ [f]) ++ after := by simp
          have hentries : Writes c H (fun seen => Value.sightingsIn seen vs) (fun _ => True)
              (Γ.writeEntries (after.map (Schema.entry σ)) vs) :=
            Writes.entries (by simp [hlen']) (by rw [List.map_map]; exact hw.2)
          have hboth : Writes c H (sightBoth (fun seen => v.sightings seen)
              fun seen => Value.sightingsIn seen vs) (fun _ => True)
              (do Γ.writePart (f.part σ) v; Γ.writeEntries (after.map (Schema.entry σ)) vs) :=
            hw.1.seq hentries fun _ _ _ _ => trivial
          rw [← sightBoth_sightings]
          refine behind (Conveys.str f.key) hboth fun n hn => ?_
          simp only [hindex, hholder, MarkedField.holder, Schema.decodeField_eq]
          refine seq hw.1 hentries (h.1.of_size (Nat.le_of_lt hn)) (fun w => ?_)
            fun ρ ρ' w slots hρ hsame (hslots : ∃ ws, slots = (done ++ w :: ws).map some ∧
              SameAll Γ ρ' (after.map (MarkedField.part σ)) vs ws) => ?_
          · have hslots := fill_slot done after.length w
            have hkeys' : (((before ++ [f]) ++ after).map MarkedField.key).Nodup := by
              rwa [← hsplit]
            have hdone' : (done ++ [w]).length = (before ++ [f]).length := by simp [hdone]
            have hrest := ih hkeys' hdone' hlen' hw.2
              fun q hq => (h.2 q hq).of_size (Nat.le_of_lt hn)
            rw [← hdone, List.length_cons, hslots, hsplit]
            refine hrest.imp fun ρ slots hslots => ?_
            obtain ⟨ws, rfl, hws⟩ := hslots
            exact ⟨ws, by simp, hws⟩
          · obtain ⟨ws, rfl, hws⟩ := hslots
            exact ⟨w :: ws, rfl, SameAll.cons (hsame.mono hρ) hws⟩

end Mirrors

end ObjectStream
