import ObjectStream.Proofs.Depth
import ObjectStream.Proofs.Reading

/-!
# What is carried from a writer to a reader

A writer carries to a reader what is in some relation to the value written: it
appends bytes, and in front of these bytes the reader goes over them and nothing
else, and returns such a value. The tables of shared objects may matter, so a
relation between them is kept. The reader need only do so where a bound on the
depth of nesting is enough for the bytes that are left, and behind a header a
smaller bound is.

Headers, parts in order and entries behind keys are carried if what is inside
of them is.
-/

namespace ObjectStream

/-- A relation between the table of a writer and that of a reader, with the identity that the next
object read will get. -/
abbrev TableRelation := Option WrittenTable → Option (Array Slot) → Identity → Prop

/-- If the writer succeeds, it has appended bytes. In front of these bytes, where `depth` is enough
for all that is left and the tables are related, the reader goes over exactly these bytes and
returns a value with a property, and the tables are related again. -/
def Carries {α : Type} (c : Context) (R : TableRelation) (depth : Nat) (x : Writer Unit)
    (y : Reader α) (Q : α → Prop) : Prop :=
  ∀ s s', s.context = c → x s = .ok () s' → s'.context = c ∧
    ∃ bytes, s'.sink = s.sink.append (packed bytes) ∧
      ∀ r tail, r.context = c → r.rest = bytes ++ tail → depthBound r.rest.length ≤ depth →
        R s.shared r.shared r.nextObject →
        ∃ a r', y r = .ok a r' ∧ Q a ∧ r'.context = c ∧ r'.cursor = r.cursor.skip bytes.length ∧
          R s'.shared r'.shared r'.nextObject

theorem depthBound_mono {m n : Nat} (h : m ≤ n) : depthBound m ≤ depthBound n :=
  Nat.mul_le_mul_left 2 (Nat.succ_le_succ h)

namespace Carries

variable {α β : Type} {c : Context} {R : TableRelation} {depth : Nat} {x x₁ x₂ : Writer Unit}
  {y : Reader α} {Q : α → Prop}

theorem pure {a : α} (h : Q a) : Carries c R depth (Pure.pure ()) (Pure.pure a) Q := by
  intro s s' hs hx
  cases hx
  refine ⟨hs, [], s.sink.append_nil.symm, fun r tail hr _ _ hR => ?_⟩
  exact ⟨a, r, rfl, h, hr, rfl, hR⟩

theorem imp {Q' : α → Prop} (h : Carries c R depth x y Q) (hQ : ∀ a, Q a → Q' a) :
    Carries c R depth x y Q' := by
  intro s s' hs hx
  obtain ⟨hs', bytes, hsink, hread⟩ := h s s' hs hx
  refine ⟨hs', bytes, hsink, fun r tail hr hrest hdepth hR => ?_⟩
  obtain ⟨a, r', hy, ha, hmore⟩ := hread r tail hr hrest hdepth hR
  exact ⟨a, r', hy, hQ a ha, hmore⟩

/-- A reader that does the same wherever the first one succeeds. -/
theorem extended {y' : Reader α} (h : Carries c R depth x y Q)
    (hy : ∀ r a r', depthBound r.rest.length ≤ depth → y r = .ok a r' → y' r = .ok a r') :
    Carries c R depth x y' Q := by
  intro s s' hs hx
  obtain ⟨hs', bytes, hsink, hread⟩ := h s s' hs hx
  refine ⟨hs', bytes, hsink, fun r tail hr hrest hdepth hR => ?_⟩
  obtain ⟨a, r', hyr, hmore⟩ := hread r tail hr hrest hdepth hR
  exact ⟨a, r', hy r a r' hdepth hyr, hmore⟩

/-- An action behind that leaves the stream alone. -/
theorem settle {g : α → Reader β} {Q' : β → Prop} (h : Carries c R depth x y Q)
    (hg : ∀ a, Q a → ∀ r, ∃ b, g a r = .ok b r ∧ Q' b) : Carries c R depth x (y >>= g) Q' := by
  intro s s' hs hx
  obtain ⟨hs', bytes, hsink, hread⟩ := h s s' hs hx
  refine ⟨hs', bytes, hsink, fun r tail hr hrest hdepth hR => ?_⟩
  obtain ⟨a, r', hy, ha, hmore⟩ := hread r tail hr hrest hdepth hR
  obtain ⟨b, hb, hQ'⟩ := hg a ha r'
  refine ⟨b, r', ?_, hQ', hmore⟩
  simp only [Bind.bind, EStateM.bind, hy, hb]

theorem map {Q' : β → Prop} (f : α → β) (h : Carries c R depth x y Q)
    (hQ : ∀ a, Q a → Q' (f a)) : Carries c R depth x (f <$> y) Q' := by
  rw [map_eq_pure_bind]
  exact h.settle fun a ha r => ⟨f a, rfl, hQ a ha⟩

/-- Bytes alone leave the tables as they are. -/
theorem conveys {lead : List UInt8 → Prop} {a : α} (h : Conveys c x lead y a) (ha : Q a) :
    Carries c R depth x y Q := by
  intro s s' hs hx
  obtain ⟨bytes, rfl, -, htakes⟩ := h s s' hs hx
  refine ⟨hs, bytes, rfl, fun r tail hr hrest _ hR => ?_⟩
  exact ⟨a, _, htakes r tail hr hrest, ha, hr, rfl, hR⟩

/-- One writer behind another. What is read second may depend on what is read first. -/
theorem seq [Nonempty α] {g : α → Reader β} {Q₂ : α → β → Prop} {Q' : β → Prop}
    (h₁ : Carries c R depth x₁ y Q) (h₂ : ∀ a, Carries c R depth x₂ (g a) (Q₂ a))
    (hQ : ∀ a b, Q a → Q₂ a b → Q' b) : Carries c R depth (do x₁; x₂) (y >>= g) Q' := by
  intro s s' hs hx
  obtain ⟨_, t, hx₁, hx₂⟩ := bind_ok hx
  obtain ⟨ht, p, hp, hread₁⟩ := h₁ s t hs hx₁
  obtain ⟨hs', q, hq, -⟩ := h₂ (Classical.arbitrary α) t s' ht hx₂
  refine ⟨hs', p ++ q, by rw [hq, hp, ByteSink.append_packed], fun r tail hr hrest hdepth hR => ?_⟩
  rw [List.append_assoc] at hrest
  obtain ⟨a, r₁, hy, ha, hr₁, hcursor₁, hR₁⟩ := hread₁ r (q ++ tail) hr hrest hdepth hR
  -- the bytes of the second writer are the same whatever is read first
  obtain ⟨-, q', hq', hread₂⟩ := h₂ a t s' ht hx₂
  obtain rfl : q' = q := ByteSink.append_injective (hq'.symm.trans hq)
  have hrest₁ : r₁.rest = q' ++ tail := by
    rw [InStream.rest, hcursor₁]
    exact InStream.rest_skip_append hrest
  have hle : r₁.rest.length ≤ r.rest.length := by
    rw [hrest₁, hrest]
    exact (List.sublist_append_right p _).length_le
  obtain ⟨b, r', hg, hb, hr', hcursor, hR'⟩ :=
    hread₂ r₁ tail hr₁ hrest₁ (Nat.le_trans (depthBound_mono hle) hdepth) hR₁
  refine ⟨b, r', ?_, hQ a b ha hb, hr', ?_, hR'⟩
  · simp only [Bind.bind, EStateM.bind, hy, hg]
  · rw [hcursor, hcursor₁, List.length_append]
    simp only [ByteCursor.skip, Nat.add_assoc]

/-- Behind a header a smaller bound is enough. -/
theorem behind {a : α} {g : α → Reader β} {Q' : β → Prop} (h₁ : Conveys c x₁ StartsValue y a)
    (h₂ : Carries c R depth x₂ (g a) Q') :
    Carries c R (depth + 1) (do x₁; x₂) (y >>= g) Q' := by
  intro s s' hs hx
  obtain ⟨_, t, hx₁, hx₂⟩ := bind_ok hx
  obtain ⟨p, rfl, hlead, htakes⟩ := h₁ s t hs hx₁
  obtain ⟨hs', q, hq, hread⟩ := h₂ (s.append p) s' hs hx₂
  refine ⟨hs', p ++ q, ?_, fun r tail hr hrest hdepth hR => ?_⟩
  · rw [hq, OutStream.append, ByteSink.append_packed]
  · rw [List.append_assoc] at hrest
    have hrest' := InStream.rest_skip_append hrest
    have hpos : 0 < p.length := List.length_pos_iff.2 hlead.ne_nil
    have hdepth' : depthBound (r.skip p.length).rest.length ≤ depth := by
      rw [hrest, List.length_append] at hdepth
      rw [hrest']
      simp only [depthBound] at hdepth ⊢
      omega
    obtain ⟨b, r', hg, hb, hr', hcursor, hR'⟩ := hread (r.skip p.length) tail hr hrest' hdepth' hR
    refine ⟨b, r', ?_, hb, hr', ?_, hR'⟩
    · simp only [Bind.bind, EStateM.bind, htakes r _ hr hrest, hg]
    · rw [hcursor, List.length_append]
      simp only [InStream.skip, ByteCursor.skip, Nat.add_assoc]

/-- A bound that is enough for less is enough. -/
theorem of_depth {depth' : Nat} (h : Carries c R depth x y Q) (hle : depth' ≤ depth) :
    Carries c R depth' x y Q := by
  intro s s' hs hx
  obtain ⟨hs', bytes, hsink, hread⟩ := h s s' hs hx
  exact ⟨hs', bytes, hsink, fun r tail hr hrest hdepth hR =>
    hread r tail hr hrest (Nat.le_trans hdepth hle) hR⟩

/-! ## Parts -/

section Parts

variable {Γ : Schema} {P : Part → Value → Value → Prop} {vs : List Value}

theorem parts {read : Part → Reader Value} {ps : List Part} (hlen : ps.length = vs.length)
    (h : ∀ q ∈ ps.zip vs, Carries c R depth (Γ.writePart q.1 q.2) (read q.1) (P q.1 q.2)) :
    Carries c R depth (Γ.writeParts ps vs) (Reader.each read ps) (PartByPart P ps vs) := by
  induction ps generalizing vs with
  | nil =>
      have hnil : vs = [] := List.eq_nil_of_length_eq_zero hlen.symm
      subst hnil
      exact pure PartByPart.nil
  | cons p ps ih =>
      cases vs with
      | nil => cases hlen
      | cons v vs =>
          rw [List.zip_cons_cons, List.forall_mem_cons] at h
          have hrest (w : Value) : Carries c R depth (Γ.writeParts ps vs)
              (do let ws ← Reader.each read ps; Pure.pure (w :: ws))
              fun us => ∃ ws, us = w :: ws ∧ PartByPart P ps vs ws := by
            rw [← map_eq_pure_bind]
            exact (ih (Nat.succ.inj hlen) h.2).map _ fun ws hws => ⟨ws, rfl, hws⟩
          refine seq h.1 hrest ?_
          rintro w us hw ⟨ws, rfl, hws⟩
          exact hws.cons hw

/-- The entries still to come fill the slots that are still empty. -/
theorem entries (struct : String) {value : Ty → Reader Value} {fuel : Nat}
    {σ : List (String × Ty)} {before after : List (MarkedField Ty)} {done : List Value}
    (hkeys : ((before ++ after).map MarkedField.key).Nodup)
    (hdone : done.length = before.length) (hlen : vs.length = after.length)
    (h : ∀ q ∈ (after.map (MarkedField.part σ)).zip vs,
      Carries c R depth (Γ.writePart q.1 q.2) (Γ.readPart value fuel q.1) (P q.1 q.2)) :
    Carries c R depth (Γ.writeEntries (after.map (Schema.entry σ)) vs)
      (decodeEntries struct ((before ++ after).map MarkedField.holder)
        (decodeField Γ value (decodeFieldList Γ value fuel) σ) after.length
        (done.map some ++ List.replicate after.length none))
      fun slots => ∃ ws, slots = (done ++ ws).map some ∧
        PartByPart P (after.map (MarkedField.part σ)) vs ws := by
  induction after generalizing before done vs with
  | nil =>
      have hnil : vs = [] := List.eq_nil_of_length_eq_zero hlen
      subst hnil
      exact pure ⟨[], by simp, PartByPart.nil⟩
  | cons f after ih =>
      cases vs with
      | nil => cases hlen
      | cons v vs =>
          rw [List.map_cons, List.zip_cons_cons, List.forall_mem_cons] at h
          obtain ⟨hindex, hholder⟩ := find_holder hkeys
          have hsplit : before ++ f :: after = (before ++ [f]) ++ after := by simp
          have hkeys' : (((before ++ [f]) ++ after).map MarkedField.key).Nodup := by
            rwa [← hsplit]
          have hdone' (w : Value) : (done ++ [w]).length = (before ++ [f]).length := by
            simp [hdone]
          have hrest (w : Value) := ih hkeys' (hdone' w) (Nat.succ.inj hlen) h.2
          refine of_depth (behind (Conveys.str f.key) ?_) (Nat.le_succ depth)
          simp only [hindex, hholder, MarkedField.holder, Schema.decodeField_eq]
          refine seq h.1 (fun w => ?_) fun w slots hw (hslots : ∃ ws,
            slots = (done ++ w :: ws).map some ∧
              PartByPart P (after.map (MarkedField.part σ)) vs ws) => ?_
          · have hslots := fill_slot done after.length w
            rw [← hdone, List.length_cons, hslots, hsplit]
            refine (hrest w).imp fun slots hslots => ?_
            obtain ⟨ws, rfl, hws⟩ := hslots
            exact ⟨ws, by simp, hws⟩
          · obtain ⟨ws, rfl, hws⟩ := hslots
            exact ⟨w :: ws, rfl, hws.cons hw⟩

end Parts

end Carries

end ObjectStream
