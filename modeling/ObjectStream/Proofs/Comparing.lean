import ObjectStream.Proofs.Composed
import ObjectStream.Proofs.Rollback

/-!
# Comparing writers

Two writers of one value do the same, but for the type that they name when they refuse
it, or the bytes they write differ in some place. Once they do, nothing that is appended
makes them equal again, so the first difference decides.
-/

namespace ObjectStream

/-- In some place the streams hold different bytes. -/
def OutStream.Parted (s t : OutStream) : Prop :=
  ∃ (common : List UInt8) (a b : UInt8) (as bs : List UInt8), a ≠ b ∧
    unpacked s.sink.data = common ++ a :: as ∧ unpacked t.sink.data = common ++ b :: bs

theorem OutStream.Parted.symm {s t : OutStream} (h : s.Parted t) : t.Parted s := by
  obtain ⟨common, a, b, as, bs, hne, hleft, hright⟩ := h
  exact ⟨common, b, a, bs, as, hne.symm, hright, hleft⟩

theorem OutStream.Appended.unpacked_eq {s t : OutStream} (h : s.Appended t) :
    ∃ bytes, unpacked t.sink.data = unpacked s.sink.data ++ bytes := by
  obtain ⟨bytes, hbytes⟩ := h.sink
  exact ⟨unpacked bytes, by rw [hbytes, ByteSink.append, unpacked_append]⟩

/-- What is appended later does not change the bytes that differ. -/
theorem OutStream.Parted.append {s s' t t' : OutStream} (h : s.Parted t) (hs : s.Appended s')
    (ht : t.Appended t') : s'.Parted t' := by
  obtain ⟨common, a, b, as, bs, hne, hleft, hright⟩ := h
  obtain ⟨more, hmore⟩ := hs.unpacked_eq
  obtain ⟨more', hmore'⟩ := ht.unpacked_eq
  refine ⟨common, a, b, as ++ more, bs ++ more', hne, ?_, ?_⟩
  · rw [hmore, hleft, List.append_assoc, List.cons_append]
  · rw [hmore', hright, List.append_assoc, List.cons_append]

namespace Writer

variable {w x y x' y' : Writer Unit}

/-- The writers do the same, or both refuse a value that is none of the type. -/
def Alike (x y : Writer Unit) : Prop :=
  ∀ s, x s = y s ∨ ∃ t u s', x s = .error (.illTyped t) s' ∧ y s = .error (.illTyped u) s'

theorem Alike.refl (x : Writer Unit) : x.Alike x := fun _ => .inl rfl

theorem Alike.illTyped (t u : Ty) : (illTyped t).Alike (illTyped u) :=
  fun s => .inr ⟨t, u, s, rfl, rfl⟩

theorem Alike.symm (h : x.Alike y) : y.Alike x := by
  intro s
  rcases h s with hxy | ⟨t, u, s', hx, hy⟩
  · exact .inl hxy.symm
  · exact .inr ⟨u, t, s', hy, hx⟩

theorem Alike.trans {z : Writer Unit} (h : x.Alike y) (h' : y.Alike z) : x.Alike z := by
  intro s
  rcases h s with hxy | ⟨t, u, s', hx, hy⟩
  · rw [hxy]
    exact h' s
  · rcases h' s with hyz | ⟨t', u', s'', hy', hz⟩
    · exact .inr ⟨t, u, s', hx, hyz ▸ hy⟩
    · rw [hy] at hy'
      cases hy'
      exact .inr ⟨t, u', s', hx, hz⟩

theorem Alike.bind (h : x.Alike y) (h' : x'.Alike y') :
    Alike (x >>= fun _ => x') (y >>= fun _ => y') := by
  intro s
  simp only [Bind.bind, EStateM.bind]
  rcases h s with hxy | ⟨t, u, s', hx, hy⟩
  · rw [hxy]
    cases y s with
    | ok _ s' => exact h' s'
    | error e s' => exact .inl rfl
  · rw [hx, hy]
    exact .inr ⟨t, u, s', rfl, rfl⟩

theorem Alike.ok {s s' : OutStream} (h : x.Alike y) (hx : x s = .ok () s') : y s = .ok () s' := by
  rcases h s with hxy | ⟨t, u, s'', herror, -⟩
  · exact hxy ▸ hx
  · rw [hx] at herror
    cases herror

/-- If both writers succeed, they write different bytes. -/
def Parts (x y : Writer Unit) : Prop :=
  ∀ s s₁ s₂, x s = .ok () s₁ → y s = .ok () s₂ → s₁.Parted s₂

theorem Parts.symm (h : x.Parts y) : y.Parts x :=
  fun s s₁ s₂ hy hx => (h s s₂ s₁ hx hy).symm

/-- Nil and the null pointer differ in their first bytes. -/
theorem parts_nil : Writer.nil.Parts Writer.nullPointer := by
  intro s s₁ s₂ hnil hnull
  rw [nil_eq] at hnil
  rw [nullPointer_eq] at hnull
  obtain rfl := spell_ok hnil
  obtain rfl := spell_ok hnull
  have hleft : Form.nil s.context.byteOrder = Format.nil :: [] := rfl
  have hright : ∃ bs, Form.nullPointer s.context.byteOrder = 0x92 :: bs := ⟨_, rfl⟩
  obtain ⟨bs, hright⟩ := hright
  have hdata (bytes : List UInt8) : unpacked (s.append bytes).sink.data =
      unpacked s.sink.data ++ bytes := by
    rw [OutStream.append, ByteSink.append, unpacked_append, unpacked_packed]
  exact ⟨unpacked s.sink.data, Format.nil, 0x92, [], bs, by decide,
    by rw [hdata, hleft], by rw [hdata, hright]⟩

end Writer

open Writer

/-- The writers that come with types and fields are composed, and where the content of an option has
a way of its own to write what is absent, that can be told from nil. -/
structure Schema.Telling (Γ : Schema) : Prop where
  composed : Γ.Composed
  absent : ∀ t codec, Γ.codec? (.option t) = some codec →
    codec.write .absent = Writer.nil ∨ Writer.nil.Parts (codec.write .absent)

/-- The writers do the same if nothing is missed, and write different bytes otherwise. -/
structure Writer.Compares (Γ : Schema) (missed : Prop) (x y : Writer Unit) : Prop where
  alike : ¬ missed → x.Alike y
  parts : Γ.Telling → missed → x.Parts y

namespace Writer.Compares

variable {Γ : Schema} {missed missed' : Prop} {w x y x' y' : Writer Unit}

theorem of_alike (h : x.Alike y) (hmissed : ¬ missed) : Compares Γ missed x y :=
  ⟨fun _ => h, fun _ hm => absurd hm hmissed⟩

/-- Where both refuse the value, nothing is written that could differ. -/
theorem illTyped (t u : Ty) : Compares Γ missed (illTyped t) (illTyped u) :=
  ⟨fun _ => .illTyped t u, fun _ _ _ _ _ hx => by cases hx⟩

theorem congr (h : Compares Γ missed x y) (hiff : missed ↔ missed') : Compares Γ missed' x y :=
  ⟨fun hm => h.alike (mt hiff.1 hm), fun hΓ hm => h.parts hΓ (hiff.2 hm)⟩

theorem replace (h : Compares Γ missed x y) (hx : x'.Alike x) (hy : y'.Alike y) :
    Compares Γ missed x' y' where
  alike hm := (hx.trans (h.alike hm)).trans hy.symm
  parts hΓ hm s s₁ s₂ hs₁ hs₂ := h.parts hΓ hm s s₁ s₂ (hx.ok hs₁) (hy.ok hs₂)

/-- What comes first is written by both. -/
theorem behind (h : Compares Γ missed x y) :
    Compares Γ missed (w >>= fun _ => x) (w >>= fun _ => y) where
  alike hm := (Alike.refl w).bind (h.alike hm)
  parts hΓ hm s s₁ s₂ hx hy := by
    obtain ⟨_, t, hw, hxt⟩ := bind_ok hx
    obtain ⟨_, t', hw', hyt⟩ := bind_ok hy
    rw [hw] at hw'
    cases hw'
    exact h.parts hΓ hm t s₁ s₂ hxt hyt

/-- Bytes that differ at first differ in the end. -/
theorem seq (h : Compares Γ missed x y) (h' : Compares Γ missed' x' y')
    (hx' : Γ.Composed → x'.Composed) (hy' : Γ.Composed → y'.Composed) :
    Compares Γ (missed ∨ missed') (x >>= fun _ => x') (y >>= fun _ => y') where
  alike hm :=
    (h.alike fun hfirst => hm (.inl hfirst)).bind (h'.alike fun hlater => hm (.inr hlater))
  parts hΓ hm s s₁ s₂ hx hy := by
    obtain ⟨_, t, hxs, hxt⟩ := bind_ok hx
    obtain ⟨_, t', hys, hyt⟩ := bind_ok hy
    by_cases hfirst : missed
    · have hparted := h.parts hΓ hfirst s t t' hxs hys
      have hs₁ := (hx' hΓ.composed).appended t
      have hs₂ := (hy' hΓ.composed).appended t'
      rw [stateAfter_of_ok hxt] at hs₁
      rw [stateAfter_of_ok hyt] at hs₂
      exact hparted.append hs₁ hs₂
    · rw [(h.alike hfirst).ok hxs] at hys
      cases hys
      exact h'.parts hΓ (hm.resolve_left hfirst) t s₁ s₂ hxt hyt

section Lists

variable {M : Part → Part → Value → Prop} {S : Part → Part → Prop} {ps qs : List Part}
  {vs : List Value}

theorem composed_writeParts (ps : List Part) (vs : List Value) (hΓ : Γ.Composed) :
    (Γ.writeParts ps vs).Composed :=
  Schema.closed_writeParts Composed.closed (fun v _ p => Schema.composed_writePart hΓ p v) ps

/-- Values written in parts, one after the other, and written in other parts. -/
theorem writeParts (h : List.Forall₂ S ps qs)
    (hS : ∀ p q, S p q → ∀ v ∈ vs, Compares Γ (M p q v) (Γ.writePart p v) (Γ.writePart q v)) :
    Compares Γ (∃ x ∈ (ps.zip qs).zip vs, M x.1.1 x.1.2 x.2) (Γ.writeParts ps vs)
      (Γ.writeParts qs vs) := by
  induction h generalizing vs with
  | nil =>
      cases vs with
      | nil => exact .of_alike (.refl _) (by simp)
      | cons v vs => exact .illTyped _ _
  | @cons p q ps qs hpq _ ih =>
      cases vs with
      | nil => exact .illTyped _ _
      | cons v vs =>
          have hfirst := hS p q hpq v List.mem_cons_self
          have hrest := ih fun p q hpq w hw => hS p q hpq w (List.mem_cons_of_mem v hw)
          refine (hfirst.seq hrest (composed_writeParts ps vs)
            (composed_writeParts qs vs)).congr ?_
          simp only [List.zip_cons_cons, List.exists_mem_cons_iff]

theorem composed_writeEntries (ps : List (String × Part)) (vs : List Value) (hΓ : Γ.Composed) :
    (Γ.writeEntries ps vs).Composed :=
  Schema.closed_writeEntries Composed.closed (fun v _ p => Schema.composed_writePart hΓ p v) ps

/-- The same with the keys of the parts in between. -/
theorem writeEntries (h : List.Forall₂ S ps qs) {keys : List String}
    (hkeys : keys.length = ps.length)
    (hS : ∀ p q, S p q → ∀ v ∈ vs, Compares Γ (M p q v) (Γ.writePart p v) (Γ.writePart q v)) :
    Compares Γ (∃ x ∈ (ps.zip qs).zip vs, M x.1.1 x.1.2 x.2) (Γ.writeEntries (keys.zip ps) vs)
      (Γ.writeEntries (keys.zip qs) vs) := by
  induction h generalizing vs keys with
  | nil =>
      rw [List.zip_nil_right, List.zip_nil_right]
      cases vs with
      | nil => exact .of_alike (.refl _) (by simp)
      | cons v vs => exact .illTyped _ _
  | @cons p q ps qs hpq _ ih =>
      cases keys with
      | nil => cases hkeys
      | cons key keys =>
          cases vs with
          | nil => exact .illTyped _ _
          | cons v vs =>
              have hfirst := hS p q hpq v List.mem_cons_self
              have hrest := ih (Nat.succ.inj hkeys)
                fun p q hpq w hw => hS p q hpq w (List.mem_cons_of_mem v hw)
              refine ((hfirst.seq hrest (composed_writeEntries _ vs)
                (composed_writeEntries _ vs)).behind (w := Writer.str key)).congr ?_
              simp only [List.zip_cons_cons, List.exists_mem_cons_iff]

end Lists

end Writer.Compares

end ObjectStream
