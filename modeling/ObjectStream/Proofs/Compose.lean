import ObjectStream.Proofs.Mirror

/-!
# Composing mirrored actions

What writers write and what readers mirror is put together from the parts: one
behind another, a header in front, a list of parts in order.
-/

namespace ObjectStream

open InStream

/-! ## What is written -/

theorem ByteSink.append_injective {sink : ByteSink} {a b : List UInt8}
    (h : sink.append (packed a) = sink.append (packed b)) : a = b := by
  have hdata : unpacked (sink.data ++ packed a) = unpacked (sink.data ++ packed b) :=
    congrArg (fun s => unpacked s.data) h
  rw [unpacked_append, unpacked_append, unpacked_packed, unpacked_packed] at hdata
  exact List.append_cancel_left hdata

variable {Γ : Schema} {c : Context} {H : Heap}

namespace Wrote

theorem unique {ids ids' : List Identity} {a b : List UInt8} {s s' : OutStream}
    (h : Wrote c H ids a s s') (h' : Wrote c H ids' b s s') : a = b :=
  ByteSink.append_injective (h.sink.symm.trans h'.sink)

/-- A stream that does not track objects has no use for sightings. -/
theorem untracked {ids : List Identity} {bytes : List UInt8} {s s' : OutStream}
    (h : Wrote c H ids bytes s s') (htracks : s.tracks = false) (ids' : List Identity) :
    Wrote c H ids' bytes s s' where
  sink := h.sink
  coherent := h.coherent
  tracks := h.tracks
  entered := by
    rw [h.entered, OutStream.enteredWith, OutStream.enteredWith, htracks]
    rfl
  framed := by
    rw [htracks]
    intro htrue
    cases htrue

theorem trans {ids ids' : List Identity} {a b : List UInt8} {s t u : OutStream}
    (h : Wrote c H ids a s t) (h' : Wrote c H ids' b t u) :
    Wrote c H (ids ++ ids') (a ++ b) s u where
  sink := by
    rw [h'.sink, h.sink, ByteSink.append_append]
    congr 1
  coherent := h'.coherent
  tracks := h'.tracks.trans h.tracks
  entered := by
    rw [h'.entered, OutStream.enteredWith, OutStream.enteredWith, h.tracks, h.entered]
    cases htracks : s.tracks with
    | false => rfl
    | true => simp only [OutStream.enteredWith, htracks, if_true, enterAll_append]
  framed := by
    intro htracks
    have hb := h'.framed (h.tracks.trans htracks)
    rw [h.entered, OutStream.enteredWith, htracks, if_pos rfl] at hb
    exact (h.framed htracks).append hb

theorem bytes {s : OutStream} (hs : s.Coherent c H) (bytes : List UInt8) :
    Wrote c H [] bytes s (s.append bytes) where
  sink := rfl
  coherent := ⟨hs.context, hs.nodup, hs.found, hs.known⟩
  tracks := rfl
  entered := by
    unfold OutStream.enteredWith
    cases htracks : s.tracks with
    | true => rfl
    | false => exact OutStream.entered_of_not_tracks htracks
  framed := fun _ => .plain _ bytes

theorem entered_grows {ids : List Identity} {bytes : List UInt8} {s s' : OutStream}
    (h : Wrote c H ids bytes s s') : s.entered <+: s'.entered := by
  rw [h.entered]
  exact s.prefix_enteredWith ids

end Wrote

def sightBoth (sight₁ sight₂ : List Identity → List Identity) (seen : List Identity) :
    List Identity :=
  sight₁ seen ++ sight₂ (enterAll seen (sight₁ seen))

namespace Writes

variable {sight sight₁ sight₂ : List Identity → List Identity}
  {lead lead₁ lead₂ : List UInt8 → Prop} {x x₁ x₂ : Writer Unit}

theorem imp (h : Writes c H sight lead₁ x) (hlead : ∀ bytes, lead₁ bytes → lead bytes) :
    Writes c H sight lead x := by
  intro s s' hs hx
  obtain ⟨bytes, hbytes, hwrote⟩ := h s s' hs hx
  exact ⟨bytes, hlead bytes hbytes, hwrote⟩

/-- Only the runs of a writer that succeed matter. -/
theorem of_ok (h : Writes c H sight lead x₁)
    (hok : ∀ s s', s.context = c → x s = .ok () s' → x₁ s = .ok () s') :
    Writes c H sight lead x :=
  fun s s' hs hx => h s s' hs (hok s s' hs.context hx)

theorem conveys {α : Type} {y : Reader α} {a : α} (h : Conveys c x lead y a) :
    Writes c H (fun _ => []) lead x := by
  intro s s' hs hx
  obtain ⟨bytes, rfl, hlead, _⟩ := h s s' hs.context hx
  exact ⟨bytes, hlead, Wrote.bytes hs bytes⟩

theorem pure : Writes c H (fun _ => []) (fun _ => True) (Pure.pure ()) :=
  (conveys (Conveys.nothing ())).imp fun _ _ => trivial

theorem seq (h₁ : Writes c H sight₁ lead₁ x₁) (h₂ : Writes c H sight₂ lead₂ x₂)
    (hlead : ∀ a b, lead₁ a → lead₂ b → lead (a ++ b)) :
    Writes c H (sightBoth sight₁ sight₂) lead (do x₁; x₂) := by
  intro s s' hs hx
  obtain ⟨_, t, hx₁, hx₂⟩ := bind_ok hx
  obtain ⟨a, ha, hw₁⟩ := h₁ s t hs hx₁
  obtain ⟨b, hb, hw₂⟩ := h₂ t s' hw₁.coherent hx₂
  refine ⟨a ++ b, hlead a b ha hb, ?_⟩
  have hboth := hw₁.trans hw₂
  cases htracks : s.tracks with
  | false => exact hboth.untracked htracks _
  | true =>
      rw [hw₁.entered, OutStream.enteredWith, htracks, if_pos rfl] at hboth
      exact hboth

/-- A header in front. -/
theorem behind {α : Type} {y : Reader α} {a : α} (h₁ : Conveys c x₁ StartsValue y a)
    (h₂ : Writes c H sight lead₂ x₂) : Writes c H sight StartsValue (do x₁; x₂) := by
  have hboth : Writes c H (sightBoth (fun _ => []) sight) StartsValue (do x₁; x₂) :=
    seq (Writes.conveys h₁) h₂ fun a b ha _ => ha.append b
  exact hboth

end Writes

/-! ## What is read -/

namespace Outcome

variable {α β : Type} {W : List Identity} {s t u : OutStream} {ids ids' : List Identity}
  {a b : List UInt8} {Q : Renaming → α → Prop} {r : InStream}

theorem imp {Q' : Renaming → α → Prop} (hQ : ∀ ρ x, Q ρ x → Q' ρ x)
    {result : EStateM.Result StreamError InStream α}
    (h : Outcome Γ c H W s t ids a Q r result) : Outcome Γ c H W s t ids a Q' r result := by
  cases result with
  | error e r' => exact h
  | ok x r' =>
      obtain ⟨hcursor, hmoved, hright⟩ := h
      refine ⟨hcursor, hmoved, fun ha hstep => ?_⟩
      obtain ⟨ha', hfilled, hx⟩ := hright ha hstep
      exact ⟨ha', hfilled, hQ _ _ hx⟩

theorem map (f : α → β) {y : Reader α} {Q' : Renaming → β → Prop} {r' : InStream}
    (h : Outcome Γ c H W s t ids a Q r (y r')) (hQ : ∀ ρ x, Q ρ x → Q' ρ (f x)) :
    Outcome Γ c H W s t ids a Q' r ((f <$> y) r') := by
  simp only [Functor.map, EStateM.map]
  cases hres : y r' with
  | error e r'' =>
      rw [hres] at h
      exact h
  | ok x r'' =>
      rw [hres] at h
      obtain ⟨hcursor, hmoved, hright⟩ := h
      refine ⟨hcursor, hmoved, fun ha hstep => ?_⟩
      obtain ⟨ha', hfilled, hq⟩ := hright ha hstep
      exact ⟨ha', hfilled, hQ _ _ hq⟩

/-- Bytes in front that are taken without a look at the table. -/
theorem behind {y : Reader α} {x : α} {g : α → Reader β} {Q : Renaming → β → Prop}
    {tail : List UInt8} (hy : Reader.Takes c y a x) (hc : r.context = c)
    (hrest : r.rest = a ++ tail)
    (h : Outcome Γ c H W (s.append a) t ids b Q (r.skip a.length) (g x (r.skip a.length))) :
    Outcome Γ c H W s t ids (a ++ b) Q r ((y >>= g) r) := by
  simp only [bind, EStateM.bind, hy r tail hc hrest]
  cases hres : g x (r.skip a.length) with
  | error e r' =>
      rw [hres] at h
      obtain ⟨⟨tags, hpre, hmoved⟩, hwrong⟩ := h
      refine ⟨⟨tags, hpre, hmoved.of_skip⟩, fun ha hstep => ?_⟩
      exact hwrong (ha.of_slots rfl rfl (Nat.le_refl _)) hstep
  | ok b r' =>
      rw [hres] at h
      obtain ⟨hcursor, hmoved, hright⟩ := h
      refine ⟨?_, hmoved.of_skip, fun ha hstep => ?_⟩
      · rw [hcursor, List.length_append]
        simp [InStream.skip, ByteCursor.skip, Nat.add_assoc]
      · exact hright (ha.of_slots rfl rfl (Nat.le_refl _)) hstep

/-- What the whole asks of the table, the first part asks of it as well. -/
theorem inStep_left (h : s.entered <+: t.entered) (h' : t.entered <+: u.entered)
    (hstep : InStep s u r) : InStep s t r := by
  have hlen := h.length_le
  have hlen' := h'.length_le
  rcases hstep with hstep | hstep
  · exact .inl hstep
  · exact .inr (by omega)

theorem inStep_right (h : s.entered <+: t.entered) (h' : t.entered <+: u.entered)
    {r' : InStream} (hmoved : Moved r r' (s.newTags c H t))
    (hstep : InStep s u r) : InStep t u r' := by
  have hlen := h.length_le
  have hlen' := h'.length_le
  have hcount := hmoved.count
  rw [OutStream.length_newTags] at hcount
  rcases hstep with hstep | hstep
  · exact .inl (by omega)
  · exact .inr (by omega)

/-- What the second part refers to was read before the first part or in it. -/
theorem resolves_right {sight₁ sight₂ : List Identity → List Identity}
    (hwrote : Wrote c H (sight₁ s.entered) a s t) {r' : InStream} {tags : List TypeTag}
    (hmoved : Moved r r' tags)
    (hfilled : ∀ k, s.entered.length ≤ k → k < t.entered.length →
      ∃ object, r'.held? k = some object)
    (h : Resolves s (sightBoth sight₁ sight₂ s.entered) r) :
    Resolves t (sight₂ t.entered) r' := by
  intro id hid k hk
  by_cases hlt : k < s.entered.length
  · have hbefore : s.entered[k]? = some id := by
      have hlater := getElem?_of_isPrefix hwrote.entered_grows (List.getElem?_eq_getElem hlt)
      rw [hk] at hlater
      rw [List.getElem?_eq_getElem hlt, hlater]
    have hboth : id ∈ sightBoth sight₁ sight₂ s.entered := by
      cases htracks : s.tracks with
      | false =>
          rw [OutStream.entered_of_not_tracks htracks] at hlt
          cases hlt
      | true =>
          rw [hwrote.entered, OutStream.enteredWith, htracks, if_pos rfl] at hid
          exact List.mem_append_right _ hid
    obtain ⟨object, hobject⟩ := h id hboth k hbefore
    exact ⟨object, held?_of_grows hmoved.slots hobject⟩
  · exact hfilled k (Nat.le_of_not_lt hlt) (List.getElem?_eq_some_iff.1 hk).1

/-- One part behind another, whatever the first returns. -/
theorem seq {sight₁ sight₂ : List Identity → List Identity} {y : Reader α} {g : α → Reader β}
    {Q₁ : Renaming → α → Prop} {Q₂ : α → Renaming → β → Prop} {Q : Renaming → β → Prop}
    (hwrote₁ : Wrote c H (sight₁ s.entered) a s t) (hwrote₂ : Wrote c H (sight₂ t.entered) b t u)
    (h₁ : Outcome Γ c H W s t (sight₁ s.entered) a Q₁ r (y r))
    (h₂ : ∀ x r', r'.cursor = r.cursor.skip a.length →
      Moved r r' (s.newTags c H t) →
      Outcome Γ c H W t u (sight₂ t.entered) b (Q₂ x) r' (g x r'))
    (hQ : ∀ (ρ ρ' : Renaming) x z, (∀ id object, ρ id object → ρ' id object) → Q₁ ρ x → Q₂ x ρ' z →
      Q ρ' z) :
    Outcome Γ c H W s u (sightBoth sight₁ sight₂ s.entered) (a ++ b) Q r ((y >>= g) r) := by
  have hpre₁ := hwrote₁.entered_grows
  have hpre₂ := hwrote₂.entered_grows
  have hnew := OutStream.newTags_trans c H hpre₁ hpre₂
  have hresolves₁ : Resolves s (sightBoth sight₁ sight₂ s.entered) r →
      Resolves s (sight₁ s.entered) r :=
    fun h id hid => h id (List.mem_append_left _ hid)
  simp only [bind, EStateM.bind]
  cases hres₁ : y r with
  | error e r₁ =>
      rw [hres₁] at h₁
      obtain ⟨⟨tags, hpre, hmoved⟩, hwrong⟩ := h₁
      refine ⟨⟨tags, hnew ▸ hpre.trans (List.prefix_append _ _), hmoved⟩, fun ha hstep => ?_⟩
      obtain ⟨ha', hnot⟩ := hwrong ha (inStep_left hpre₁ hpre₂ hstep)
      exact ⟨ha', fun hresolves => hnot (hresolves₁ hresolves)⟩
  | ok x r₁ =>
      rw [hres₁] at h₁
      obtain ⟨hcursor₁, hmoved₁, hright₁⟩ := h₁
      have hread₂ := h₂ x r₁ hcursor₁ hmoved₁
      dsimp only
      cases hres₂ : g x r₁ with
      | error e r₂ =>
          rw [hres₂] at hread₂
          obtain ⟨⟨tags, hpre, hmoved₂⟩, hwrong⟩ := hread₂
          have hpre' : s.newTags c H t ++ tags <+: s.newTags c H u := by
            rw [hnew]
            exact (List.prefix_append_right_inj _).2 hpre
          refine ⟨⟨_, hpre', hmoved₁.trans hmoved₂⟩, fun ha hstep => ?_⟩
          obtain ⟨ha₁, hfilled, _⟩ := hright₁ ha (inStep_left hpre₁ hpre₂ hstep)
          obtain ⟨ha₂, hnot⟩ := hwrong ha₁ (inStep_right hpre₁ hpre₂ hmoved₁ hstep)
          exact ⟨ha₂, fun hresolves => hnot (resolves_right hwrote₁ hmoved₁ hfilled hresolves)⟩
      | ok z r₂ =>
          rw [hres₂] at hread₂
          obtain ⟨hcursor₂, hmoved₂, hright₂⟩ := hread₂
          refine ⟨?_, ?_, fun ha hstep => ?_⟩
          · rw [hcursor₂, hcursor₁, List.length_append]
            simp [ByteCursor.skip, Nat.add_assoc]
          · rw [hnew]
            exact hmoved₁.trans hmoved₂
          · obtain ⟨ha₁, hfilled₁, hq₁⟩ := hright₁ ha (inStep_left hpre₁ hpre₂ hstep)
            obtain ⟨ha₂, hfilled₂, hq₂⟩ := hright₂ ha₁ (inStep_right hpre₁ hpre₂ hmoved₁ hstep)
            refine ⟨ha₂, fun k hlow hhigh => ?_, hQ _ _ x z (fun _ _ => hmoved₂.bond) hq₁ hq₂⟩
            by_cases hk : k < t.entered.length
            · obtain ⟨object, hobject⟩ := hfilled₁ k hlow hk
              exact ⟨object, held?_of_grows hmoved₂.slots hobject⟩
            · exact hfilled₂ k (Nat.le_of_not_lt hk) hhigh

end Outcome

theorem InStream.rest_of_cursor {r r' : InStream} {bytes tail : List UInt8}
    (hcursor : r'.cursor = r.cursor.skip bytes.length) (hrest : r.rest = bytes ++ tail) :
    r'.rest = tail := by
  have hskip : r'.rest = (r.skip bytes.length).rest := by
    rw [InStream.rest, hcursor]
    rfl
  rw [hskip]
  exact InStream.rest_skip_append hrest

namespace Mirrors

variable {α β : Type} {size : Nat} {sight sight₁ sight₂ : List Identity → List Identity}
  {x x₁ x₂ : Writer Unit} {y : Reader α} {Q : Renaming → α → Prop}

theorem imp {Q' : Renaming → α → Prop} (h : Mirrors Γ c H size sight x y Q)
    (hQ : ∀ ρ a, Q ρ a → Q' ρ a) : Mirrors Γ c H size sight x y Q' := by
  intro s s' bytes hs hx hwrote hsize W hW hW32 r tail hc htracks hrest
  exact (h s s' bytes hs hx hwrote hsize W hW hW32 r tail hc htracks hrest).imp hQ

theorem of_ok (h : Mirrors Γ c H size sight x₁ y Q)
    (hok : ∀ s s', s.context = c → x s = .ok () s' → x₁ s = .ok () s') :
    Mirrors Γ c H size sight x y Q :=
  fun s s' bytes hs hx => h s s' bytes hs (hok s s' hs.context hx)

theorem of_size {size' : Nat} (h : Mirrors Γ c H size' sight x y Q) (hsize : size ≤ size') :
    Mirrors Γ c H size sight x y Q :=
  fun s s' bytes hs hx hwrote hle => h s s' bytes hs hx hwrote (Nat.le_trans hle hsize)

theorem map (f : α → β) {Q' : Renaming → β → Prop} (h : Mirrors Γ c H size sight x y Q)
    (hQ : ∀ ρ a, Q ρ a → Q' ρ (f a)) : Mirrors Γ c H size sight x (f <$> y) Q' := by
  intro s s' bytes hs hx hwrote hsize W hW hW32 r tail hc htracks hrest
  exact (h s s' bytes hs hx hwrote hsize W hW hW32 r tail hc htracks hrest).map f hQ

/-- Reading what is conveyed without pointers leaves the table as it is. -/
theorem conveys {lead : List UInt8 → Prop} {a : α} (h : Conveys c x lead y a)
    (hQ : ∀ ρ, Q ρ a) : Mirrors Γ c H size (fun _ => []) x y Q := by
  intro s s' bytes hs hx hwrote _ W _ _ r tail hc _ hrest
  obtain ⟨bytes', rfl, _, htakes⟩ := h s s' hs.context hx
  have hbytes := hwrote.unique (Wrote.bytes hs bytes')
  subst hbytes
  rw [htakes r tail hc hrest]
  have hnone : s.newTags c H (s.append bytes) = [] := OutStream.newTags_self c H rfl
  refine ⟨rfl, ?_, fun ha _ => ⟨ha.of_slots rfl rfl (Nat.le_refl _), ?_, hQ _⟩⟩
  · rw [hnone]
    exact Moved.skip r _
  · intro k hlow hhigh
    exact absurd hhigh (Nat.not_lt.2 hlow)

theorem pure {a : α} (hQ : ∀ ρ, Q ρ a) :
    Mirrors Γ c H size (fun _ => []) (Pure.pure ()) (Pure.pure a) Q := by
  intro s s' bytes hs hx hwrote _ W _ _ r tail hc _ hrest
  cases hx
  obtain ⟨bytes', _, hwrote'⟩ := Writes.pure s s hs rfl
  have hbytes : bytes = [] := by
    have hlen := congrArg ByteSink.size hwrote.sink
    rw [ByteSink.size_append, size_packed] at hlen
    exact List.eq_nil_of_length_eq_zero (by omega)
  subst hbytes
  refine ⟨rfl, ?_, fun ha _ => ⟨ha, ?_, hQ _⟩⟩
  · rw [OutStream.newTags_self c H rfl]
    exact Moved.refl r
  · intro k hlow hhigh
    exact absurd hhigh (Nat.not_lt.2 hlow)

/-- A header in front takes at least one byte. -/
theorem behind {a : α} {g : α → Reader β} {Q : Renaming → β → Prop}
    (h₁ : Conveys c x₁ StartsValue y a) {lead : List UInt8 → Prop}
    (hw : Writes c H sight lead x₂) (h₂ : ∀ n < size, Mirrors Γ c H n sight x₂ (g a) Q) :
    Mirrors Γ c H size sight (do x₁; x₂) (y >>= g) Q := by
  intro s s' bytes hs hx hwrote hsize W hW hW32 r tail hc htracks hrest
  obtain ⟨_, t, hx₁, hx₂⟩ := bind_ok hx
  obtain ⟨header, rfl, hlead, htakes⟩ := h₁ s t hs.context hx₁
  have ht := Wrote.bytes hs header
  obtain ⟨body, _, hbody⟩ := hw _ s' ht.coherent hx₂
  have hbytes : bytes = header ++ body := hwrote.unique (ht.trans hbody)
  subst hbytes
  have hpos : 0 < header.length := List.length_pos_iff.2 hlead.ne_nil
  rw [List.length_append] at hsize
  rw [List.append_assoc] at hrest
  have hread := h₂ (size - 1) (by omega) (s.append header) s' body ht.coherent hx₂ hbody
    (by omega) W hW hW32 (r.skip header.length) tail hc htracks (InStream.rest_skip_append hrest)
  exact Outcome.behind htakes hc hrest hread

/-- One action behind another, whatever the first returns. -/
theorem seq {g : α → Reader β} {Q₁ : Renaming → α → Prop} {Q₂ : α → Renaming → β → Prop}
    {Q : Renaming → β → Prop} {lead₁ lead₂ : List UInt8 → Prop}
    (hw₁ : Writes c H sight₁ lead₁ x₁) (hw₂ : Writes c H sight₂ lead₂ x₂)
    (h₁ : Mirrors Γ c H size sight₁ x₁ y Q₁) (h₂ : ∀ a, Mirrors Γ c H size sight₂ x₂ (g a) (Q₂ a))
    (hQ : ∀ (ρ ρ' : Renaming) a b, (∀ id object, ρ id object → ρ' id object) → Q₁ ρ a →
      Q₂ a ρ' b → Q ρ' b) :
    Mirrors Γ c H size (sightBoth sight₁ sight₂) (do x₁; x₂) (y >>= g) Q := by
  intro s s' bytes hs hx hwrote hsize W hW hW32 r tail hc htracks hrest
  obtain ⟨_, t, hx₁, hx₂⟩ := bind_ok hx
  obtain ⟨b₁, _, hwrote₁⟩ := hw₁ s t hs hx₁
  obtain ⟨b₂, _, hwrote₂⟩ := hw₂ t s' hwrote₁.coherent hx₂
  have hbytes : bytes = b₁ ++ b₂ := hwrote.unique (hwrote₁.trans hwrote₂)
  subst hbytes
  rw [List.length_append] at hsize
  rw [List.append_assoc] at hrest
  refine Outcome.seq hwrote₁ hwrote₂ ?_ (fun a r₁ hcursor hmoved => ?_) hQ
  · exact h₁ s t b₁ hs hx₁ hwrote₁ (by omega) W (hwrote₂.entered_grows.trans hW) hW32
      r (b₂ ++ tail) hc htracks hrest
  · exact h₂ a t s' b₂ hwrote₁.coherent hx₂ hwrote₂ (by omega) W hW hW32 r₁ tail
      (hmoved.context.trans hc) (by rw [hmoved.tracks, htracks, hwrote₁.tracks])
      (InStream.rest_of_cursor hcursor hrest)

end Mirrors

end ObjectStream
