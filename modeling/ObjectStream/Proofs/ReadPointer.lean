import ObjectStream.Proofs.Place
import ObjectStream.Proofs.Still
import ObjectStream.Proofs.WritePointer

/-!
# What is read for pointers

The reader of a pointer mirrors its writer. Where the writer enters an object the
reader opens a place, which it fills when the object is complete; in between the
place is empty, and no reference leads to it, as an object is not part of itself.
-/

namespace ObjectStream

open InStream

variable {Γ : Schema} {c : Context} {H : Heap}

/-! ## The steps of the reader -/

namespace Reader

variable {tag : TypeTag} {pointee : Ty} {upcast : Upcast} {read : Ty → Reader Value}
  {r : InStream}

theorem build_eq {registry : Registry} (h : registry.upcast? tag pointee = some upcast) :
    build registry tag pointee read r =
      ((fun w => (upcast.result, upcast.convert w)) <$> read upcast.source : Reader (Ty × Value))
        (r.noted (.constructing tag pointee)) := by
  simp only [build, h, bind, EStateM.bind, note, InStream.noted, Functor.map, EStateM.map]
  rfl

theorem makeShared_eq (h : r.context.registry.upcast? tag pointee = some upcast) :
    makeShared tag pointee read r =
      (do
        let w ← read upcast.source
        newObject pointee upcast.result (upcast.convert w))
        (r.noted (.constructing tag pointee)) := by
  simp only [makeShared, bind, EStateM.bind, context, build_eq h, Functor.map, EStateM.map]
  cases read upcast.source (r.noted (.constructing tag pointee)) <;> rfl

/-- The next place is opened, if the stream has places at all. -/
theorem openSlot_eq (tag : TypeTag) (r : InStream) :
    openSlot tag r = .ok r.slots.length (r.opened tag) := by
  unfold openSlot InStream.slots InStream.opened
  obtain ⟨context, cursor, shared, nextObject, journal⟩ := r
  cases shared <;> rfl

section FillSlot

variable (tag : TypeTag) {serial : Nat} (object : Shared)

/-- A stream without a table has nothing to fill. -/
theorem fillSlot_of_not_tracks (h : r.tracks = false) :
    fillSlot tag serial object r = .ok () r := by
  obtain ⟨context, cursor, shared, nextObject, journal⟩ := r
  cases shared with
  | none => rfl
  | some table => cases h

/-- A place keeps the tag that it was opened with. -/
theorem fillSlot_of_place {slot : Slot} (h : r.slots[serial]? = some slot) :
    fillSlot tag serial object r =
      .ok () ((r.put slot.tag serial object).noted (.decodedObject tag serial)) := by
  obtain ⟨context, cursor, shared, nextObject, journal⟩ := r
  cases shared with
  | none => cases h
  | some table =>
      have hslot : table[serial]? = some slot := by rwa [← Array.getElem?_toList]
      simp only [fillSlot, hslot]
      rfl

/-- Without the place reading breaks off. -/
theorem fillSlot_of_lost (htracks : r.tracks = true) (h : r.slots[serial]? = none) :
    fillSlot tag serial object r =
      .error (.type (.lostPlace serial r.slots.length)) (r.noted (.decodedObject tag serial)) := by
  obtain ⟨context, cursor, shared, nextObject, journal⟩ := r
  cases shared with
  | none => cases htracks
  | some table =>
      have hslot : table[serial]? = none := by rwa [← Array.getElem?_toList]
      simp only [fillSlot, hslot]
      rfl

theorem fillSlot_cases (tag : TypeTag) (serial : Nat) (object : Shared) (r : InStream) :
    (r.tracks = false ∧ fillSlot tag serial object r = .ok () r) ∨
    (∃ slot, r.slots[serial]? = some slot ∧ fillSlot tag serial object r =
      .ok () ((r.put slot.tag serial object).noted (.decodedObject tag serial))) ∨
    (r.tracks = true ∧ r.slots[serial]? = none ∧ fillSlot tag serial object r =
      .error (.type (.lostPlace serial r.slots.length))
        (r.noted (.decodedObject tag serial))) := by
  cases htracks : r.tracks with
  | false => exact .inl ⟨rfl, fillSlot_of_not_tracks tag object htracks⟩
  | true =>
      cases hslot : r.slots[serial]? with
      | some slot => exact .inr (.inl ⟨slot, rfl, fillSlot_of_place tag object hslot⟩)
      | none => exact .inr (.inr ⟨rfl, rfl, fillSlot_of_lost tag object htracks hslot⟩)

end FillSlot

theorem makeTracked_eq (h : r.context.registry.upcast? tag pointee = some upcast) :
    makeTracked tag pointee read r =
      (do
        let w ← read upcast.source
        let object ← newObject pointee upcast.result (upcast.convert w)
        fillSlot tag r.slots.length object
        pure object) ((r.opened tag).noted (.constructing tag pointee)) := by
  simp only [makeTracked, bind, EStateM.bind, openSlot_eq]
  rw [makeShared_eq (r := r.opened tag) h]
  simp only [bind, EStateM.bind]
  cases read upcast.source ((r.opened tag).noted (.constructing tag pointee)) <;> rfl

/-- What is left to be done when an object is complete. -/
theorem makeTracked_of_build {type : Ty} {body : Value} {r' : InStream}
    (h : build r.context.registry tag pointee read (r.opened tag) = .ok (type, body) r') :
    makeTracked tag pointee read r =
      (do
        let object ← newObject pointee type body
        fillSlot tag r.slots.length object
        pure object) r' := by
  have hbuild : build (r.opened tag).context.registry tag pointee read (r.opened tag) =
      .ok (type, body) r' := h
  simp only [makeTracked, makeShared, bind, EStateM.bind, openSlot_eq, context, hbuild, newObject]

/-- An object that is complete is put in the place that was opened for it, if that is there. -/
theorem makeTracked_ok {type : Ty} {body : Value} {r' : InStream}
    (h : build r.context.registry tag pointee read (r.opened tag) = .ok (type, body) r')
    (hplace : r'.slots[r.slots.length]? = some ⟨tag, none⟩) :
    makeTracked tag pointee read r = .ok ⟨r'.nextObject, pointee, type, body⟩
      (r'.filled tag r.slots.length pointee type body) := by
  have hfill := fillSlot_of_place (r := { r' with nextObject := r'.nextObject + 1 }) tag
    ⟨r'.nextObject, pointee, type, body⟩ hplace
  rw [makeTracked_of_build h, bind_of_ok (x := newObject pointee type body) rfl, bind_of_ok hfill]
  rfl

/-- If no place is gone when the object is complete, its own is there. -/
theorem makeTracked_of_grows {made : Ty × Value} {r' : InStream}
    (h : build r.context.registry tag pointee read (r.opened tag) = .ok made r')
    (hgrows : (r.opened tag).Grows r') :
    ∃ r'', makeTracked tag pointee read r =
      .ok ⟨r'.nextObject, pointee, made.1, made.2⟩ r'' ∧ r.Grows r'' := by
  have hmake := makeTracked_of_build h
  rw [bind_of_ok (x := newObject pointee made.1 made.2) rfl] at hmake
  rcases fillSlot_cases tag r.slots.length ⟨r'.nextObject, pointee, made.1, made.2⟩
    { r' with nextObject := r'.nextObject + 1 } with ⟨-, hfill⟩ | ⟨slot, -, hfill⟩ | ⟨ht, hlost, -⟩
  · rw [bind_of_ok hfill] at hmake
    exact ⟨_, hmake, (Grows.opened r tag).trans hgrows⟩
  · rw [bind_of_ok hfill] at hmake
    refine ⟨_, hmake, ((Grows.opened r tag).trans hgrows).trans ?_⟩
    exact Grows.put { r' with nextObject := r'.nextObject + 1 } slot.tag r.slots.length _
  · -- the place was opened, and there are as many places still
    have htracks : r.tracks = true := (tracks_opened r tag) ▸ hgrows.1 ▸ ht
    have hlength := hgrows.2
    rw [slots_opened htracks, List.length_append, List.length_singleton] at hlength
    exact absurd (List.getElem?_eq_none_iff.1 hlost) (Nat.not_le.2 hlength)

/-- An object whose place is gone when it is complete, as after a rewind, is not read. -/
theorem makeTracked_of_lost {made : Ty × Value} {r' : InStream}
    (h : build r.context.registry tag pointee read (r.opened tag) = .ok made r')
    (htracks : r'.tracks = true) (hlost : r'.slots[r.slots.length]? = none) :
    ∃ r'', makeTracked tag pointee read r =
      .error (.type (.lostPlace r.slots.length r'.slots.length)) r'' := by
  have hfill := fillSlot_of_lost (r := { r' with nextObject := r'.nextObject + 1 }) tag
    ⟨r'.nextObject, pointee, made.1, made.2⟩ htracks hlost
  rw [makeTracked_of_build h, bind_of_ok (x := newObject pointee made.1 made.2) rfl,
    bind_failed hfill]
  exact ⟨_, rfl⟩

/-- The place of an object that is not completed stays open. -/
theorem makeTracked_error {e : StreamError} {r' : InStream}
    (h : build r.context.registry tag pointee read (r.opened tag) = .error e r') :
    makeTracked tag pointee read r = .error e r' := by
  have hbuild : build (r.opened tag).context.registry tag pointee read (r.opened tag) =
      .error e r' := h
  simp only [makeTracked, makeShared, bind, EStateM.bind, openSlot_eq, context, hbuild]

/-- What a reference leads to is decided by the place of the table with its serial. -/
theorem follow_eq (tag : TypeTag) (serial : Nat) (target : Ty) (r : InStream) :
    follow tag serial target r =
      match r.slots[serial]? with
      | none => .error (.type (.unknownSerial serial)) r
      | some slot =>
          if slot.tag = tag then
            match slot.object with
            | none => .error (.type (.unfinished serial)) r
            | some object =>
                if object.target = target then
                  .ok object (r.noted (.resolvedObject tag serial))
                else .error (.type (.otherPointer serial target))
                  (r.noted (.resolvedObject tag serial))
          else .error (.type (.otherTag serial tag slot.tag)) r := by
  have hslot : slot? serial r = .ok r.slots[serial]? r := by
    unfold slot? InStream.slots
    cases r.shared <;> simp
  simp only [follow, bind, EStateM.bind, hslot]
  cases r.slots[serial]? with
  | none => rfl
  | some slot =>
      obtain ⟨held, object?⟩ := slot
      by_cases htag : held = tag
      · simp only [if_pos htag]
        cases object? with
        | none => rfl
        | some object =>
            by_cases htarget : object.target = target
            · simp only [if_pos htarget]
              rfl
            · simp only [if_neg htarget]
              rfl
      · simp only [if_neg htag]
        rfl

/-- A reference is followed if there is a complete object with its tag at its place, read through
the same type of pointer. Otherwise only the journal changes. -/
theorem follow_cases (tag : TypeTag) (serial : Nat) (target : Ty) (r : InStream) :
    (∃ object, r.slots[serial]? = some ⟨tag, some object⟩ ∧ object.target = target ∧
      follow tag serial target r = .ok object (r.noted (.resolvedObject tag serial))) ∨
    ((∀ object, r.slots[serial]? = some ⟨tag, some object⟩ → object.target ≠ target) ∧
      ∃ e r', follow tag serial target r = .error e r' ∧ Moved r r' []) := by
  rw [follow_eq]
  cases r.slots[serial]? with
  | none => exact .inr ⟨nofun, _, _, rfl, Moved.refl r⟩
  | some slot =>
      obtain ⟨held, object?⟩ := slot
      by_cases htag : held = tag
      · subst htag
        simp only [if_pos]
        cases object? with
        | none => exact .inr ⟨nofun, _, _, rfl, Moved.refl r⟩
        | some object =>
            by_cases htarget : object.target = target
            · simp only [if_pos htarget]
              exact .inl ⟨object, rfl, htarget, rfl⟩
            · simp only [if_neg htarget]
              refine .inr ⟨fun object' hobject => ?_, _, _, rfl,
                (Moved.refl (r.noted (.resolvedObject held serial))).of_noted⟩
              cases hobject
              exact htarget
      · simp only [if_neg htag]
        refine .inr ⟨fun object hobject => ?_, _, _, rfl, Moved.refl r⟩
        cases hobject
        exact absurd rfl htag

/-- A reference is followed without a change to the table. -/
theorem stateAfter_follow (tag : TypeTag) (serial : Nat) (target : Ty) (r : InStream) :
    ∃ journal, stateAfter (follow tag serial target) r = { r with journal } := by
  rw [stateAfter, follow_eq]
  cases r.slots[serial]? with
  | none => exact ⟨r.journal, rfl⟩
  | some slot =>
      obtain ⟨held, object?⟩ := slot
      by_cases htag : held = tag
      · simp only [if_pos htag]
        cases object? with
        | none => exact ⟨r.journal, rfl⟩
        | some object =>
            refine ⟨r.journal.note (.resolvedObject tag serial), ?_⟩
            by_cases htarget : object.target = target
            · simp only [if_pos htarget]
              rfl
            · simp only [if_neg htarget]
              rfl
      · simp only [if_neg htag]
        exact ⟨r.journal, rfl⟩

theorem sharedBehind_untracked (htracks : r.tracks = false) :
    sharedBehind tag pointee read r = makeShared tag pointee read r := by
  have htracking : tracking r = .ok false r := by rw [tracking, ← htracks, InStream.tracks]
  simp only [sharedBehind, bind, EStateM.bind, htracking]
  rfl

/-- An integer behind the tag is a reference, and anything else an object. -/
theorem sharedBehind_tracked (htracks : r.tracks = true) {code : UInt8} {tail : List UInt8}
    (hrest : r.rest = code :: tail) :
    sharedBehind tag pointee read r =
      if (Format.family code).isInteger then
        (do follow tag (← unsigned .w32) pointee : Reader Shared) r
      else makeTracked tag pointee read r := by
  have htracking : tracking r = .ok true r := by rw [tracking, ← htracks, InStream.tracks]
  simp only [sharedBehind, bind, EStateM.bind, htracking, peek_of_rest hrest, if_true]
  split <;> rfl

end Reader

/-- An object read stands for a written one: it is behind a pointer of the same type, of the same
type itself, and has the same value, and the two are related. -/
structure StandsFor (Γ : Schema) (id : Identity) (pointee type : Ty) (v : Value) (ρ : Renaming)
    (object : Shared) : Prop where
  kind : object.target = pointee ∧ object.type = type
  related : ρ id object
  same : Same Γ ρ (.whole type) v object.body

namespace Outcome

variable {α : Type} {W : List Identity} {s t u : OutStream} {ids : List Identity}
  {bytes : List UInt8} {Q : Renaming → α → Prop} {r : InStream}

theorem of_noted {event : Event} {result : EStateM.Result StreamError InStream α}
    (h : Outcome Γ c H W s t ids bytes Q (r.noted event) result) :
    Outcome Γ c H W s t ids bytes Q r result := by
  cases result with
  | ok a r' =>
      obtain ⟨hcursor, hm, hright⟩ := h
      exact ⟨hcursor, hm.of_noted, fun ha hstep => hright (ha.noted event) hstep⟩
  | error e r' =>
      obtain ⟨⟨tags, hpre, hm⟩, hwrong⟩ := h
      exact ⟨⟨tags, hpre, hm.of_noted⟩, fun ha hstep => hwrong (ha.noted event) hstep⟩

/-- Without a table no sighting has to be resolved. -/
theorem untracked {result : EStateM.Result StreamError InStream α}
    (h : Outcome Γ c H W s t ids bytes Q r result) (htracks : s.tracks = false)
    (ids' : List Identity) : Outcome Γ c H W s t ids' bytes Q r result := by
  cases result with
  | ok a r' => exact h
  | error e r' =>
      obtain ⟨htags, hwrong⟩ := h
      refine ⟨htags, fun ha hstep => ?_⟩
      obtain ⟨ha', hnot⟩ := hwrong ha hstep
      refine ⟨ha', fun _ => hnot fun id _ k hk => ?_⟩
      rw [OutStream.entered_of_not_tracks htracks] at hk
      cases hk

variable {id : Identity} {tag : TypeTag} {pointee type : Ty} {v : Value} {y : Reader Value}

/-- An object of a stream that does not track them gets an identity of its own. -/
theorem newObject (htracks : r.tracks = false)
    (h : Outcome Γ c H W s t ids bytes (fun ρ w => Same Γ ρ (.whole type) v w) r (y r)) :
    Outcome Γ c H W s t ids bytes (StandsFor Γ id pointee type v) r
      ((do let w ← y; Reader.newObject pointee type w : Reader Shared) r) := by
  simp only [bind, EStateM.bind]
  cases hres : y r with
  | error e r' =>
      rw [hres] at h
      exact h
  | ok w r' =>
      rw [hres] at h
      obtain ⟨hcursor, hm, hright⟩ := h
      refine ⟨hcursor, ⟨hm.context, hm.data, hm.tracks, hm.slots, hm.tags,
        Nat.le_succ_of_le hm.next⟩, fun ha hstep => ?_⟩
      obtain ⟨ha', hfilled, hsame⟩ := hright ha hstep
      refine ⟨ha'.of_slots rfl rfl (Nat.le_succ _), hfilled, ⟨rfl, rfl⟩, fun htrue => ?_, hsame⟩
      have hfalse : r'.tracks = true := htrue
      rw [hm.tracks, htracks] at hfalse
      cases hfalse

/-- The object at a new place is read with the place open, and put there when it is complete. -/
theorem openObject (hheap : H id = ⟨pointee, type, v⟩)
    (htag : c.registry.tag? type = some tag) (htracks : r.tracks = true)
    (hentered : t.entered = s.entered ++ [id]) (htu : t.entered <+: u.entered)
    (hW : u.entered <+: W) (hfree : id ∉ ids) {event : Event}
    (h : Outcome Γ c H W t u ids bytes (fun ρ w => Same Γ ρ (.whole type) v w)
      ((r.opened tag).noted event) (y ((r.opened tag).noted event))) :
    Outcome Γ c H W s u (id :: ids) bytes (StandsFor Γ id pointee type v) r
      ((do
        let w ← y
        let object ← Reader.newObject pointee type w
        Reader.fillSlot tag r.slots.length object
        pure object : Reader Shared) ((r.opened tag).noted event)) := by
  have hlength : t.entered.length = s.entered.length + 1 := by
    rw [hentered, List.length_append, List.length_singleton]
  have hle := htu.length_le
  have hopened := Moved.opened htracks tag
  have hnew : s.newTags c H u = tag :: t.newTags c H u := by
    rw [OutStream.newTags_trans c H (hentered ▸ List.prefix_append _ _) htu]
    simp [OutStream.newTags, hentered, hheap, htag]
  -- the place of the object is the one that the reader opens, unless nothing more is entered
  have hplace (hstep : InStep s u r) : r.slots.length = s.entered.length := by
    rcases hstep with hstep | hstep <;> omega
  have hstep' (hstep : InStep s u r) : InStep t u ((r.opened tag).noted event) := by
    have hbefore := hplace hstep
    have hcount : (r.opened tag).slots.length = r.slots.length + 1 := hopened.count
    exact .inl (hcount.trans (by omega))
  simp only [bind, EStateM.bind]
  cases hres : y ((r.opened tag).noted event) with
  | error e r' =>
      rw [hres] at h
      obtain ⟨⟨tags, hpre, hm⟩, hwrong⟩ := h
      have hpre' : tag :: tags <+: s.newTags c H u := by
        rw [hnew]
        exact List.cons_prefix_cons.2 ⟨rfl, hpre⟩
      refine ⟨⟨_, hpre', hopened.trans hm.of_noted⟩, fun ha hstep => ?_⟩
      obtain ⟨ha', hnot⟩ := hwrong ((ha.opened htracks tag).noted event) (hstep' hstep)
      refine ⟨ha', fun hresolves => hnot fun id' hid' k hk => ?_⟩
      rw [hentered] at hk
      by_cases hlt : k < s.entered.length
      · rw [List.getElem?_append_left hlt] at hk
        obtain ⟨object, hobject⟩ := hresolves id' (List.mem_cons_of_mem _ hid') k hk
        exact ⟨object, (held?_opened r tag k).trans hobject⟩
      · rw [List.getElem?_append_right (by omega)] at hk
        have hsame := List.mem_of_getElem? hk
        rw [List.mem_singleton] at hsame
        exact absurd (hsame ▸ hid') hfree
  | ok w r' =>
      rw [hres] at h
      obtain ⟨hcursor, hm, hright⟩ := h
      have hempty := hm.of_noted.place htracks
      have hfill := Reader.fillSlot_of_place (r := { r' with nextObject := r'.nextObject + 1 })
        tag ⟨r'.nextObject, pointee, type, w⟩ hempty
      have hheld := held?_filled hempty pointee type w
      simp only [Reader.newObject, hfill]
      refine ⟨hcursor, ?_, fun ha hstep => ?_⟩
      · rw [hnew]
        exact Moved.filled htracks hm.of_noted pointee type w
      · have hserial := hplace hstep
        obtain ⟨ha', hfull, hsame⟩ := hright ((ha.opened htracks tag).noted event) (hstep' hstep)
        have hid : W[r.slots.length]? = some id := by
          refine getElem?_of_isPrefix (htu.trans hW) ?_
          rw [hentered, hserial]
          exact List.getElem?_concat_length
        refine ⟨ha'.filled hheap hid htag hempty hsame, fun k hlow hhigh => ?_, ⟨rfl, rfl⟩,
          fun _ => ?_, hsame.mono fun _ _ => bond_filled hempty pointee type w⟩
        · by_cases hk : k = r.slots.length
          · exact ⟨_, (hheld k).trans (if_pos hk)⟩
          · obtain ⟨object, hobject⟩ := hfull k (by omega) hhigh
            exact ⟨object, (hheld k).trans ((if_neg hk).trans hobject)⟩
        · exact ⟨_, hid, (hheld _).trans (if_pos rfl)⟩

/-- A reference leads to the object with its serial. -/
theorem follow {rank : Nat} (hheap : H id = ⟨pointee, type, v⟩)
    (htag : c.registry.tag? type = some tag) (hrank : s.entered[rank]? = some id)
    (hW : s.entered <+: W) :
    Outcome Γ c H W s s [id] [] (StandsFor Γ id pointee type v) r
      (Reader.follow tag rank pointee r) := by
  have hid : W[rank]? = some id := getElem?_of_isPrefix hW hrank
  rcases Reader.follow_cases tag rank pointee r with
    ⟨object, hslot, htarget, hres⟩ | ⟨hnone, e, r', hres, hmoved⟩
  · rw [hres]
    have hmoved := (Moved.refl (r.noted (.resolvedObject tag rank))).of_noted
    rw [← OutStream.newTags_self c H (s := s) rfl] at hmoved
    refine ⟨rfl, hmoved, fun ha _ => ⟨ha.noted _, fun k hlow hhigh => ?_, ?_⟩⟩
    · exact absurd hhigh (Nat.not_lt.2 hlow)
    · obtain ⟨id', hid', _, _, htype, hsame⟩ := ha.content rank _ object hslot rfl
      rw [hid] at hid'
      cases hid'
      rw [hheap] at htype hsame
      exact ⟨⟨htarget, htype⟩, fun _ => ⟨rank, hid, held?_eq_some.2 ⟨_, hslot, rfl⟩⟩, hsame⟩
  · rw [hres]
    refine ⟨⟨[], List.nil_prefix, hmoved⟩, fun ha _ => ⟨ha.of_moved hmoved, fun hresolves => ?_⟩⟩
    -- an aligned table with the object in it has nothing against the reference
    obtain ⟨object, hobject⟩ := hresolves id (List.mem_singleton.2 rfl) rank hrank
    obtain ⟨slot, hslot, hsome⟩ := held?_eq_some.1 hobject
    obtain ⟨id', hid', htag', htarget, _⟩ := ha.content rank slot object hslot hsome
    rw [hid] at hid'
    cases hid'
    rw [hheap, htag] at htag'
    rw [hheap] at htarget
    refine hnone object ?_ htarget
    rw [hslot, ← hsome, Option.some.inj htag']

/-! ### Behind the tag -/

variable {read : Ty → Reader Value}

/-- Where no objects are tracked there is always an object. -/
theorem untrackedObject (hcr : r.context = c) (htracks : r.tracks = false)
    (hnone : s.tracks = false) (hupcast : c.registry.upcast? tag pointee = some (.plain type))
    (h : Outcome Γ c H W s t ids bytes (fun ρ w => Same Γ ρ (.whole type) v w)
      (r.noted (.constructing tag pointee)) (read type (r.noted (.constructing tag pointee))))
    (ids' : List Identity) :
    Outcome Γ c H W s t ids' bytes (StandsFor Γ id pointee type v) r
      (Reader.sharedBehind tag pointee read r) := by
  rw [Reader.sharedBehind_untracked htracks, Reader.makeShared_eq (hcr ▸ hupcast)]
  exact of_noted (newObject htracks (h.untracked hnone _))

/-- The serial of an object that was written before. -/
theorem reference {rank : Nat} {tail : List UInt8} (hheap : H id = ⟨pointee, type, v⟩)
    (htag : c.registry.tag? type = some tag) (hrank : s.entered[rank]? = some id)
    (hsmall : rank < 2 ^ 32) (hW : s.entered <+: W) (hcr : r.context = c)
    (htracks : r.tracks = true) (hrest : r.rest = Form.uint rank c.byteOrder ++ tail) :
    Outcome Γ c H W s (s.append (Form.uint rank c.byteOrder)) [id] (Form.uint rank c.byteOrder)
      (StandsFor Γ id pointee type v) r (Reader.sharedBehind tag pointee read r) := by
  obtain ⟨code, rest, huint, hcode⟩ := (Form.startsInteger_uint rank).append tail
  rw [Reader.sharedBehind_tracked htracks (hrest.trans huint), if_pos hcode,
    ← List.append_nil (Form.uint rank c.byteOrder)]
  refine behind (Reader.Takes.unsigned (IntWidth.holdsUnsigned_of_lt hsmall)) hcr hrest ?_
  rw [List.append_nil]
  exact follow hheap htag hrank hW

/-- An object that starts with no integer, where it is first met. -/
theorem firstObject {code : UInt8} {tail : List UInt8} (hheap : H id = ⟨pointee, type, v⟩)
    (htag : c.registry.tag? type = some tag)
    (hupcast : c.registry.upcast? tag pointee = some (.plain type)) (hcr : r.context = c)
    (htracks : r.tracks = true) (hentered : t.entered = s.entered ++ [id])
    (htu : t.entered <+: u.entered) (hW : u.entered <+: W) (hfree : id ∉ ids)
    (hrest : r.rest = code :: tail) (hcode : (Format.family code).isInteger = false)
    (h : Outcome Γ c H W t u ids bytes (fun ρ w => Same Γ ρ (.whole type) v w)
      ((r.opened tag).noted (.constructing tag pointee))
      (read type ((r.opened tag).noted (.constructing tag pointee)))) :
    Outcome Γ c H W s u (id :: ids) bytes (StandsFor Γ id pointee type v) r
      (Reader.sharedBehind tag pointee read r) := by
  rw [Reader.sharedBehind_tracked htracks hrest, if_neg (by simp [hcode]),
    Reader.makeTracked_eq (hcr ▸ hupcast)]
  exact openObject hheap htag htracks hentered htu hW hfree h

end Outcome

/-! ## Pointers as wholes -/

/-- The byte behind what was written. -/
theorem ByteSink.getElem?_append (sink : ByteSink) (code : UInt8) (bytes : List UInt8) :
    (sink.append (packed (code :: bytes))).data[sink.size]? = some code := by
  have hlen : (unpacked sink.data).length = sink.size := length_unpacked _
  have hget : (unpacked (sink.append (packed (code :: bytes))).data)[sink.size]? = some code := by
    rw [append, unpacked_append, unpacked_packed, ← hlen,
      List.getElem?_append_right (Nat.le_refl _)]
    simp
  rw [← hget]
  simp [unpacked, getElem?_def, ByteArray.getElem_eq_getElem_data]

namespace Mirrors

variable {size : Nat} {sight : List Identity → List Identity} {lead : List UInt8 → Prop}
  {body : Writer Unit} {read : Ty → Reader Value} {id : Identity} {pointee type : Ty} {v : Value}

theorem shared (hc : c.WellFormed) (hheap : H id = ⟨pointee, type, v⟩)
    (hmakes : c.registry.Makes type pointee) (hlead : ∀ bytes, lead bytes → bytes ≠ [])
    (hw : Writes c H sight lead body) (hfree : ∀ seen, id ∉ sight seen)
    (h : ∀ n < size, Mirrors Γ c H n sight body (read type) fun ρ w =>
      Same Γ ρ (.whole type) v w) :
    Mirrors Γ c H size (Writes.sightShared id sight) (Writer.shared id type body)
      (Reader.shared pointee read)
      fun ρ object? =>
        ∃ object, object? = some object ∧ StandsFor Γ id pointee type v ρ object := by
  obtain ⟨tag, htag, hupcast⟩ := hmakes
  obtain ⟨hnull, hlt⟩ := hc.tags type tag htag
  intro s s' bytes hs hx hwrote hsize W hW hW32 r tail hcr htracks hrest
  have hfront := Reader.Takes.pointerTag (c := c) hnull hlt
  have hpos : 0 < (Form.pointer tag c.byteOrder).length :=
    List.length_pos_iff.2 (Form.startsValue_pointer tag).ne_nil
  have hfound (ρ : Renaming) (object : Shared) (hstands : StandsFor Γ id pointee type v ρ object) :
      ∃ found, some object = some found ∧ StandsFor Γ id pointee type v ρ found :=
    ⟨object, rfl, hstands⟩
  rcases Writer.shared_ok (by rw [hs.context, htag]) hx with
    ⟨hshared, hrun⟩ | ⟨table, tag', serial, hshared, hfind, hs'⟩ |
      ⟨table, t, hshared, hnew, ht, hrun, hcheck⟩
  · -- the stream does not track objects
    have hbody := Writer.taggedBody_ok hrun
    rw [hs.context] at hbody
    have happend := Wrote.bytes hs (Form.pointer tag c.byteOrder)
    obtain ⟨b, _, hb⟩ := hw _ s' happend.coherent hbody
    have hbytes : bytes = Form.pointer tag c.byteOrder ++ b := hwrote.unique (happend.trans hb)
    subst hbytes
    have hnone : s.tracks = false := by rw [OutStream.tracks, hshared]; rfl
    rw [List.length_append] at hsize
    rw [List.append_assoc] at hrest
    have hread := h (size - 1) (by omega) _ s' b happend.coherent hbody hb (by omega) W hW hW32
      ((r.skip (Form.pointer tag c.byteOrder).length).noted (.constructing tag pointee)) tail hcr
      htracks (InStream.rest_skip_append hrest)
    refine Outcome.behind hfront hcr hrest (Outcome.map some ?_ hfound)
    exact Outcome.untrackedObject (r := r.skip _) hcr (htracks.trans hnone) hnone hupcast hread _
  · -- the object was written before
    obtain ⟨rank, hrank, hserial, htag'⟩ := hs.found table id tag' serial hshared hfind
    rw [hs.context] at hs'
    have hbytes := hwrote.unique (hs' ▸ Wrote.seen hs hshared hfind _)
    have hs'W : s.entered <+: W := hwrote.entered_grows.trans hW
    rw [hheap, htag] at htag'
    cases htag'
    have hsmall : rank < 2 ^ 32 := by
      have hrank' := (List.getElem?_eq_some_iff.1 hrank).1
      have := hs'W.length_le
      omega
    rw [Nat.mod_eq_of_lt hsmall] at hserial
    subst hserial
    subst hs' hbytes
    have hsight : Writes.sightShared id sight s.entered = [id] :=
      if_pos (List.mem_of_getElem? hrank)
    have hsplit : Form.reference tag serial c.byteOrder =
        Form.pointer tag c.byteOrder ++ Form.uint serial c.byteOrder := rfl
    rw [hsplit, List.append_assoc] at hrest
    rw [hsight, hsplit]
    refine Outcome.behind hfront hcr hrest (Outcome.map some ?_ hfound)
    exact Outcome.reference (r := r.skip _) hheap htag hrank hsmall hs'W hcr
      (htracks.trans (OutStream.tracks_of_shared hshared)) (InStream.rest_skip_append hrest)
  · -- the object is written here
    have henter := hs.enter hshared hnew (by rw [hheap, htag])
    rw [hs.context] at ht
    subst ht
    have happend := Wrote.bytes henter (Form.pointer tag c.byteOrder)
    obtain ⟨b, hb, hwroteb⟩ := hw _ s' happend.coherent hrun
    have hbytes := hwrote.unique (Wrote.first hs hshared hnew (by rw [hheap, htag]) hwroteb)
    subst hbytes
    have htracked : r.tracks = true := htracks.trans (OutStream.tracks_of_shared hshared)
    have hentered := OutStream.entered_enter hshared id tag
    have hsight : Writes.sightShared id sight s.entered = id :: sight (s.entered ++ [id]) :=
      if_neg (hs.known table id hshared hnew)
    rw [hsight]
    rw [List.length_append] at hsize
    rw [List.append_assoc] at hrest
    have hbehind := InStream.rest_skip_append hrest
    obtain ⟨code, b', rfl⟩ := List.exists_cons_of_ne_nil (hlead b hb)
    have hcode : (Format.family code).isInteger = false := by
      refine hcheck code ?_
      rw [hwroteb.sink]
      exact ByteSink.getElem?_append _ code b'
    refine Outcome.behind hfront hcr hrest (Outcome.map some ?_ hfound)
    refine Outcome.firstObject (r := r.skip _) hheap htag hupcast hcr htracked hentered
      hwroteb.entered_grows hW (hfree _) hbehind hcode ?_
    rw [← hentered]
    exact h (size - 1) (by omega) _ s' _ happend.coherent hrun hwroteb (by omega) W hW hW32
      (((r.skip (Form.pointer tag c.byteOrder).length).opened tag).noted
        (.constructing tag pointee)) tail hcr
      ((InStream.tracks_opened _ _).trans (htracked.trans rfl)) hbehind

theorem sharedValue (hc : c.WellFormed) (hheap : H id = ⟨pointee, type, v⟩)
    (hmakes : c.registry.Makes type pointee) (hlead : ∀ bytes, lead bytes → bytes ≠ [])
    (hw : Writes c H sight lead body) (hfree : ∀ seen, id ∉ sight seen)
    (h : ∀ n < size, Mirrors Γ c H n sight body (read type) fun ρ w =>
      Same Γ ρ (.whole type) v w) :
    Mirrors Γ c H size (Writes.sightShared id sight) (Writer.shared id type body)
      (Reader.sharedValue pointee read) fun ρ w? =>
        ∃ w, w? = some w ∧ Same Γ ρ (.whole (.shared pointee)) (.shared id type v) w := by
  have hvalue : Reader.sharedValue pointee read =
      (fun object? : Option Shared =>
        object?.map fun object => Value.shared object.id object.type object.body) <$>
        Reader.shared pointee read := bind_pure_comp _ _
  rw [hvalue]
  refine (shared hc hheap hmakes hlead hw hfree h).map _ fun ρ object? hobject => ?_
  obtain ⟨object, rfl, ⟨rfl, rfl⟩, hrelated, hsame⟩ := hobject
  exact ⟨_, rfl, .shared hrelated hsame⟩

/-- An event in front makes no difference. -/
theorem of_noted {α : Type} {x : Writer Unit} {y y' : Reader α} {Q : Renaming → α → Prop}
    (event : Event) (h : Mirrors Γ c H size sight x y Q)
    (hy : ∀ r, r.context = c → y' r = y (r.noted event)) : Mirrors Γ c H size sight x y' Q := by
  intro s s' bytes hs hx hwrote hsize W hW hW32 r tail hc htracks hrest
  rw [hy r hc]
  exact (h s s' bytes hs hx hwrote hsize W hW hW32 (r.noted event) tail hc htracks hrest).of_noted

theorem uniqueValue (hc : c.WellFormed) (hmakes : c.registry.Makes type pointee)
    (hw : Writes c H sight lead body)
    (h : ∀ n < size, Mirrors Γ c H n sight body (read type) fun ρ w =>
      Same Γ ρ (.whole type) v w) :
    Mirrors Γ c H size sight (Writer.unique type body) (Reader.uniqueValue pointee read)
      fun ρ w? =>
        ∃ w, w? = some w ∧ Same Γ ρ (.whole (.unique pointee)) (.unique type v) w := by
  obtain ⟨tag, htag, hupcast⟩ := hmakes
  obtain ⟨hnull, hlt⟩ := hc.tags type tag htag
  have hbuild (n : Nat) (hn : n < size) : Mirrors Γ c H n sight body
      (do some <$> Reader.build (← Reader.context).registry tag pointee read)
      fun ρ p => ∃ w, p = some (type, w) ∧ Same Γ ρ (.whole type) v w := by
    refine of_noted (.constructing tag pointee)
      ((h n hn).map (fun w => some (type, w)) fun ρ w hsame => ⟨w, rfl, hsame⟩) fun r hr => ?_
    subst hr
    simp only [bind, EStateM.bind, Reader.context, Functor.map, EStateM.map,
      Reader.build_eq hupcast, Upcast.plain]
    cases read type (r.noted (.constructing tag pointee)) <;> rfl
  have hpair : Mirrors Γ c H size sight _ (Reader.unique pointee read) _ :=
    behind (Conveys.pointerTag hnull hlt) hw hbuild
  unfold Reader.uniqueValue
  rw [bind_pure_comp]
  refine (hpair.map _ fun ρ p? hp => ?_).of_ok fun s s' hs hx => ?_
  · obtain ⟨w, rfl, hsame⟩ := hp
    exact ⟨_, rfl, .unique hsame⟩
  · have hrun := Writer.unique_ok (by rw [hs, htag]) hx
    rw [bind_assoc]
    exact hrun

end Mirrors

end ObjectStream
