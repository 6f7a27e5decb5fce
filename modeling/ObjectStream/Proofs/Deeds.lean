import ObjectStream.Proofs.ReadPointer
import ObjectStream.Proofs.Shape

/-!
# What a reader does with the table

A run of a reader leaves a list of deeds: the places that it opened, the objects
that it finished, and the references that it followed, with what came of them.
From the deeds alone, without the table, it can be said what has to come of a
reference: an object if one was finished under the serial by then, with the tag
and through the type of pointer that the reference asks for, and otherwise an
error that says what is wrong. A reader may give up at any point and go on with
something else; places whose objects were abandoned stay empty.
-/

namespace ObjectStream

/-- What a reader does with the table of shared objects. The place of an object is lost if it is not
there any more when the object is complete. The table is forgotten when the stream is rewound or
handed over. -/
inductive Deed
  | opened (tag : TypeTag)
  | finished (serial : Nat) (object : Shared)
  | lost (serial : Nat)
  | followed (tag : TypeTag) (serial : Nat) (target : Ty) (answer : Except StreamError Shared)
  | forgotten

namespace Deed

def tag? : Deed → Option TypeTag
  | .opened tag => some tag
  | _ => none

def id? : Deed → Option Identity
  | .finished _ object => some object.id
  | _ => none

/-- The deeds since the table was last forgotten, after one more. -/
def onto (past : List Deed) : Deed → List Deed
  | .forgotten => []
  | d => past ++ [d]

def recent (past : List Deed) : List Deed := past.foldl onto []

/-- The tags of the places that were opened, by serial. -/
def tags (past : List Deed) : List TypeTag := past.filterMap tag?

def ids (past : List Deed) : List Identity := past.filterMap id?

theorem tags_append (past ds : List Deed) : tags (past ++ ds) = tags past ++ tags ds :=
  List.filterMap_append

theorem ids_append (past ds : List Deed) : ids (past ++ ds) = ids past ++ ids ds :=
  List.filterMap_append

theorem recent_append {past ds : List Deed} (h : .forgotten ∉ ds) :
    recent (past ++ ds) = recent past ++ ds := by
  rw [recent, List.foldl_append, ← recent]
  generalize recent past = start
  induction ds generalizing start with
  | nil => exact (List.append_nil start).symm
  | cons d ds ih =>
      rw [List.mem_cons, not_or] at h
      have hd : onto start d = start ++ [d] := by
        cases d with
        | forgotten => exact absurd rfl h.1
        | opened | finished | lost | followed => rfl
      rw [List.foldl_cons, hd, ih h.2, List.append_assoc]
      rfl

theorem recent_forgotten (past : List Deed) : recent (past ++ [.forgotten]) = [] := by
  rw [recent, List.foldl_append]
  rfl

end Deed

/-- What has to come of a reference after some deeds since the table was last forgotten: there has
to be one object that was finished under the serial, its place has to have been opened with the tag,
and it has to have been read through the type of pointer asked for. -/
inductive Verdict (past : List Deed) (tag : TypeTag) (serial : Nat) (target : Ty) :
    Except StreamError Shared → Prop
  | unknownSerial : (Deed.tags past)[serial]? = none →
      Verdict past tag serial target (.error (.type (.unknownSerial serial)))
  | otherTag {held : TypeTag} : (Deed.tags past)[serial]? = some held → held ≠ tag →
      Verdict past tag serial target (.error (.type (.otherTag serial tag held)))
  | unfinished : (Deed.tags past)[serial]? = some tag → (∀ object, .finished serial object ∉ past) →
      Verdict past tag serial target (.error (.type (.unfinished serial)))
  | otherPointer {object : Shared} : (Deed.tags past)[serial]? = some tag →
      (∀ found, .finished serial found ∈ past ↔ found = object) → object.target ≠ target →
      Verdict past tag serial target (.error (.type (.otherPointer serial target)))
  | object {object : Shared} : (Deed.tags past)[serial]? = some tag →
      (∀ found, .finished serial found ∈ past ↔ found = object) → object.target = target →
      Verdict past tag serial target (.ok object)

/-- After some deeds, of every reference among some more deeds comes what has to. -/
def Judged : List Deed → List Deed → Prop
  | _, [] => True
  | past, d :: ds =>
      (∀ tag serial target answer, d = .followed tag serial target answer →
        Verdict (Deed.recent past) tag serial target answer) ∧
      Judged (past ++ [d]) ds

theorem judged_append {past ds ds' : List Deed} :
    Judged past (ds ++ ds') ↔ Judged past ds ∧ Judged (past ++ ds) ds' := by
  induction ds generalizing past with
  | nil => simp [Judged]
  | cons d ds ih => simp [Judged, ih, and_assoc]

/-- What has to come of a reference comes of it wherever it stands. -/
theorem Judged.verdict {past ds before after : List Deed} {tag : TypeTag} {serial : Nat}
    {target : Ty} {answer : Except StreamError Shared} (h : Judged past ds)
    (hds : ds = before ++ .followed tag serial target answer :: after) :
    Verdict (Deed.recent (past ++ before)) tag serial target answer := by
  subst hds
  exact (judged_append.1 h).2.1 _ _ _ _ rfl

/-! ## Runs -/

namespace Reader

/-- What comes of an action, without the state. -/
def outcome {α : Type} : EStateM.Result StreamError InStream α → Except StreamError α
  | .ok a _ => .ok a
  | .error e _ => .error e

/-- A reader of the stream that has nothing to do with shared objects. -/
inductive Primitive : {α : Type} → Reader α → Prop
  | pure {α : Type} (a : α) : Primitive (Pure.pure a)
  | throw {α : Type} (e : StreamError) : Primitive (MonadExcept.throw e : Reader α)
  | head {α : Type} {x : Reader α} : Head x → Primitive x
  | peek : Primitive Reader.peek
  | byte : Primitive Reader.byte
  | number (kind : NumberKind) : Primitive (Reader.number kind)
  | raw (n : Nat) : Primitive (Reader.raw n)
  | blobHeader : Primitive Reader.blobHeader
  | strHeader : Primitive Reader.strHeader
  | extHeader : Primitive Reader.extHeader
  | skip : Primitive Reader.skip
  | seek (pos : Nat) : Primitive (Reader.seek pos)
  | remaining : Primitive Reader.remaining
  | context : Primitive Reader.context
  | tracking : Primitive Reader.tracking

/-- Such a reader has what the rudimentary readers have. -/
theorem Primitive.of_rudiments {M : {α : Type} → Reader α → Prop} (hM : Rudiments M)
    (skip : M Reader.skip) (seek : ∀ pos, M (Reader.seek pos)) (remaining : M Reader.remaining)
    (context : M Reader.context) (tracking : M Reader.tracking) {α : Type} {x : Reader α}
    (h : Primitive x) : M x := by
  cases h with
  | pure a => exact hM.pure a
  | throw e => exact hM.throw e
  | head hx => exact hM.head hx
  | peek => exact hM.peek
  | byte => exact hM.byte
  | number kind => exact hM.number kind
  | raw n => exact hM.raw n
  | blobHeader => exact hM.blobHeader
  | strHeader => exact hM.strHeader
  | extHeader => exact hM.extHeader
  | skip => exact skip
  | seek pos => exact seek pos
  | remaining => exact remaining
  | context => exact context
  | tracking => exact tracking

theorem Primitive.still {α : Type} {x : Reader α} (h : Primitive x) : Still x :=
  h.of_rudiments rudiments_still .skip .seek (fun r => ⟨r.cursor.pos, rfl⟩)
    (fun r => ⟨r.cursor.pos, rfl⟩) fun r => ⟨r.cursor.pos, rfl⟩

/-- The deeds of a run of a reader from a state of the stream. -/
inductive Traces : {α : Type} → Reader α → InStream → List Deed → Prop
  | primitive {α : Type} {x : Reader α} {r : InStream} : Primitive x → Traces x r []
  | note {event : Event} {r : InStream} : Traces (Reader.note event) r []
  | newObject {target type : Ty} {body : Value} {r : InStream} :
      Traces (Reader.newObject target type body) r []
  | bind {α β : Type} {x : Reader α} {f : α → Reader β} {r r' : InStream} {a : α}
      {ds ds' : List Deed} : Traces x r ds → x r = .ok a r' → Traces (f a) r' ds' →
      Traces (x >>= f) r (ds ++ ds')
  | failed {α β : Type} {x : Reader α} {f : α → Reader β} {r r' : InStream} {e : StreamError}
      {ds : List Deed} : Traces x r ds → x r = .error e r' → Traces (x >>= f) r ds
  | tried {α : Type} {x : Reader α} {f : StreamError → Reader α} {r r' : InStream} {a : α}
      {ds : List Deed} : Traces x r ds → x r = .ok a r' → Traces (tryCatch x f) r ds
  | caught {α : Type} {x : Reader α} {f : StreamError → Reader α} {r r' : InStream}
      {e : StreamError} {ds ds' : List Deed} : Traces x r ds → x r = .error e r' →
      Traces (f e) r' ds' → Traces (tryCatch x f) r (ds ++ ds')
  | follow {tag : TypeTag} {serial : Nat} {target : Ty} {r : InStream} :
      Traces (Reader.follow tag serial target) r
        [.followed tag serial target (outcome (Reader.follow tag serial target r))]
  | finished {tag : TypeTag} {target : Ty} {read : Ty → Reader Value} {made : Ty × Value}
      {object : Shared} {r r' r'' : InStream} {ds : List Deed} :
      Traces (Reader.build r.context.registry tag target read) (r.opened tag) ds →
      Reader.build r.context.registry tag target read (r.opened tag) = .ok made r' →
      Reader.makeTracked tag target read r = .ok object r'' →
      Traces (Reader.makeTracked tag target read) r
        (.opened tag :: ds ++ [.finished r.slots.length object])
  | lost {tag : TypeTag} {target : Ty} {read : Ty → Reader Value} {made : Ty × Value}
      {e : StreamError} {r r' r'' : InStream} {ds : List Deed} :
      Traces (Reader.build r.context.registry tag target read) (r.opened tag) ds →
      Reader.build r.context.registry tag target read (r.opened tag) = .ok made r' →
      Reader.makeTracked tag target read r = .error e r'' →
      Traces (Reader.makeTracked tag target read) r (.opened tag :: ds ++ [.lost r.slots.length])
  | abandoned {tag : TypeTag} {target : Ty} {read : Ty → Reader Value} {e : StreamError}
      {r r' : InStream} {ds : List Deed} :
      Traces (Reader.build r.context.registry tag target read) (r.opened tag) ds →
      Reader.build r.context.registry tag target read (r.opened tag) = .error e r' →
      Traces (Reader.makeTracked tag target read) r (.opened tag :: ds)

def Traced {α : Type} (x : Reader α) : Prop := ∀ r, ∃ ds, Traces x r ds

namespace Traced

variable {α β : Type} {x : Reader α}

theorem of_primitive (hx : Primitive x) : Traced x := fun _ => ⟨[], .primitive hx⟩

theorem bind {f : α → Reader β} (hx : Traced x) (hf : ∀ a, Traced (f a)) : Traced (x >>= f) := by
  intro r
  obtain ⟨ds, hds⟩ := hx r
  cases hres : x r with
  | error e r' => exact ⟨ds, .failed hds hres⟩
  | ok a r' =>
      obtain ⟨ds', hds'⟩ := hf a r'
      exact ⟨ds ++ ds', .bind hds hres hds'⟩

theorem ite {P : Prop} [Decidable P] {y : Reader α} (hx : Traced x) (hy : Traced y) :
    Traced (if P then x else y) := by
  split
  · exact hx
  · exact hy

variable {tag : TypeTag} {target : Ty} {read : Ty → Reader Value}

theorem build (h : ∀ t, Traced (read t)) (registry : Registry) :
    Traced (Reader.build registry tag target read) := by
  unfold Reader.build
  split
  · exact of_primitive (.throw _)
  · have hnote (event : Event) : Traced (Reader.note event) := fun _ => ⟨[], .note⟩
    exact (hnote _).bind fun _ => (h _).bind fun _ => of_primitive (.pure _)

theorem makeTracked (h : ∀ t, Traced (read t)) : Traced (Reader.makeTracked tag target read) := by
  intro r
  have hbuild : Traced (Reader.build r.context.registry tag target read) := build h _
  obtain ⟨ds, hds⟩ := hbuild (r.opened tag)
  cases hres : Reader.build r.context.registry tag target read (r.opened tag) with
  | error e r' => exact ⟨_, .abandoned hds hres⟩
  | ok p r' =>
      cases hmake : Reader.makeTracked tag target read r with
      | ok object r'' => exact ⟨_, .finished hds hres hmake⟩
      | error e r'' => exact ⟨_, .lost hds hres hmake⟩

theorem sharedBehind (h : ∀ t, Traced (read t)) :
    Traced (Reader.sharedBehind tag target read) := by
  refine (of_primitive .tracking).bind fun tracked =>
    ite ((of_primitive .peek).bind fun code => ite ?_ (makeTracked h)) ?_
  · exact (of_primitive (.head (.unsigned .w32))).bind fun serial _ => ⟨_, .follow⟩
  · exact (of_primitive .context).bind fun c => (build h c.registry).bind fun p _ =>
      ⟨[], .newObject⟩

end Traced

/-- The runs of all pieces leave deeds. -/
theorem pieces_traced : Pieces Traced where
  pure a := .of_primitive (.pure a)
  throw e := .of_primitive (.throw e)
  bind := Traced.bind
  head hx := .of_primitive (.head hx)
  context := .of_primitive .context
  note event _ := ⟨[], .note⟩
  nilOr h := by
    refine (Traced.of_primitive .peek).bind fun code => .ite ?_ ?_
    · exact (Traced.of_primitive (.head .nil)).bind fun _ => .of_primitive (.pure _)
    · exact h.bind fun v => .of_primitive (.pure _)
  sharedBehind tag target read h := .sharedBehind h

end Reader

/-! ## The table and the deeds -/

/-- The table is what the deeds since it was last forgotten say, and all objects that were finished
have different identities below the next one. -/
structure InStream.Recalls (r : InStream) (past : List Deed) : Prop where
  tracks : r.tracks = true
  tags : r.slots.map Slot.tag = Deed.tags (Deed.recent past)
  held : ∀ serial object,
    r.held? serial = some object ↔ .finished serial object ∈ Deed.recent past
  distinct : (Deed.ids past).Nodup
  fresh : ∀ id ∈ Deed.ids past, id < r.nextObject

/-- After some deeds come some more: the table still is what the deeds say, of references comes what
has to, and only places opened meanwhile are filled. -/
structure Adds (past : List Deed) (r : InStream) (ds : List Deed) (r' : InStream) : Prop where
  recalls : r'.Recalls (past ++ ds)
  judged : Judged past ds
  later : ∀ serial object, .finished serial object ∈ ds → r.slots.length ≤ serial
  kept : .forgotten ∉ ds

namespace InStream.Recalls

variable {r r' : InStream} {past : List Deed}

/-- A state with the same table recalls the same. -/
theorem of_slots (h : r.Recalls past) (htracks : r'.tracks = r.tracks) (hslots : r'.slots = r.slots)
    (hnext : r.nextObject ≤ r'.nextObject) : r'.Recalls past where
  tracks := htracks.trans h.tracks
  tags := by rw [hslots, h.tags]
  held serial object := by
    rw [← h.held, held?, held?, hslots]
  distinct := h.distinct
  fresh id hid := Nat.lt_of_lt_of_le (h.fresh id hid) hnext

/-- A deed that finishes no object opens the place of its tag, if it has one. -/
theorem unfinished (h : r.Recalls past) {d : Deed} (hd : d ≠ .forgotten) (hid : d.id? = none)
    (htracks : r'.tracks = r.tracks)
    (htags : r'.slots.map Slot.tag = r.slots.map Slot.tag ++ Deed.tags [d])
    (hheld : ∀ serial, r'.held? serial = r.held? serial) (hnext : r'.nextObject = r.nextObject) :
    r'.Recalls (past ++ [d]) := by
  have hrecent : Deed.recent (past ++ [d]) = Deed.recent past ++ [d] :=
    Deed.recent_append fun hmem => hd (List.mem_singleton.1 hmem).symm
  have hids : Deed.ids (past ++ [d]) = Deed.ids past := by
    simp [Deed.ids, hid]
  constructor
  · exact htracks.trans h.tracks
  · rw [htags, h.tags, hrecent, Deed.tags_append]
  · intro serial object
    rw [hheld, h.held, hrecent, List.mem_append, List.mem_singleton]
    refine ⟨.inl, fun hmem => hmem.resolve_right ?_⟩
    rintro rfl
    cases hid
  · rw [hids]
    exact h.distinct
  · rw [hids, hnext]
    exact h.fresh

/-- A place that was opened and is still empty is filled. -/
theorem filled (h : r.Recalls past) {tag : TypeTag} {serial : Nat}
    (hempty : r.slots[serial]? = some ⟨tag, none⟩) (target type : Ty) (body : Value) :
    (r.filled tag serial target type body).Recalls
      (past ++ [.finished serial ⟨r.nextObject, target, type, body⟩]) := by
  have hrecent : Deed.recent (past ++ [.finished serial ⟨r.nextObject, target, type, body⟩]) =
      Deed.recent past ++ [.finished serial ⟨r.nextObject, target, type, body⟩] :=
    Deed.recent_append (by simp)
  have hids : Deed.ids (past ++ [.finished serial ⟨r.nextObject, target, type, body⟩]) =
      Deed.ids past ++ [r.nextObject] := Deed.ids_append _ _
  have hnone : r.held? serial = none := by
    rw [held?, hempty]
    rfl
  constructor
  · exact (tracks_filled r tag serial target type body).trans h.tracks
  · have htag : (r.slots.map Slot.tag)[serial]? = some tag := by
      rw [List.getElem?_map, hempty]
      rfl
    obtain ⟨hlt, htag⟩ := List.getElem?_eq_some_iff.1 htag
    have hset : (r.slots.map Slot.tag).set serial tag = r.slots.map Slot.tag := by
      conv_lhs => rw [← htag]
      exact List.set_getElem_self hlt
    rw [slots_filled, List.map_set, hset, h.tags, hrecent, Deed.tags_append]
    exact (List.append_nil _).symm
  · intro k object
    rw [held?_filled hempty, hrecent, List.mem_append, List.mem_singleton, ← h.held]
    by_cases hk : k = serial
    · subst hk
      rw [if_pos rfl, hnone]
      refine ⟨fun heq => .inr ?_, fun hmem => ?_⟩
      · rw [Option.some.inj heq]
      · rcases hmem with hmem | hmem
        · cases hmem
        · rw [(Deed.finished.inj hmem).2]
    · rw [if_neg hk]
      refine ⟨.inl, fun hmem => hmem.resolve_right fun heq => ?_⟩
      exact hk (Deed.finished.inj heq).1
  · rw [hids, List.nodup_append]
    refine ⟨h.distinct, by simp, fun a ha b hb heq => ?_⟩
    rw [List.mem_singleton] at hb
    exact Nat.lt_irrefl _ (hb ▸ heq ▸ h.fresh a ha)
  · intro id hid
    rw [hids, List.mem_append, List.mem_singleton] at hid
    rcases hid with hid | rfl
    · exact Nat.lt_succ_of_lt (h.fresh id hid)
    · exact Nat.lt_succ_self _

end InStream.Recalls

namespace Adds

variable {past : List Deed} {r r' r'' : InStream} {ds ds' : List Deed}

theorem of_slots (h : r.Recalls past) (htracks : r'.tracks = r.tracks) (hslots : r'.slots = r.slots)
    (hnext : r.nextObject ≤ r'.nextObject) : Adds past r [] r' where
  recalls := by
    rw [List.append_nil]
    exact h.of_slots htracks hslots hnext
  judged := trivial
  later := nofun
  kept := nofun

theorem length_le (h : Adds past r ds r') (hr : r.Recalls past) :
    r.slots.length ≤ r'.slots.length := by
  have htags := congrArg List.length h.recalls.tags
  rw [Deed.recent_append h.kept, Deed.tags_append, ← hr.tags, List.length_append,
    List.length_map, List.length_map] at htags
  omega

theorem trans (h : Adds past r ds r') (hr : r.Recalls past) (h' : Adds (past ++ ds) r' ds' r'') :
    Adds past r (ds ++ ds') r'' where
  recalls := by
    rw [← List.append_assoc]
    exact h'.recalls
  judged := judged_append.2 ⟨h.judged, h'.judged⟩
  later serial object hmem := by
    rcases List.mem_append.1 hmem with hmem | hmem
    · exact h.later serial object hmem
    · exact Nat.le_trans (h.length_le hr) (h'.later serial object hmem)
  kept hmem := (List.mem_append.1 hmem).elim h.kept h'.kept

theorem opened (h : r.Recalls past) (tag : TypeTag) :
    Adds past r [.opened tag] (r.opened tag) where
  recalls := by
    refine h.unfinished nofun rfl (InStream.tracks_opened r tag) ?_ (InStream.held?_opened r tag)
      rfl
    rw [InStream.slots_opened h.tracks, List.map_append]
    rfl
  judged := ⟨nofun, trivial⟩
  later := by simp
  kept := by simp

/-- Behind deeds that started with a place being opened, the place is still empty. -/
theorem empty {tag : TypeTag} (h : Adds (past ++ [.opened tag]) (r.opened tag) ds r')
    (hr : r.Recalls past) : r'.slots[r.slots.length]? = some ⟨tag, none⟩ := by
  have hopened := (opened hr tag).recalls
  have hlength : (r.opened tag).slots.length = r.slots.length + 1 := by
    rw [InStream.slots_opened hr.tracks, List.length_append, List.length_singleton]
  have htag : (r'.slots.map Slot.tag)[r.slots.length]? = some tag := by
    rw [h.recalls.tags, Deed.recent_append h.kept, Deed.tags_append, ← hopened.tags,
      InStream.slots_opened hr.tracks, List.map_append, List.append_assoc,
      List.getElem?_append_right (Nat.le_of_eq (List.length_map _)), List.length_map,
      Nat.sub_self]
    rfl
  have hnone : r'.held? r.slots.length = none := by
    refine Option.eq_none_iff_forall_ne_some.2 fun object hobject => ?_
    rw [h.recalls.held, Deed.recent_append h.kept, List.mem_append, ← hopened.held] at hobject
    rcases hobject with hobject | hobject
    · obtain ⟨slot, hslot, -⟩ := InStream.held?_eq_some.1 (InStream.held?_opened r tag _ ▸ hobject)
      exact Nat.lt_irrefl _ (List.getElem?_eq_some_iff.1 hslot).1
    · have hle := h.later _ _ hobject
      omega
  rw [List.getElem?_map] at htag
  obtain ⟨⟨held, object?⟩, hslot, rfl⟩ := Option.map_eq_some_iff.1 htag
  rw [InStream.held?, hslot] at hnone
  obtain rfl : object? = none := hnone
  exact hslot

/-- The deeds end with a place being filled that was opened among them. -/
theorem filled {tag : TypeTag} {serial : Nat} (h : Adds past r ds r')
    (hempty : r'.slots[serial]? = some ⟨tag, none⟩) (hserial : r.slots.length ≤ serial)
    (target type : Ty) (body : Value) :
    Adds past r (ds ++ [.finished serial ⟨r'.nextObject, target, type, body⟩])
      (r'.filled tag serial target type body) where
  recalls := by
    rw [← List.append_assoc]
    exact h.recalls.filled hempty target type body
  judged := judged_append.2 ⟨h.judged, nofun, trivial⟩
  later k object hmem := by
    rcases List.mem_append.1 hmem with hmem | hmem
    · exact h.later k object hmem
    · rw [(Deed.finished.inj (List.mem_singleton.1 hmem)).1]
      exact hserial
  kept hmem := (List.mem_append.1 hmem).elim h.kept (by simp)

end Adds

/-! ## References -/

/-- What comes of a reference is what has to. -/
theorem InStream.Recalls.verdict {r : InStream} {past : List Deed} (h : r.Recalls past)
    (tag : TypeTag) (serial : Nat) (target : Ty) :
    Verdict (Deed.recent past) tag serial target
      (Reader.outcome (Reader.follow tag serial target r)) := by
  have htag (k : Nat) : (Deed.tags (Deed.recent past))[k]? = r.slots[k]?.map Slot.tag := by
    rw [← h.tags, List.getElem?_map]
  rw [Reader.follow_eq]
  cases hslot : r.slots[serial]? with
  | none =>
      refine .unknownSerial ?_
      rw [htag, hslot]
      rfl
  | some slot =>
      obtain ⟨held, object?⟩ := slot
      have hheld : (Deed.tags (Deed.recent past))[serial]? = some held := by
        rw [htag, hslot]
        rfl
      have hfinished (found : Shared) :
          .finished serial found ∈ Deed.recent past ↔ object? = some found := by
        rw [← h.held, held?, hslot]
        rfl
      dsimp only
      split
      · next heq =>
          subst heq
          cases object? with
          | none =>
              refine .unfinished hheld fun object hmem => ?_
              cases (hfinished object).1 hmem
          | some object =>
              have honly (found : Shared) :
                  .finished serial found ∈ Deed.recent past ↔ found = object := by
                rw [hfinished, Option.some.injEq, eq_comm]
              dsimp only
              split
              · next htarget => exact .object hheld honly htarget
              · next htarget => exact .otherPointer hheld honly htarget
      · next hne => exact .otherTag hheld hne

namespace Reader

/-- Whatever a reader does, the table is what its deeds say, and of references comes what has to.
The induction is on the run, and the deeds that are past vary in it. -/
theorem Traces.adds {α : Type} {x : Reader α} {r : InStream} {ds : List Deed} (h : Traces x r ds)
    {past : List Deed} (hr : r.Recalls past) : Adds past r ds (stateAfter x r) := by
  induction h generalizing past with
  | @primitive α x r hx =>
      obtain ⟨pos, hpos⟩ := hx.still r
      rw [hpos]
      exact .of_slots hr rfl rfl (Nat.le_refl _)
  | note => exact .of_slots hr rfl rfl (Nat.le_refl _)
  | newObject => exact .of_slots hr rfl rfl (Nat.le_succ _)
  | bind _ hx _ ih ih' =>
      have hfirst := ih hr
      rw [stateAfter_of_ok hx] at hfirst
      rw [stateAfter_bind hx]
      exact hfirst.trans hr (ih' hfirst.recalls)
  | failed _ hx ih =>
      have hfirst := ih hr
      rw [stateAfter_of_error hx] at hfirst
      rw [stateAfter_failed hx]
      exact hfirst
  | tried _ hx ih =>
      have hfirst := ih hr
      rw [stateAfter_of_ok hx] at hfirst
      rw [stateAfter_of_ok (tryCatch_ok hx)]
      exact hfirst
  | caught _ hx _ ih ih' =>
      have hfirst := ih hr
      rw [stateAfter_of_error hx] at hfirst
      rw [stateAfter, tryCatch_error hx, ← stateAfter]
      exact hfirst.trans hr (ih' hfirst.recalls)
  | @follow tag serial target r =>
      obtain ⟨journal, hstate⟩ := stateAfter_follow tag serial target r
      rw [hstate]
      exact {
        recalls := hr.unfinished (by simp) rfl rfl (List.append_nil _).symm (fun _ => rfl) rfl
        judged := ⟨fun _ _ _ _ hd => by cases hd; exact hr.verdict tag serial target, trivial⟩
        later := by simp
        kept := by simp }
  | @finished tag target read made object r r' r'' ds _ hx hmake ih =>
      have hopened := Adds.opened hr tag
      have hbuild := ih hopened.recalls
      rw [stateAfter_of_ok hx] at hbuild
      have hfilled := makeTracked_ok hx (hbuild.empty hr)
      obtain ⟨rfl, -⟩ := EStateM.Result.ok.inj (hmake.symm.trans hfilled)
      rw [stateAfter_of_ok hfilled]
      exact (hopened.trans hr hbuild).filled (hbuild.empty hr) (Nat.le_refl _) target made.1 made.2
  | @lost tag target read made e r r' r'' ds _ hx hmake ih =>
      -- the place that was opened has to be there, so this does not happen
      have hopened := Adds.opened hr tag
      have hbuild := ih hopened.recalls
      rw [stateAfter_of_ok hx] at hbuild
      rw [makeTracked_ok hx (hbuild.empty hr)] at hmake
      cases hmake
  | @abandoned tag target read e r r' ds _ hx ih =>
      have hopened := Adds.opened hr tag
      have hbuild := ih hopened.recalls
      rw [stateAfter_of_error hx] at hbuild
      rw [stateAfter_of_error (makeTracked_error hx)]
      exact hopened.trans hr hbuild

/-- Whatever a reader does, no place is gone afterwards, so no object is completed without one. -/
theorem Traces.grows {α : Type} {x : Reader α} {r : InStream} {ds : List Deed}
    (h : Traces x r ds) : r.Grows (stateAfter x r) ∧ ∀ serial, .lost serial ∉ ds := by
  induction h with
  | @primitive α x r hx =>
      obtain ⟨pos, hpos⟩ := hx.still r
      rw [hpos]
      exact ⟨⟨rfl, Nat.le_refl _⟩, by simp⟩
  | note | newObject => exact ⟨⟨rfl, Nat.le_refl _⟩, by simp⟩
  | bind _ hx _ ih ih' =>
      rw [stateAfter_of_ok hx] at ih
      rw [stateAfter_bind hx]
      exact ⟨ih.1.trans ih'.1, fun k => List.mem_append.not.2 (not_or.2 ⟨ih.2 k, ih'.2 k⟩)⟩
  | failed _ hx ih =>
      rw [stateAfter_of_error hx] at ih
      rw [stateAfter_failed hx]
      exact ih
  | tried _ hx ih =>
      rw [stateAfter_of_ok hx] at ih
      rw [stateAfter_of_ok (tryCatch_ok hx)]
      exact ih
  | caught _ hx _ ih ih' =>
      rw [stateAfter_of_error hx] at ih
      rw [stateAfter, tryCatch_error hx, ← stateAfter]
      exact ⟨ih.1.trans ih'.1, fun k => List.mem_append.not.2 (not_or.2 ⟨ih.2 k, ih'.2 k⟩)⟩
  | @follow tag serial target r =>
      obtain ⟨journal, hstate⟩ := stateAfter_follow tag serial target r
      rw [hstate]
      exact ⟨⟨rfl, Nat.le_refl _⟩, by simp⟩
  | @finished tag target read made object r r' r'' ds _ hx hmake ih =>
      rw [stateAfter_of_ok hx] at ih
      obtain ⟨t, hdone, hgrows⟩ := makeTracked_of_grows hx ih.1
      rw [stateAfter_of_ok hdone]
      exact ⟨hgrows, by simp [ih.2]⟩
  | @lost tag target read made e r r' r'' ds _ hx hmake ih =>
      -- while the object was made no place was forgotten, so its own is there
      rw [stateAfter_of_ok hx] at ih
      obtain ⟨t, hdone, -⟩ := makeTracked_of_grows hx ih.1
      rw [hdone] at hmake
      cases hmake
  | @abandoned tag target read e r r' ds _ hx ih =>
      rw [stateAfter_of_error hx] at ih
      rw [stateAfter_of_error (makeTracked_error hx)]
      exact ⟨(InStream.Grows.opened r tag).trans ih.1, by simp [ih.2]⟩

end Reader

end ObjectStream
