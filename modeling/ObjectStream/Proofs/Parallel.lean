import ObjectStream.Proofs.Deeds
import ObjectStream.Proofs.Failing
import ObjectStream.Proofs.Relabel

/-!
# Reading under other names

Two streams that differ in nothing but the identities of their objects, those of
the objects to come included, are read alike: the same values under other names,
the same errors, the same positions. The identities to come are numbered in order
on both streams, so the names are exchanged in one way from the start to the end,
however many objects are made in between. What was observed of the two streams
does not matter.
-/

namespace ObjectStream

def Shared.relabel (ρ : Identity → Identity) (object : Shared) : Shared :=
  { object with id := ρ object.id, body := object.body.relabel ρ }

def Slot.relabel (ρ : Identity → Identity) (slot : Slot) : Slot :=
  { slot with object := slot.object.map (Shared.relabel ρ) }

/-- The second of two streams of a context is the first with other identities, also for the objects
to come. -/
structure InStream.Relabels (c : Context) (ρ : Identity → Identity) (r r' : InStream) : Prop where
  context : r.context = c
  context' : r'.context = c
  cursor : r'.cursor = r.cursor
  shared : r'.shared = r.shared.map (Array.map (Slot.relabel ρ))
  next : ∀ k, ρ (r.nextObject + k) = r'.nextObject + k

namespace InStream.Relabels

variable {c : Context} {ρ : Identity → Identity} {r r' : InStream}

theorem moved (h : r.Relabels c ρ r') (cursor : ByteCursor) :
    Relabels c ρ { r with cursor } { r' with cursor } :=
  ⟨h.context, h.context', rfl, h.shared, h.next⟩

theorem noted (h : r.Relabels c ρ r') (event : Event) :
    (r.noted event).Relabels c ρ (r'.noted event) :=
  ⟨h.context, h.context', h.cursor, h.shared, h.next⟩

theorem opened (h : r.Relabels c ρ r') (tag : TypeTag) :
    (r.opened tag).Relabels c ρ (r'.opened tag) where
  context := h.context
  context' := h.context'
  cursor := h.cursor
  shared := by
    simp only [InStream.opened, h.shared, Option.map_map, Function.comp_def, Array.map_push]
    rfl
  next := h.next

theorem put (h : r.Relabels c ρ r') (tag : TypeTag) (serial : Nat) (object : Shared) :
    (r.put tag serial object).Relabels c ρ (r'.put tag serial (object.relabel ρ)) where
  context := h.context
  context' := h.context'
  cursor := h.cursor
  shared := by
    simp only [InStream.put, h.shared, Option.map_map, Function.comp_def, Array.map_setIfInBounds]
    rfl
  next := h.next

theorem tracks (h : r.Relabels c ρ r') : r'.tracks = r.tracks := by
  rw [InStream.tracks, InStream.tracks, h.shared, Option.isSome_map]

/-- Both streams have passed on an identity. -/
theorem passed (h : r.Relabels c ρ r') :
    Relabels c ρ { r with nextObject := r.nextObject + 1 }
      { r' with nextObject := r'.nextObject + 1 } where
  context := h.context
  context' := h.context'
  cursor := h.cursor
  shared := h.shared
  next k := by
    have hnext := h.next (1 + k)
    rwa [← Nat.add_assoc, ← Nat.add_assoc] at hnext

theorem slots (h : r.Relabels c ρ r') : r'.slots = r.slots.map (Slot.relabel ρ) := by
  rw [InStream.slots, InStream.slots, h.shared]
  cases r.shared with
  | none => rfl
  | some table => exact Array.toList_map

end InStream.Relabels

namespace Reader

variable {c : Context} {ρ : Identity → Identity} {α β γ δ : Type}

/-- On two streams that differ in identities the readers do the same: they both succeed, and what
comes of the second is what comes of the first but for `act`, or they both fail with one error. -/
def Twin (c : Context) (ρ : Identity → Identity) (act : α → β) (x : Reader α) (y : Reader β) :
    Prop :=
  ∀ r r', r.Relabels c ρ r' →
    (∃ a s s', x r = .ok a s ∧ y r' = .ok (act a) s' ∧ s.Relabels c ρ s') ∨
    ∃ e s s', x r = .error e s ∧ y r' = .error e s' ∧ s.Relabels c ρ s'

namespace Twin

variable {act : α → β} {act' : γ → δ} {x : Reader α} {y : Reader β}

theorem pure {a : α} {b : β} (h : b = act a) : Twin c ρ act (Pure.pure a) (Pure.pure b) :=
  fun r r' hr => .inl ⟨a, r, r', rfl, h ▸ rfl, hr⟩

theorem throw (e : StreamError) : Twin c ρ act (MonadExcept.throw e) (MonadExcept.throw e) :=
  fun r r' hr => .inr ⟨e, r, r', rfl, rfl, hr⟩

theorem bind {f : α → Reader γ} {g : β → Reader δ} (hx : Twin c ρ act x y)
    (hf : ∀ a, Twin c ρ act' (f a) (g (act a))) : Twin c ρ act' (x >>= f) (y >>= g) := by
  intro r r' hr
  rcases hx r r' hr with ⟨a, s, s', hxr, hyr, hs⟩ | ⟨e, s, s', hxr, hyr, hs⟩
  · rw [bind_of_ok hxr, bind_of_ok hyr]
    exact hf a s s' hs
  · rw [bind_failed hxr, bind_failed hyr]
    exact .inr ⟨e, s, s', rfl, rfl, hs⟩

theorem map {f : α → γ} {g : β → δ} (hx : Twin c ρ act x y) (h : ∀ a, g (act a) = act' (f a)) :
    Twin c ρ act' (f <$> x) (g <$> y) := by
  rw [map_eq_pure_bind, map_eq_pure_bind]
  exact hx.bind fun a => pure (h a)

theorem ite {P : Prop} [Decidable P] {x' : Reader α} {y' : Reader β} (hx : Twin c ρ act x y)
    (hy : Twin c ρ act x' y') : Twin c ρ act (if P then x else x') (if P then y else y') := by
  split
  · exact hx
  · exact hy

theorem orRestore (hx : Twin c ρ act x y) :
    Twin c ρ act (Reader.orRestore x) (Reader.orRestore y) := by
  intro r r' hr
  rw [Reader.orRestore, Reader.orRestore]
  rcases hx r r' hr with ⟨a, s, s', hxr, hyr, hs⟩ | ⟨e, s, s', hxr, hyr, hs⟩
  · rw [hxr, hyr]
    exact .inl ⟨a, s, s', rfl, rfl, hs⟩
  · rw [hxr, hyr]
    refine .inr ⟨e, _, _, rfl, rfl, ?_⟩
    rw [InStream.pos, InStream.pos, hr.cursor, hs.cursor]
    exact hs.moved _

/-! ## The cursor -/

/-- What only the cursor decides is the same on both streams. -/
theorem of_cursor {x : Reader α} (result : ByteCursor → Except StreamError (α × ByteCursor))
    (hx : ∀ r, r.context = c → x r = match result r.cursor with
      | .ok (a, cursor) => .ok a { r with cursor }
      | .error e => .error e r) : Twin c ρ id x x := by
  intro r r' hr
  rw [hx r hr.context, hx r' hr.context', hr.cursor]
  cases result r.cursor with
  | ok p => exact .inl ⟨p.1, _, _, rfl, rfl, hr.moved p.2⟩
  | error e => exact .inr ⟨e, r, r', rfl, rfl, hr⟩

theorem peek : Twin c ρ id Reader.peek Reader.peek := by
  refine of_cursor (fun cursor => cursor.peek.map fun b => (b, cursor)) fun r _ => ?_
  unfold Reader.peek
  cases r.cursor.peek <;> rfl

theorem advance (n : Nat) : Twin c ρ id (Reader.advance n) (Reader.advance n) := by
  refine of_cursor (fun cursor => (cursor.advance n).map fun next => ((), next)) fun r _ => ?_
  unfold Reader.advance
  cases r.cursor.advance n <;> rfl

theorem number (kind : NumberKind) : Twin c ρ id (Reader.number kind) (Reader.number kind) := by
  refine of_cursor (fun cursor => cursor.takeNumber kind c.byteOrder) fun r hr => ?_
  rw [Reader.number, hr]
  cases r.cursor.takeNumber kind c.byteOrder <;> rfl

theorem raw (n : Nat) : Twin c ρ id (Reader.raw n) (Reader.raw n) := by
  refine of_cursor (fun cursor => cursor.take n) fun r _ => ?_
  unfold Reader.raw
  cases r.cursor.take n <;> rfl

theorem seek (pos : Nat) : Twin c ρ id (Reader.seek pos) (Reader.seek pos) := by
  refine of_cursor (fun cursor => (cursor.seek pos).map fun next => ((), next)) fun r _ => ?_
  unfold Reader.seek
  cases r.cursor.seek pos <;> rfl

theorem remaining : Twin c ρ id Reader.remaining Reader.remaining :=
  of_cursor (fun cursor => .ok (cursor.remaining, cursor)) fun _ _ => rfl

end Twin

theorem rudiments_twin (c : Context) (ρ : Identity → Identity) :
    Rudiments fun x => Twin c ρ id x x where
  pure _ := .pure rfl
  throw := .throw
  bind := .bind
  orRestore := .orRestore
  peek := .peek
  advance := .advance
  number := .number
  raw := .raw

namespace Twin

variable {act : α → β} {x : Reader α} {y : Reader β}

theorem context : Twin c ρ id Reader.context Reader.context := by
  intro r r' hr
  refine .inl ⟨r.context, r, r', rfl, ?_, hr⟩
  rw [Reader.context, hr.context', hr.context]
  rfl

/-- What depends on the context depends on a known one. -/
theorem behindContext {f : Context → Reader α} {g : Context → Reader β}
    (h : Twin c ρ act (f c) (g c)) :
    Twin c ρ act (Reader.context >>= f) (Reader.context >>= g) := by
  intro r r' hr
  rw [bind_of_ok (x := Reader.context) rfl, bind_of_ok (x := Reader.context) rfl, hr.context,
    hr.context']
  exact h r r' hr

theorem tracking : Twin c ρ id Reader.tracking Reader.tracking := by
  intro r r' hr
  refine .inl ⟨r.shared.isSome, r, r', rfl, ?_, hr⟩
  rw [Reader.tracking, hr.shared, Option.isSome_map]
  rfl

theorem skip : Twin c ρ id Reader.skip Reader.skip :=
  remaining.bind fun n => (rudiments_twin c ρ).skipMany (n + 1) 1

/-- A reader that has nothing to do with shared objects does not see their identities. -/
theorem primitive {x : Reader α} (hx : Primitive x) : Twin c ρ id x x :=
  hx.of_rudiments (rudiments_twin c ρ) skip seek remaining context tracking

theorem head {x : Reader α} (hx : Head x) : Twin c ρ id x x := primitive (.head hx)

theorem note (event : Event) : Twin c ρ id (Reader.note event) (Reader.note event) :=
  fun r r' hr => .inl ⟨(), r.noted event, r'.noted event, rfl, rfl, hr.noted event⟩

/-! ## The table -/

theorem openSlot (tag : TypeTag) : Twin c ρ id (Reader.openSlot tag) (Reader.openSlot tag) := by
  intro r r' hr
  refine .inl ⟨r.slots.length, r.opened tag, r'.opened tag, openSlot_eq tag r, ?_, hr.opened tag⟩
  rw [openSlot_eq, hr.slots, List.length_map]
  rfl

/-- Both streams give the object the next identity, which is the next one under the other name. -/
theorem newObject (target type : Ty) (body : Value) :
    Twin c ρ (Shared.relabel ρ) (Reader.newObject target type body)
      (Reader.newObject target type (body.relabel ρ)) := by
  intro r r' hr
  refine .inl ⟨⟨r.nextObject, target, type, body⟩, { r with nextObject := r.nextObject + 1 },
    { r' with nextObject := r'.nextObject + 1 }, rfl, ?_, hr.passed⟩
  have hid : ρ r.nextObject = r'.nextObject := hr.next 0
  rw [Reader.newObject, Shared.relabel, hid]

theorem fillSlot (tag : TypeTag) (serial : Nat) (object : Shared) :
    Twin c ρ id (Reader.fillSlot tag serial object)
      (Reader.fillSlot tag serial (object.relabel ρ)) := by
  intro r r' hr
  have hslots := congrArg (·[serial]?) hr.slots
  rw [List.getElem?_map] at hslots
  rcases fillSlot_cases tag serial object r with
    ⟨htracks, hfill⟩ | ⟨slot, hslot, hfill⟩ | ⟨htracks, hnone, hfill⟩
  · exact .inl ⟨(), r, r', hfill, fillSlot_of_not_tracks _ _ (hr.tracks.trans htracks), hr⟩
  · rw [hslot] at hslots
    exact .inl ⟨(), _, _, hfill, fillSlot_of_place _ _ hslots,
      (hr.put slot.tag serial object).noted _⟩
  · rw [hnone] at hslots
    refine .inr ⟨_, _, _, hfill, ?_, hr.noted (.decodedObject tag serial)⟩
    rw [fillSlot_of_lost _ _ (hr.tracks.trans htracks) hslots, hr.slots, List.length_map]

theorem follow (tag : TypeTag) (serial : Nat) (target : Ty) :
    Twin c ρ (Shared.relabel ρ) (Reader.follow tag serial target)
      (Reader.follow tag serial target) := by
  intro r r' hr
  rw [follow_eq, follow_eq, hr.slots, List.getElem?_map]
  cases r.slots[serial]? with
  | none => exact .inr ⟨_, r, r', rfl, rfl, hr⟩
  | some slot =>
      obtain ⟨held, object?⟩ := slot
      simp only [Option.map_some, Slot.relabel]
      split
      · cases object? with
        | none => exact .inr ⟨_, r, r', rfl, rfl, hr⟩
        | some object =>
            have hnoted := hr.noted (.resolvedObject tag serial)
            simp only [Option.map_some, Shared.relabel]
            split
            · exact .inl ⟨object, _, _, rfl, rfl, hnoted⟩
            · exact .inr ⟨_, _, _, rfl, rfl, hnoted⟩
      · exact .inr ⟨_, r, r', rfl, rfl, hr⟩

/-! ## Pointers -/

variable {read : Ty → Reader Value}

theorem build (hc : c.registry.Natural) (h : ∀ t, Twin c ρ (Value.relabel ρ) (read t) (read t))
    (tag : TypeTag) (target : Ty) :
    Twin c ρ (fun p : Ty × Value => (p.1, p.2.relabel ρ))
      (Reader.build c.registry tag target read) (Reader.build c.registry tag target read) := by
  unfold Reader.build
  split
  · exact throw _
  · next upcast hupcast =>
      refine (note _).bind fun _ => (h upcast.source).bind fun v => pure ?_
      rw [hc tag target upcast hupcast]

theorem makeShared (hc : c.registry.Natural)
    (h : ∀ t, Twin c ρ (Value.relabel ρ) (read t) (read t)) (tag : TypeTag) (target : Ty) :
    Twin c ρ (Shared.relabel ρ) (Reader.makeShared tag target read)
      (Reader.makeShared tag target read) :=
  behindContext ((build hc h tag target).bind fun p => newObject target p.1 p.2)

theorem makeTracked (hc : c.registry.Natural)
    (h : ∀ t, Twin c ρ (Value.relabel ρ) (read t) (read t)) (tag : TypeTag) (target : Ty) :
    Twin c ρ (Shared.relabel ρ) (Reader.makeTracked tag target read)
      (Reader.makeTracked tag target read) :=
  (openSlot tag).bind fun serial => (makeShared hc h tag target).bind fun object =>
    (fillSlot tag serial object).bind fun _ => pure rfl

theorem sharedBehind (hc : c.registry.Natural)
    (h : ∀ t, Twin c ρ (Value.relabel ρ) (read t) (read t)) (tag : TypeTag) (target : Ty) :
    Twin c ρ (Shared.relabel ρ) (Reader.sharedBehind tag target read)
      (Reader.sharedBehind tag target read) :=
  tracking.bind fun _ => ite
    (peek.bind fun _ => ite
      ((head (.unsigned .w32)).bind fun serial => follow tag serial target)
      (makeTracked hc h tag target))
    (makeShared hc h tag target)

/-- What is behind the tag of a pointer, or nothing if it is the null pointer. -/
theorem behindTag {X : TypeTag → Reader α} {Y : TypeTag → Reader β}
    (h : ∀ tag, Twin c ρ act (X tag) (Y tag)) :
    Twin c ρ (Option.map act)
      (do
        match ← pointerTag with
        | none => Pure.pure none
        | some tag => some <$> X tag)
      (do
        match ← pointerTag with
        | none => Pure.pure none
        | some tag => some <$> Y tag) := by
  have htag : Twin c ρ id pointerTag pointerTag :=
    (head (.arrayHeaderOf 2)).bind fun _ => (head (.unsigned .w32)).bind fun tag =>
      ite ((head .nil).bind fun _ => pure rfl) (pure rfl)
  refine htag.bind fun tag? => ?_
  cases tag? with
  | none => exact pure rfl
  | some tag => exact (h tag).map fun _ => rfl

theorem sharedValue (hc : c.registry.Natural)
    (h : ∀ t, Twin c ρ (Value.relabel ρ) (read t) (read t)) (target : Ty) :
    Twin c ρ (Option.map (Value.relabel ρ)) (Reader.sharedValue target read)
      (Reader.sharedValue target read) := by
  refine (behindTag fun tag => sharedBehind hc h tag target).bind fun object? => pure ?_
  cases object? <;> rfl

theorem uniqueValue (hc : c.registry.Natural)
    (h : ∀ t, Twin c ρ (Value.relabel ρ) (read t) (read t)) (target : Ty) :
    Twin c ρ (Option.map (Value.relabel ρ)) (Reader.uniqueValue target read)
      (Reader.uniqueValue target read) := by
  have hbuild (tag : TypeTag) : Twin c ρ (fun p : Ty × Value => (p.1, p.2.relabel ρ))
      (do Reader.build (← Reader.context).registry tag target read)
      (do Reader.build (← Reader.context).registry tag target read) :=
    behindContext (build hc h tag target)
  refine (behindTag hbuild).bind fun p? => pure ?_
  cases p? <;> rfl

theorem required (fault : TypeFault) {x : Reader (Option Value)}
    (h : Twin c ρ (Option.map (Value.relabel ρ)) x x) :
    Twin c ρ (Value.relabel ρ) (Reader.required fault x) (Reader.required fault x) := by
  refine h.bind fun v? => ?_
  cases v? with
  | none => exact throw _
  | some v => exact pure rfl

theorem optionOf {x : Reader (Option Value)} (h : Twin c ρ (Option.map (Value.relabel ρ)) x x) :
    Twin c ρ (Value.relabel ρ) (Reader.optionOf x) (Reader.optionOf x) := by
  refine h.bind fun v? => ?_
  cases v? with
  | none => exact pure rfl
  | some v => exact pure rfl

theorem nilOr {x : Reader Value} (h : Twin c ρ (Value.relabel ρ) x x) :
    Twin c ρ (Value.relabel ρ) (Reader.nilOr x) (Reader.nilOr x) :=
  peek.bind fun _ => ite ((head .nil).bind fun _ => pure rfl) (h.bind fun _ => pure rfl)

/-! ## Lists -/

theorem each {read : γ → Reader α} {read' : γ → Reader β} {as : List γ}
    (h : ∀ a ∈ as, Twin c ρ act (read a) (read' a)) :
    Twin c ρ (List.map act) (Reader.each read as) (Reader.each read' as) := by
  induction as with
  | nil => exact pure rfl
  | cons a as ih =>
      rw [List.forall_mem_cons] at h
      exact h.1.bind fun _ => (ih h.2).bind fun _ => pure rfl

theorem times (h : Twin c ρ act x y) (n : Nat) :
    Twin c ρ (List.map act) (Reader.times n x) (Reader.times n y) := by
  have honto (n : Nat) (done : List α) :
      Twin c ρ (List.map act) (repeatOnto x n done) (repeatOnto y n (done.map act)) := by
    induction n generalizing done with
    | zero => exact pure List.map_reverse.symm
    | succ n ih => exact h.bind fun a => ih (a :: done)
  exact honto n []

/-- Values put together under other names are the whole under other names. -/
theorem list {x y : Reader (List Value)} (h : Twin c ρ (List.map (Value.relabel ρ)) x y) :
    Twin c ρ (Value.relabel ρ) (Value.list <$> x) (Value.list <$> y) :=
  h.map fun vs => (Value.relabel_list vs).symm

theorem decodeVec (h : Twin c ρ act x y) :
    Twin c ρ (List.map act) (Reader.decodeVec x) (Reader.decodeVec y) :=
  (head .arrayHeader).bind (times h)

theorem pair {key content : Reader Value} (hkey : Twin c ρ (Value.relabel ρ) key key)
    (hcontent : Twin c ρ (Value.relabel ρ) content content) :
    Twin c ρ (Prod.map (Value.relabel ρ) (Value.relabel ρ)) (Reader.pair key content)
      (Reader.pair key content) :=
  (head (.arrayHeaderOf 2)).bind fun _ => hkey.bind fun _ => hcontent.bind fun _ => pure rfl

/-! ## Values -/

variable {Γ : Schema} {value fields : Ty → Reader Value}

theorem scalar (s : Scalar) : Twin c ρ id (Reader.scalar s) (Reader.scalar s) := by
  rcases Head.scalar_cases s with ⟨α, x, f, hx, hread⟩ | ⟨e, hrefused⟩
  · rw [hread]
    exact (head hx).map fun _ => rfl
  · rw [hrefused]
    exact throw e

theorem errorCode : Twin c ρ id Reader.errorCode Reader.errorCode := by
  refine (head (.arrayHeaderOf 2)).bind fun _ => (head (.unsigned .w32)).bind fun place =>
    (head (.signed .w32)).bind fun value => context.bind fun c => ?_
  simp only [id_eq]
  cases c.categories.category? place with
  | none => exact throw _
  | some category => exact pure rfl

theorem decodeField (hforeign : ∀ x, Γ.Foreign x → Twin c ρ (Value.relabel ρ) x x)
    (hvalue : ∀ t, Twin c ρ (Value.relabel ρ) (value t) (value t))
    (hfields : ∀ t, Twin c ρ (Value.relabel ρ) (fields t) (fields t)) (σ : List (String × Ty))
    (field : FieldReader Ty) :
    Twin c ρ (Value.relabel ρ) (ObjectStream.decodeField Γ value fields σ field)
      (ObjectStream.decodeField Γ value fields σ field) := by
  cases field with
  | value t => exact hvalue _
  | fields t => exact hfields _
  | rule path t =>
      simp only [ObjectStream.decodeField]
      cases hrule : Γ.rule? path with
      | some codec => exact hforeign _ (.rule hrule)
      | none => exact throw _

theorem decodeFieldList (hforeign : ∀ x, Γ.Foreign x → Twin c ρ (Value.relabel ρ) x x)
    (hvalue : ∀ t, Twin c ρ (Value.relabel ρ) (value t) (value t)) (fuel : Nat) (t : Ty) :
    Twin c ρ (Value.relabel ρ) (ObjectStream.decodeFieldList Γ value fuel t)
      (ObjectStream.decodeFieldList Γ value fuel t) := by
  induction fuel generalizing t with
  | zero => exact throw _
  | succ fuel ih =>
      cases t with
      | named name args =>
          simp only [ObjectStream.decodeFieldList]
          split
          · exact list (each fun field _ => decodeField hforeign hvalue ih _ field)
          · exact throw _
      | _ => exact throw _

theorem decodeEntries {read : FieldReader Ty → Reader Value}
    (h : ∀ field, Twin c ρ (Value.relabel ρ) (read field) (read field)) (struct : String)
    (holders : List (Holder Ty)) (n : Nat) (slots : List (Option Value)) :
    Twin c ρ (List.map (Option.map (Value.relabel ρ)))
      (ObjectStream.decodeEntries struct holders read n slots)
      (ObjectStream.decodeEntries struct holders read n
        (slots.map (Option.map (Value.relabel ρ)))) := by
  induction n generalizing slots with
  | zero => exact pure rfl
  | succ n ih =>
      refine (head .str).bind fun key => ?_
      simp only [id_eq]
      split
      · next i holder _ _ =>
          refine (h holder.reader).bind fun v => ?_
          have hset := ih (slots.set i (some v))
          rwa [List.map_set] at hset
      · exact throw _

theorem takeSlots (struct : String) (helds : List Held) (slots : List (Option Value)) :
    Twin c ρ (List.map (Value.relabel ρ)) (ObjectStream.takeSlots struct helds slots)
      (ObjectStream.takeSlots struct helds (slots.map (Option.map (Value.relabel ρ)))) := by
  induction helds generalizing slots with
  | nil => exact pure rfl
  | cons held helds ih =>
      cases slots with
      | nil => exact pure rfl
      | cons slot slots =>
          cases slot with
          | none => exact throw _
          | some v => exact (ih slots).bind fun _ => pure rfl

theorem decodeDerived (hforeign : ∀ x, Γ.Foreign x → Twin c ρ (Value.relabel ρ) x x)
    (hvalue : ∀ t, Twin c ρ (Value.relabel ρ) (value t) (value t)) (fuel : Nat) (t : Ty)
    (σ : List (String × Ty)) (item : Item Ty) (body : ReaderBody Ty) :
    Twin c ρ (Value.relabel ρ)
      (ObjectStream.decodeDerived Γ value (ObjectStream.decodeFieldList Γ value fuel) t σ item body)
      (ObjectStream.decodeDerived Γ value (ObjectStream.decodeFieldList Γ value fuel) t σ item
        body) := by
  have hfields := decodeFieldList hforeign hvalue fuel
  have hfield := decodeField hforeign hvalue hfields σ
  cases body with
  | fieldArray struct =>
      exact (head .arrayHeader).bind fun count => ite (throw _) (hfields t)
  | fieldMap struct n holders result =>
      refine (head .mapHeader).bind fun count => ite (throw _) ?_
      have hentries := decodeEntries hfield struct holders count (holders.map fun _ => none)
      rw [List.map_map] at hentries
      exact hentries.bind fun slots => list (takeSlots struct result.parts slots)
  | discriminant enum names =>
      refine (head (.signed .w64)).bind fun number => ?_
      simp only [id_eq]
      split
      · split
        · exact pure rfl
        · exact throw _
      · exact throw _
  | variantArray enum arms =>
      refine (head .arrayHeader).bind fun len => ite (throw _) <|
        (head (.unsigned .w32)).bind fun index => ?_
      simp only [id_eq]
      split
      · exact ite (throw _) ((each fun field _ => hfield field).map fun vs =>
          (Value.relabel_variant index vs).symm)
      · exact throw _

theorem decodeOptional (hc : c.registry.Natural)
    (hvalue : ∀ t, Twin c ρ (Value.relabel ρ) (value t) (value t)) (t : Ty) :
    Twin c ρ (Value.relabel ρ) (ObjectStream.decodeOptional value t)
      (ObjectStream.decodeOptional value t) := by
  cases t with
  | option t => exact nilOr ((head (.arrayHeaderOf 1)).bind fun _ => hvalue _)
  | shared pointee => exact optionOf (sharedValue hc hvalue pointee)
  | unique pointee => exact optionOf (uniqueValue hc hvalue pointee)
  | _ => exact nilOr (hvalue _)

/-- A step of the reading of values reads alike if the reading of the values inside does. -/
theorem decodeStep (hc : c.registry.Natural)
    (hforeign : ∀ x, Γ.Foreign x → Twin c ρ (Value.relabel ρ) x x)
    (hvalue : ∀ t, Twin c ρ (Value.relabel ρ) (value t) (value t)) (t : Ty) :
    Twin c ρ (Value.relabel ρ) (ObjectStream.decodeStep Γ value t)
      (ObjectStream.decodeStep Γ value t) := by
  induction t using Ty.tuple_induction with
  | tuple ts ih =>
      rw [decodeStep_tuple]
      exact (head (.arrayHeaderOf _)).bind fun _ => list (each ih)
  | other t htuple =>
    cases hcodec : Γ.codec? t with
    | some codec =>
      rw [decodeStep_custom value hcodec]
      exact hforeign _ (.type hcodec)
    | none =>
      cases t with
      | scalar s => exact (scalar s).map fun _ => rfl
      | errorCode => exact errorCode.map fun _ => rfl
      | tuple ts => exact absurd rfl (htuple ts)
      | array e n =>
          rw [decodeStep_array]
          exact (head (.arrayHeaderOf n)).bind fun _ => list (times (hvalue e) n)
      | seq kind e =>
          by_cases hkind : kind = .slice
          · subst hkind
            exact throw _
          · rw [decodeStep_seq value hkind]
            exact list (hvalue e).decodeVec
      | set kind e =>
          rw [decodeStep_set]
          exact (hvalue e).decodeVec.map fun vs => Value.relabel_set kind (Γ.order e) vs
      | map kind k u =>
          rw [decodeStep_map]
          exact ((hvalue k).pair (hvalue u)).decodeVec.map fun ps =>
            Value.relabel_map kind (Γ.order k) ps
      | option t =>
          rw [decodeStep_option value hcodec]
          exact decodeOptional hc hvalue t
      | shared pointee => exact required _ (sharedValue hc hvalue pointee)
      | unique pointee => exact required _ (uniqueValue hc hvalue pointee)
      | named name args =>
          simp only [ObjectStream.decodeStep, hcodec]
          split
          · exact decodeDerived hforeign hvalue _ _ _ _ _
          · exact throw _
      | ref t | dyn name | param name => exact throw _

/-- All values are read alike, whatever the bound on the depth. -/
theorem decodeWithin (hc : c.registry.Natural)
    (hforeign : ∀ x, Γ.Foreign x → Twin c ρ (Value.relabel ρ) x x) (depth : Nat) (t : Ty) :
    Twin c ρ (Value.relabel ρ) (ObjectStream.decodeWithin Γ depth t)
      (ObjectStream.decodeWithin Γ depth t) := by
  induction depth generalizing t with
  | zero => exact throw _
  | succ depth ih => exact decodeStep hc hforeign ih t

theorem decode (hc : c.registry.Natural)
    (hforeign : ∀ x, Γ.Foreign x → Twin c ρ (Value.relabel ρ) x x) (t : Ty) :
    Twin c ρ (Value.relabel ρ) (ObjectStream.decode Γ t) (ObjectStream.decode Γ t) :=
  remaining.bind fun _ => decodeWithin hc hforeign _ t

theorem decodeFields (hc : c.registry.Natural)
    (hforeign : ∀ x, Γ.Foreign x → Twin c ρ (Value.relabel ρ) x x) (t : Ty) :
    Twin c ρ (Value.relabel ρ) (ObjectStream.decodeFields Γ t) (ObjectStream.decodeFields Γ t) :=
  remaining.bind fun _ => decodeFieldList hforeign (decodeWithin hc hforeign _) _ t

end Twin

end Reader

end ObjectStream
