import ObjectStream.Proofs.Graph

/-!
# Walks over a stream

A reader may go over the values of a stream in any order, read some and skip
others. The reading of a value opens a place for each object that the writer
entered with the value, from the end of the table on. So the objects get their
own serials if and only if the table is as long as the writer's was. As long as
this holds at every reading, the table stays aligned with the writer's: no
reference leads to another object, and an object that was read is found.
-/

namespace ObjectStream

open InStream

variable {Γ : Schema} {c : Context} {H : Heap}

theorem encodeAll_append (a b : List (Ty × Value)) :
    encodeAll Γ (a ++ b) = (do encodeAll Γ a; encodeAll Γ b) := by
  rw [encodeAll, List.forM_eq_forM, List.forM_append]
  rfl

theorem encodeAll_cons (q : Ty × Value) (values : List (Ty × Value)) :
    encodeAll Γ (q :: values) = (do encode Γ q.1 q.2; encodeAll Γ values) := rfl

/-! ## Registered objects -/

/-- Between two states of the reader, a place was opened for each object that the writer entered
between two of its states, and the place of each is its serial. -/
def Registers (c : Context) (H : Heap) (s s' : OutStream) (r r' : InStream) : Prop :=
  ∀ k id, s.entered.length ≤ k → s'.entered[k]? = some id →
    r.slots.length ≤ k ∧ ∃ slot, r'.slots[k]? = some slot ∧
      c.registry.tag? (H id).type = some slot.tag

/-- The objects of the writer have tags. -/
theorem OutStream.Coherent.exists_tag {s : OutStream} (h : s.Coherent c H) {id : Identity}
    (hid : id ∈ s.entered) : ∃ tag, c.registry.tag? (H id).type = some tag := by
  cases hshared : s.shared with
  | none => simp [OutStream.entered, hshared] at hid
  | some table =>
      cases hfind : table.find? id with
      | none => exact absurd hid (h.known table id hshared hfind)
      | some found =>
          obtain ⟨tag, serial⟩ := found
          obtain ⟨_, _, _, htag⟩ := h.found table id tag serial hshared hfind
          exact ⟨tag, htag⟩

theorem OutStream.getElem?_newTags {s s' : OutStream} {k : Nat} {id : Identity} {tag : TypeTag}
    (hk : s.entered.length ≤ k) (hid : s'.entered[k]? = some id)
    (htag : c.registry.tag? (H id).type = some tag) :
    (s.newTags c H s')[k - s.entered.length]? = some tag := by
  rw [newTags, List.getElem?_map, List.getElem?_drop, Nat.add_sub_cancel' hk, hid,
    Option.map_some, htag, Option.getD_some]

/-- Places are opened from the end of the table on, so they are the serials if and only if the
table is as long as the writer's was. -/
theorem InStream.Moved.registers_iff {s s' : OutStream} {r r' : InStream} (hs' : s'.Coherent c H)
    (hgrows : s.entered.length ≤ s'.entered.length) (hmoved : Moved r r' (s.newTags c H s')) :
    Registers c H s s' r r' ↔ InStep s s' r := by
  have hcount := hmoved.count
  rw [OutStream.length_newTags] at hcount
  constructor
  · intro h
    by_cases hnone : s'.entered.length = s.entered.length
    · exact .inr hnone
    · have hentered (k : Nat) (hk : k < s'.entered.length) := List.getElem?_eq_getElem hk
      obtain ⟨hfirst, _⟩ := h s.entered.length _ (Nat.le_refl _) (hentered _ (by omega))
      obtain ⟨_, slot, hlast, _⟩ :=
        h (s'.entered.length - 1) _ (by omega) (hentered _ (by omega))
      have hlt := (List.getElem?_eq_some_iff.1 hlast).1
      exact .inl (by omega)
  · intro hstep k id hk hid
    have hlt := (List.getElem?_eq_some_iff.1 hid).1
    have hlength : r.slots.length = s.entered.length := by
      rcases hstep with hlength | hnone
      · exact hlength
      · omega
    obtain ⟨tag, htag⟩ := hs'.exists_tag (List.mem_of_getElem? hid)
    refine ⟨by omega, ?_⟩
    have htags : (r'.slots.map Slot.tag)[k]? = some tag := by
      rw [hmoved.tags, List.getElem?_append_right (by rw [List.length_map]; omega),
        List.length_map, hlength, OutStream.getElem?_newTags hk hid htag]
    rw [List.getElem?_map, Option.map_eq_some_iff] at htags
    obtain ⟨slot, hslot, rfl⟩ := htags
    exact ⟨slot, hslot, htag⟩

/-! ## Walks -/

namespace Recording

variable (R : Recording Γ c H)

/-- A value stands in the recording: it took the stream from one state to another. -/
def Stands (s : OutStream) (q : Ty × Value) (s' : OutStream) : Prop :=
  ∃ before after, R.values = before ++ q :: after ∧
    encodeAll Γ before R.start = .ok () s ∧ encode Γ q.1 q.2 s = .ok () s'

/-- The streams that a reader of the recording can get to value by value, with the objects whose
bodies it has read since it went back to the start. It may skip and go anywhere, and read where a
value starts if `may` allows it. -/
inductive Walk (may : OutStream → OutStream → InStream → Prop) : InStream → List Identity → Prop
  | fresh (next : Identity) (journal : Journal) :
      Walk may (.ofBytes c R.final.sink.data next journal) []
  | read {r ids s q s' w r'} : Walk may r ids → R.Stands s q s' → r.pos = s.size → may s s' r →
      decode Γ q.1 r = .ok w r' → Walk may r' (ids ++ s'.entered.drop s.entered.length)
  | fail {r ids s q s' e r'} : Walk may r ids → R.Stands s q s' → r.pos = s.size → may s s' r →
      decode Γ q.1 r = .error e r' → Walk may r' ids
  | skip {r ids} : Walk may r ids → Walk may (stateAfter Reader.skip r) ids
  | seek {r ids} (pos : Nat) : Walk may r ids → Walk may (stateAfter (Reader.seek pos) r) ids
  | rewind {r ids} : Walk may r ids → Walk may (stateAfter Reader.rewind r) []

/-- What no step of a walk changes. -/
structure Plays (r : InStream) : Prop where
  context : r.context = c
  tracks : r.tracks = c.dedup
  data : r.cursor.data = R.final.sink.data

variable {R} {s s' : OutStream} {q : Ty × Value} {r r' : InStream}

theorem Plays.moved {tags : List TypeTag} (h : R.Plays r) (hmoved : Moved r r' tags) :
    R.Plays r' :=
  ⟨hmoved.context.trans h.context, hmoved.tracks.trans h.tracks, hmoved.data.trans h.data⟩

theorem Plays.still {α : Type} {x : Reader α} (h : R.Plays r) (hx : Reader.Still x) :
    R.Plays (stateAfter x r) := by
  obtain ⟨pos, hpos⟩ := hx r
  rw [hpos]
  exact ⟨h.context, h.tracks, h.data⟩

theorem Plays.rewind (h : R.Plays r) : R.Plays (stateAfter Reader.rewind r) := by
  refine ⟨h.context, ?_, h.data⟩
  rw [← h.tracks]
  simp [stateAfter, Reader.rewind, InStream.tracks]

/-- The part of the recording that a value takes. -/
theorem Stands.wrote (hc : c.WellFormed) (hΓ : Γ.WellFormed) (h : R.Stands s q s') :
    s.Coherent c H ∧ s.tracks = c.dedup ∧ Fits Γ c H false (.whole q.1) q.2 ∧
      s'.entered <+: R.final.entered ∧
      ∃ bytes tail, Wrote c H (q.2.sightings s.entered) bytes s s' ∧
        unpacked R.final.sink.data = unpacked s.sink.data ++ (bytes ++ tail) := by
  obtain ⟨before, after, hvalues, hbefore, hvalue⟩ := h
  have hfits := R.fits
  rw [hvalues] at hfits
  simp only [List.forall_mem_append, List.forall_mem_cons] at hfits
  have hwritten := R.written
  rw [hvalues, encodeAll_append, encodeAll_cons] at hwritten
  obtain ⟨_, t, hbefore', hrest⟩ := bind_ok hwritten
  rw [show OutStream.ofSink c R.sink R.journal = R.start from rfl, hbefore] at hbefore'
  cases hbefore'
  obtain ⟨_, t, hvalue', hafter⟩ := bind_ok hrest
  rw [hvalue] at hvalue'
  cases hvalue'
  obtain ⟨_, _, hw₁⟩ := Writes.sequence hc hΓ hfits.1 R.start s OutStream.coherent_ofSink hbefore
  obtain ⟨bytes, _, hw₂⟩ := hfits.2.1.writes hc hΓ s s' hw₁.coherent hvalue
  obtain ⟨tail, _, hw₃⟩ := Writes.sequence hc hΓ hfits.2.2 s' R.final hw₂.coherent hafter
  refine ⟨hw₁.coherent, hw₁.tracks.trans OutStream.tracks_ofSink, hfits.2.1, hw₃.entered_grows,
    bytes, tail, hw₂, ?_⟩
  rw [hw₃.sink, hw₂.sink]
  simp [ByteSink.append, List.append_assoc]

/-- How the reading of a value comes out, whatever the table holds. -/
theorem Stands.outcome (hc : c.WellFormed) (hΓ : Γ.WellFormed)
    (hcount : R.final.entered.length ≤ 2 ^ 32) (h : R.Stands s q s') (hr : R.Plays r)
    (hpos : r.pos = s.size) :
    ∃ bytes, Outcome Γ c H R.final.entered s s' (q.2.sightings s.entered) bytes
      (fun ρ w => Same Γ ρ (.whole q.1) q.2 w) r (decode Γ q.1 r) := by
  obtain ⟨hs, htracks, hfits, hgrows, bytes, tail, hwrote, hdata⟩ := h.wrote hc hΓ
  obtain ⟨before, after, _, _, hvalue⟩ := h
  have hrest : r.rest = bytes ++ tail := by
    have hpos' : r.cursor.pos = (unpacked s.sink.data).length := hpos
    rw [InStream.rest, hr.data, hdata, hpos', List.drop_left]
  exact ⟨bytes, hfits.mirrors hc hΓ bytes.length s s' bytes hs hvalue hwrote (Nat.le_refl _)
    R.final.entered hgrows hcount r tail hr.context (hr.tracks.trans htracks.symm) hrest⟩

/-- A walk stays in the recording. -/
theorem Walk.plays (hc : c.WellFormed) (hΓ : Γ.WellFormed)
    (hcount : R.final.entered.length ≤ 2 ^ 32) {may : OutStream → OutStream → InStream → Prop}
    {ids : List Identity} (h : R.Walk may r ids) : R.Plays r := by
  induction h with
  | fresh next journal => exact ⟨rfl, InStream.tracks_ofBytes _ _, rfl⟩
  | read _ hstands hpos _ hres ih =>
      obtain ⟨_, hread⟩ := hstands.outcome hc hΓ hcount ih hpos
      rw [hres] at hread
      exact ih.moved hread.2.1
  | fail _ hstands hpos _ hres ih =>
      obtain ⟨_, hread⟩ := hstands.outcome hc hΓ hcount ih hpos
      rw [hres] at hread
      obtain ⟨⟨_, _, hmoved⟩, _⟩ := hread
      exact ih.moved hmoved
  | skip _ ih => exact ih.still .skip
  | seek pos _ ih => exact ih.still (.seek pos)
  | rewind _ ih => exact ih.rewind

def registered (R : Recording Γ c H) (r : InStream) : Renaming := fun id object =>
  ∃ k, R.final.entered[k]? = some id ∧ r.held? k = some object

/-- What holds while each reading is in step: the table is aligned, and the objects that have been
read are in it. -/
structure Current (R : Recording Γ c H) (r : InStream) (ids : List Identity) : Prop where
  aligned : r.Aligned Γ c H R.final.entered
  held : ∀ id ∈ ids, ∃ object, R.registered r id object

theorem Current.still {α : Type} {x : Reader α} {ids : List Identity} (h : R.Current r ids)
    (hx : Reader.Still x) : R.Current (stateAfter x r) ids := by
  obtain ⟨pos, hpos⟩ := hx r
  rw [hpos]
  exact ⟨h.aligned.of_slots rfl rfl (Nat.le_refl _), h.held⟩

theorem Current.grows {ids : List Identity} (h : R.Current r ids)
    (ha : r'.Aligned Γ c H R.final.entered) (hslots : r.slots <+: r'.slots) :
    R.Current r' ids := by
  refine ⟨ha, fun id hid => ?_⟩
  obtain ⟨object, k, hk, hobject⟩ := h.held id hid
  exact ⟨object, k, hk, held?_of_grows hslots hobject⟩

theorem Current.of_slots (h : r.slots = []) : R.Current r [] := ⟨aligned_of_slots h, nofun⟩

/-- A table that is aligned when a value is read in step is aligned afterwards and holds the
objects of the value. -/
theorem Current.read {ids : List Identity} {bytes : List UInt8} {Q : Renaming → Value → Prop}
    {w : Value} (h : R.Current r ids) (hgrows : s'.entered <+: R.final.entered)
    (hstep : InStep s s' r)
    (hread : Outcome Γ c H R.final.entered s s' (q.2.sightings s.entered) bytes Q r (.ok w r')) :
    R.Current r' (ids ++ s'.entered.drop s.entered.length) := by
  obtain ⟨_, hmoved, hright⟩ := hread
  obtain ⟨ha, hfilled, _⟩ := hright h.aligned hstep
  refine ⟨ha, fun id hid => ?_⟩
  rcases List.mem_append.1 hid with hid | hid
  · exact (h.grows ha hmoved.slots).held id hid
  · obtain ⟨i, hi⟩ := List.mem_iff_getElem?.1 hid
    rw [List.getElem?_drop] at hi
    obtain ⟨object, hobject⟩ := hfilled (s.entered.length + i) (Nat.le_add_right _ _)
      (List.getElem?_eq_some_iff.1 hi).1
    exact ⟨object, _, getElem?_of_isPrefix hgrows hi, hobject⟩

/-- A walk that reads in step keeps the table aligned. -/
theorem Walk.current (hc : c.WellFormed) (hΓ : Γ.WellFormed)
    (hcount : R.final.entered.length ≤ 2 ^ 32) {ids : List Identity}
    (h : R.Walk InStep r ids) : R.Current r ids := by
  induction h with
  | fresh next journal => exact .of_slots (slots_ofBytes _ _ _ _)
  | read hwalk hstands hpos hstep hres ih =>
      obtain ⟨_, _, _, hgrows, _⟩ := hstands.wrote hc hΓ
      obtain ⟨_, hread⟩ := hstands.outcome hc hΓ hcount (hwalk.plays hc hΓ hcount) hpos
      rw [hres] at hread
      exact ih.read hgrows hstep hread
  | fail hwalk hstands hpos hstep hres ih =>
      obtain ⟨_, hread⟩ := hstands.outcome hc hΓ hcount (hwalk.plays hc hΓ hcount) hpos
      rw [hres] at hread
      obtain ⟨⟨_, _, hmoved⟩, hright⟩ := hread
      exact ih.grows (hright ih.aligned hstep).1 hmoved.slots
  | skip _ ih => exact ih.still .skip
  | seek pos _ ih => exact ih.still (.seek pos)
  | @rewind r =>
      refine .of_slots ?_
      cases hshared : r.shared <;> simp [stateAfter, Reader.rewind, slots, hshared]

/-- Objects are registered under different serials if and only if they are different. -/
theorem Current.id_eq_iff {ids : List Identity} (h : R.Current r ids)
    (hnodup : R.final.entered.Nodup) {id id' : Identity} {object object' : Shared}
    (hid : R.registered r id object) (hid' : R.registered r id' object') :
    object.id = object'.id ↔ id = id' := by
  obtain ⟨k, hk, hobject⟩ := hid
  obtain ⟨l, hl, hobject'⟩ := hid'
  constructor
  · intro heq
    have hplace := h.aligned.distinct k l _ _ hobject hobject' heq
    rw [hplace, hl] at hk
    exact (Option.some.inj hk).symm
  · intro heq
    have hplace : k = l := by
      refine (List.getElem?_inj (List.getElem?_eq_some_iff.1 hk).1 hnodup).1 ?_
      rw [hk, hl, heq]
    rw [hplace, hobject'] at hobject
    rw [Option.some.inj hobject]

/-- A reading in step that fails refers to an object that has not been read. -/
theorem Current.exists_missing {ids sighted : List Identity} (h : R.Current r ids)
    (hnodup : R.final.entered.Nodup) (hgrows : s.entered <+: R.final.entered)
    (hmissing : ¬ Resolves s sighted r) : ∃ id ∈ sighted, id ∈ s.entered ∧ id ∉ ids := by
  unfold Resolves at hmissing
  push Not at hmissing
  obtain ⟨id, hid, k, hk, hnone⟩ := hmissing
  refine ⟨id, hid, List.mem_of_getElem? hk, fun hread => ?_⟩
  obtain ⟨object, l, hl, hobject⟩ := h.held id hread
  have hplace : k = l := by
    have hk' := getElem?_of_isPrefix hgrows hk
    refine (List.getElem?_inj (List.getElem?_eq_some_iff.1 hk').1 hnodup).1 ?_
    rw [hk', hl]
  rw [← hplace] at hobject
  exact hnone object hobject

/-- Wherever a reader goes, a value that it reads puts each of its objects under the serial of the
object if and only if the reading is in step. As long as each reading is in step, what is under a
serial was read from the object with that serial, a pointer that is read leads to it, and a reading
only fails if it refers to an object that has not been read. -/
theorem registers_iff_inStep (hc : c.WellFormed) (hdedup : c.dedup = true) (hΓ : Γ.WellFormed)
    (R : Recording Γ c H) (hcount : R.final.entered.length ≤ 2 ^ 32) :
    (∀ may r ids s q s', R.Walk may r ids → R.Stands s q s' → r.pos = s.size →
      ∀ w r', decode Γ q.1 r = .ok w r' →
        r.slots <+: r'.slots ∧
        r'.slots.map Slot.tag = r.slots.map Slot.tag ++ s.newTags c H s' ∧
        (Registers c H s s' r r' ↔ InStep s s' r)) ∧
    ∀ r ids, R.Walk InStep r ids →
      R.Current r ids ∧
      (∀ id object id' object', R.registered r id object → R.registered r id' object' →
        (object.id = object'.id ↔ id = id')) ∧
      ∀ s q s', R.Stands s q s' → r.pos = s.size → InStep s s' r →
        (∃ w r', decode Γ q.1 r = .ok w r' ∧
          Same Γ (R.registered r') (.whole q.1) q.2 w) ∨
        ∃ e r', decode Γ q.1 r = .error e r' ∧
          ∃ id ∈ q.2.sightings s.entered, id ∈ s.entered ∧ id ∉ ids := by
  have hnodup : R.final.entered.Nodup := (R.wrote hc hΓ).coherent.nodup
  constructor
  · intro may r ids s q s' hwalk hstands hpos w r' hres
    obtain ⟨_, _, _, _, _, _, hwrote, _⟩ := hstands.wrote hc hΓ
    obtain ⟨_, hread⟩ := hstands.outcome hc hΓ hcount (hwalk.plays hc hΓ hcount) hpos
    rw [hres] at hread
    obtain ⟨_, hmoved, _⟩ := hread
    exact ⟨hmoved.slots, hmoved.tags,
      hmoved.registers_iff hwrote.coherent hwrote.entered_grows.length_le⟩
  · intro r ids hwalk
    have hplays := hwalk.plays hc hΓ hcount
    have hcurrent := hwalk.current hc hΓ hcount
    refine ⟨hcurrent, fun _ _ _ _ => hcurrent.id_eq_iff hnodup, ?_⟩
    intro s q s' hstands hpos hstep
    obtain ⟨_, _, _, hgrows, _, _, hwrote, _⟩ := hstands.wrote hc hΓ
    obtain ⟨_, hread⟩ := hstands.outcome hc hΓ hcount hplays hpos
    cases hres : decode Γ q.1 r with
    | ok w r' =>
        rw [hres] at hread
        obtain ⟨_, hmoved, hright⟩ := hread
        obtain ⟨_, _, hsame⟩ := hright hcurrent.aligned hstep
        refine .inl ⟨w, r', rfl, hsame.mono fun id object hbond => hbond ?_⟩
        rw [hmoved.tracks, hplays.tracks, hdedup]
    | error e r' =>
        rw [hres] at hread
        obtain ⟨_, hright⟩ := hread
        exact .inr ⟨e, r', rfl, hcurrent.exists_missing hnodup
          (hwrote.entered_grows.trans hgrows) (hright hcurrent.aligned hstep).2⟩

end Recording

def repeatedTextRoots : List (Ty × Value) :=
  [(.shared .string, .sharedText 0 "a"), (.shared .string, .sharedText 1 "b"),
    (.shared .string, .sharedText 1 "b")]

theorem fits_repeatedTextRoots :
    ∀ q ∈ repeatedTextRoots, Fits .empty .textPairs textPairHeap false (.whole q.1) q.2 := by
  have ha : Fits .empty .textPairs textPairHeap false (.whole (.shared .string))
      (.sharedText 0 "a") := .shared rfl ⟨1, rfl, rfl⟩ (.scalar nofun rfl)
  have hb : Fits .empty .textPairs textPairHeap false (.whole (.shared .string))
      (.sharedText 1 "b") := .shared rfl ⟨1, rfl, rfl⟩ (.scalar nofun rfl)
  simp only [repeatedTextRoots, List.forall_mem_cons, List.not_mem_nil, false_implies,
    implies_true, and_true]
  exact ⟨ha, hb, hb⟩

def repeatedTexts : Recording .empty .textPairs textPairHeap where
  values := repeatedTextRoots
  sink := .growable
  journal := none
  final := stateAfter (encodeAll .empty repeatedTextRoots) (.ofSink .textPairs .growable none)
  fits := fits_repeatedTextRoots
  empty := rfl
  written := by
    obtain ⟨⟨⟩, h⟩ := ok_of_succeeds (x := encodeAll .empty repeatedTextRoots)
      (s := OutStream.ofSink .textPairs .growable none) (by decide +kernel)
    exact h

/-- The first text gets its serial when it is read from the start, but not when the reader seeks
the start and reads it once more. -/
theorem registers_iff_inStep_repeatedTexts :
    ∃ (s s' : OutStream) (q : Ty × Value) (r r' r'' : InStream) (w w' : Value),
      repeatedTexts.Stands s q s' ∧ repeatedTexts.Walk (fun _ _ _ => True) r [] ∧
      decode .empty q.1 r = .ok w r' ∧ Registers .textPairs textPairHeap s s' r r' ∧
      decode .empty q.1 (stateAfter (Reader.seek 0) r') = .ok w' r'' ∧
      ¬ Registers .textPairs textPairHeap s s' (stateAfter (Reader.seek 0) r') r'' := by
  obtain ⟨⟨⟩, hfirst⟩ := ok_of_succeeds
    (x := encode .empty (.shared .string) (.sharedText 0 "a"))
    (s := repeatedTexts.start) (by decide +kernel)
  have hstands : repeatedTexts.Stands repeatedTexts.start (.shared .string, .sharedText 0 "a") _ :=
    ⟨[], _, rfl, rfl, hfirst⟩
  obtain ⟨w, hread⟩ := ok_of_succeeds (x := decode .empty (.shared .string))
    (s := .ofBytes .textPairs repeatedTexts.final.sink.data 0 none) (by decide +kernel)
  obtain ⟨w', hread'⟩ := ok_of_succeeds (x := decode .empty (.shared .string))
    (s := stateAfter (Reader.seek 0) (stateAfter (decode .empty (.shared .string))
      (.ofBytes .textPairs repeatedTexts.final.sink.data 0 none))) (by decide +kernel)
  have hwalk : repeatedTexts.Walk (fun _ _ _ => True) _ [] := .fresh 0 none
  have hwalk' := (hwalk.read hstands rfl trivial hread).seek 0
  have hregisters := (Recording.registers_iff_inStep Context.wellFormed_textPairs rfl
    Schema.wellFormed_empty repeatedTexts (by decide +kernel)).1
  refine ⟨_, _, _, _, _, _, w, w', hstands, hwalk, hread, ?_, hread', ?_⟩
  · refine (hregisters _ _ _ _ _ _ hwalk hstands rfl w _ hread).2.2.2 (.inl ?_)
    decide +kernel
  · rw [(hregisters _ _ _ _ _ _ hwalk' hstands ?_ w' _ hread').2.2]
    · unfold InStep
      decide +kernel
    · decide +kernel

end ObjectStream
