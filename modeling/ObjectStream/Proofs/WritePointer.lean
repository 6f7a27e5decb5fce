import ObjectStream.Proofs.Compose

/-!
# What is written for pointers

A pointer to an object that the stream does not track is its tag and its body.
Otherwise the object's first pointer enters it under the next serial before its
body is written, and every later one is its tag and its serial. Either way the
stream's table stays coherent.
-/

namespace ObjectStream

variable {c : Context} {H : Heap}

namespace OutStream

def noted (s : OutStream) (event : Event) : OutStream :=
  { s with journal := s.journal.note event }

def enter (s : OutStream) (table : WrittenTable) (id : Identity) (tag : TypeTag) : OutStream :=
  { s with
    shared := some (table.enter id tag s.size)
    journal := s.journal.note (.newObject tag table.nextSerial) }

theorem tracks_of_shared {s : OutStream} {table : WrittenTable}
    (hshared : s.shared = some table) : s.tracks = true := by
  rw [tracks, hshared]
  rfl

theorem entered_enter {s : OutStream} {table : WrittenTable} (hshared : s.shared = some table)
    (id : Identity) (tag : TypeTag) :
    (s.enter table id tag).entered = s.entered ++ [id] := by
  simp [entered, enter, WrittenTable.enter, hshared]

theorem length_entered {s : OutStream} {table : WrittenTable} (hshared : s.shared = some table) :
    s.entered.length = table.written.size := by
  simp [entered, hshared]

theorem Coherent.enter {s : OutStream} (hs : s.Coherent c H) {table : WrittenTable}
    (hshared : s.shared = some table) {id : Identity} {tag : TypeTag}
    (hnew : table.find? id = none) (htag : c.registry.tag? (H id).type = some tag) :
    (s.enter table id tag).Coherent c H := by
  have hentered := entered_enter hshared id tag
  have hfresh : id ∉ s.entered := hs.known table id hshared hnew
  have hfind (other : Identity) : (table.enter id tag s.size).find? other =
      if id = other then some (tag, table.nextSerial) else table.find? other := by
    simp only [WrittenTable.find?, WrittenTable.enter, Std.ExtTreeMap.getElem?_insert,
      Std.LawfulEqOrd.compare_eq_iff_eq]
  constructor
  · exact hs.context
  · rw [hentered, List.nodup_append]
    refine ⟨hs.nodup, by simp, ?_⟩
    intro a ha b hb hab
    rw [List.mem_singleton] at hb
    exact hfresh (hb ▸ hab ▸ ha)
  · intro table' other tag' serial htable hother
    cases htable
    rw [hfind] at hother
    rw [hentered]
    split at hother
    · next heq =>
        subst heq
        cases hother
        refine ⟨s.entered.length, by simp, ?_, htag⟩
        rw [length_entered hshared]
        rfl
    · obtain ⟨k, hk, hserial, htag'⟩ := hs.found table other tag' serial hshared hother
      exact ⟨k, getElem?_of_isPrefix (List.prefix_append _ _) hk, hserial, htag'⟩
  · intro table' other htable hother
    cases htable
    rw [hfind] at hother
    rw [hentered, List.mem_append, List.mem_singleton]
    split at hother
    · cases hother
    · next hne =>
        rintro (hmem | rfl)
        · exact hs.known table other hshared hother hmem
        · exact hne rfl

end OutStream

/-! ## Pointers by cases -/

namespace Writer

theorem taggedBody_eq (tag : TypeTag) (body : Writer Unit) :
    taggedBody tag body = (do spell (.array 2); spell (.uint tag); body) := by
  rw [taggedBody, arrayHeader_eq, if_pos (by decide), uint_eq]

def reference (tag : TypeTag) (serial : Nat) : Writer Unit := do
  spell (.array 2)
  spell (.uint tag)
  spell (.uint serial)

/-- Refuses a body that starts with an integer. -/
def checkBody (type : Ty) (start : Nat) : Writer Unit := do
  match ← byteAt? start with
  | some code =>
      if (Format.family code).isInteger then
        MonadExcept.throw (.invalidArgument (.integerBody type))
  | none => Pure.pure ()

def firstBody (type : Ty) (tag : TypeTag) (body : Writer Unit) : Writer Unit := do
  spell (.array 2)
  spell (.uint tag)
  let start ← position
  body
  checkBody type start

/-- A pointer to a shared object by what the stream knows of the object. -/
theorem shared_run (id : Identity) (type : Ty) (body : Writer Unit) (s : OutStream) :
    Writer.shared id type body s =
      match s.context.registry.requireTag type with
      | .error e => .error e s
      | .ok tag =>
          match s.shared with
          | none => taggedBody tag body s
          | some table =>
              match table.find? id with
              | some (tag, serial) => reference tag serial (s.noted (.backReference tag serial))
              | none => firstBody type tag body (s.enter table id tag) := by
  simp only [Writer.shared, Bind.bind, EStateM.bind, requireTag, encounter, uint_eq,
    arrayHeader_eq, if_pos (show 2 < 2 ^ 32 by decide)]
  cases s.context.registry.requireTag type with
  | error e => rfl
  | ok tag =>
      cases hshared : s.shared with
      | none => simp only [hshared]
      | some table =>
          cases hfind : table.find? id with
          | some found =>
              simp only [hshared, hfind]
              rfl
          | none =>
              have henter : Writer.enter id tag s = .ok () (s.enter table id tag) := by
                simp only [Writer.enter, hshared]
                rfl
              simp only [hshared, hfind, EStateM.bind, henter]
              rfl

theorem shared_cases (id : Identity) (type : Ty) (body : Writer Unit) (s : OutStream) :
    (∃ e, Writer.shared id type body s = .error e s) ∨
    (∃ tag, s.shared = none ∧ Writer.shared id type body s = taggedBody tag body s) ∨
    (∃ tag serial, Writer.shared id type body s =
      reference tag serial (s.noted (.backReference tag serial))) ∨
    (∃ table tag, s.shared = some table ∧ table.find? id = none ∧
      Writer.shared id type body s = firstBody type tag body (s.enter table id tag)) := by
  rw [shared_run]
  cases s.context.registry.requireTag type with
  | error e => exact .inl ⟨e, rfl⟩
  | ok tag =>
      cases hshared : s.shared with
      | none => exact .inr (.inl ⟨tag, rfl, rfl⟩)
      | some table =>
          cases hfind : table.find? id with
          | some found =>
              simp only [hfind]
              exact .inr (.inr (.inl ⟨found.1, found.2, rfl⟩))
          | none =>
              simp only [hfind]
              exact .inr (.inr (.inr ⟨table, tag, rfl, hfind, rfl⟩))

/-- The check looks at the stream and leaves it. -/
theorem checkBody_cases (type : Ty) (start : Nat) (s : OutStream) :
    checkBody type start s = .ok () s ∨ ∃ e, checkBody type start s = .error e s := by
  simp only [checkBody, Bind.bind, EStateM.bind, byteAt?]
  cases s.sink.data[start]? with
  | none => exact .inl rfl
  | some code =>
      dsimp only
      split
      · exact .inr ⟨_, rfl⟩
      · exact .inl rfl

theorem taggedBody_ok {tag : TypeTag} {body : Writer Unit} {s s' : OutStream}
    (h : taggedBody tag body s = .ok () s') :
    body (s.append (Form.pointer tag s.context.byteOrder)) = .ok () s' := by
  rw [taggedBody, ← bind_assoc] at h
  obtain ⟨_, t, hpointer, hbody⟩ := bind_ok h
  rw [← pointer_ok hpointer]
  exact hbody

theorem checkBody_ok {type : Ty} {start : Nat} {s s' : OutStream}
    (h : checkBody type start s = .ok () s') :
    s' = s ∧ ∀ code, s.sink.data[start]? = some code → (Format.family code).isInteger = false := by
  simp only [checkBody, Bind.bind, EStateM.bind, byteAt?] at h
  cases hcode : s.sink.data[start]? with
  | none =>
      rw [hcode] at h
      cases h
      exact ⟨rfl, nofun⟩
  | some code =>
      rw [hcode] at h
      dsimp only at h
      split at h
      · cases h
      · next hinteger =>
          cases h
          refine ⟨rfl, fun code' hsome => ?_⟩
          cases hsome
          simpa using hinteger

theorem reference_ok {tag : TypeTag} {serial : Nat} {s s' : OutStream}
    (h : reference tag serial s = .ok () s') :
    s' = s.append (Form.reference tag serial s.context.byteOrder) := by
  obtain ⟨_, t, harray, hrest⟩ := bind_ok h
  obtain ⟨_, u, htag, hserial⟩ := bind_ok hrest
  rw [spell_ok hserial, spell_ok htag, spell_ok harray, OutStream.append_append,
    OutStream.append_append]
  rfl

theorem firstBody_ok {type : Ty} {tag : TypeTag} {body : Writer Unit} {s s' : OutStream}
    (h : firstBody type tag body s = .ok () s') :
    body (s.append (Form.pointer tag s.context.byteOrder)) = .ok () s' ∧
      ∀ code, s'.sink.data[(s.append (Form.pointer tag s.context.byteOrder)).size]? = some code →
        (Format.family code).isInteger = false := by
  obtain ⟨_, t, harray, hrest⟩ := bind_ok h
  obtain ⟨_, u, htag, hrest⟩ := bind_ok hrest
  obtain ⟨start, _, hposition, hrest⟩ := bind_ok hrest
  cases hposition
  obtain ⟨_, v, hbody, hcheck⟩ := bind_ok hrest
  have hu : u = s.append (Form.pointer tag s.context.byteOrder) := by
    rw [spell_ok htag, spell_ok harray, OutStream.append_append]
    rfl
  subst hu
  obtain ⟨rfl, hcode⟩ := checkBody_ok hcheck
  exact ⟨hbody, hcode⟩

/-- What a run of the writer for pointers to shared objects has done when it succeeds. -/
theorem shared_ok {id : Identity} {type : Ty} {tag : TypeTag} {body : Writer Unit}
    {s s' : OutStream} (htag : s.context.registry.tag? type = some tag)
    (h : Writer.shared id type body s = .ok () s') :
    (s.shared = none ∧ taggedBody tag body s = .ok () s') ∨
    (∃ table tag' serial, s.shared = some table ∧ table.find? id = some (tag', serial) ∧
      s' = (s.noted (.backReference tag' serial)).append
        (Form.reference tag' serial s.context.byteOrder)) ∨
    (∃ table t, s.shared = some table ∧ table.find? id = none ∧
      t = (s.enter table id tag).append (Form.pointer tag s.context.byteOrder) ∧
      body t = .ok () s' ∧
      ∀ code, s'.sink.data[t.size]? = some code → (Format.family code).isInteger = false) := by
  rw [shared_run, Registry.requireTag, htag] at h
  dsimp only at h
  cases hshared : s.shared with
  | none =>
      rw [hshared] at h
      exact .inl ⟨rfl, h⟩
  | some table =>
      rw [hshared] at h
      dsimp only at h
      cases hfind : table.find? id with
      | some found =>
          rw [hfind] at h
          exact .inr (.inl ⟨table, found.1, found.2, rfl, hfind, reference_ok h⟩)
      | none =>
          rw [hfind] at h
          obtain ⟨hbody, hcheck⟩ := firstBody_ok h
          exact .inr (.inr ⟨table, _, rfl, hfind, rfl, hbody, hcheck⟩)

end Writer

theorem Writer.unique_ok {type : Ty} {tag : TypeTag} {body : Writer Unit} {s s' : OutStream}
    (htag : s.context.registry.tag? type = some tag)
    (h : Writer.unique type body s = .ok () s') : Writer.taggedBody tag body s = .ok () s' := by
  obtain ⟨tag', t, hrequire, hrun⟩ := bind_ok h
  simp only [Writer.requireTag, Registry.requireTag, htag] at hrequire
  cases hrequire
  exact hrun

namespace Wrote

variable {ids : List Identity} {a b : List UInt8} {s s' : OutStream}

/-- What was written for an object seen before. -/
theorem seen (hs : s.Coherent c H) {table : WrittenTable} (hshared : s.shared = some table)
    {id : Identity} {tag : TypeTag} {serial : Nat} (hfind : table.find? id = some (tag, serial))
    (event : Event) :
    Wrote c H [id] (Form.reference tag serial c.byteOrder) s
      ((s.noted event).append (Form.reference tag serial c.byteOrder)) where
  sink := rfl
  coherent := ⟨hs.context, hs.nodup, hs.found, hs.known⟩
  tracks := rfl
  entered := by
    obtain ⟨k, hk, _⟩ := hs.found table id tag serial hshared hfind
    have hmem : id ∈ s.entered := List.mem_of_getElem? hk
    rw [OutStream.enteredWith, OutStream.tracks_of_shared hshared, if_pos rfl, enterAll_cons,
      if_pos hmem]
    rfl
  framed := by
    obtain ⟨k, hk, hserial, htag⟩ := hs.found table id tag serial hshared hfind
    intro _
    rw [hserial]
    exact .reference hk htag

/-- What was written for an object at its first sight. -/
theorem first (hs : s.Coherent c H) {table : WrittenTable} (hshared : s.shared = some table)
    {id : Identity} {tag : TypeTag} (hnew : table.find? id = none)
    (htag : c.registry.tag? (H id).type = some tag)
    (hbody : Wrote c H ids b
      ((s.enter table id tag).append (Form.pointer tag c.byteOrder)) s') :
    Wrote c H (id :: ids) (Form.pointer tag c.byteOrder ++ b) s s' := by
  have htracks := OutStream.tracks_of_shared hshared
  have hfresh : id ∉ s.entered := hs.known table id hshared hnew
  have hentered : ((s.enter table id tag).append (Form.pointer tag c.byteOrder)).entered =
      s.entered ++ [id] := OutStream.entered_enter hshared id tag
  constructor
  · rw [hbody.sink, OutStream.append, ByteSink.append_append]
    congr 1
  · exact hbody.coherent
  · exact hbody.tracks.trans htracks.symm
  · rw [hbody.entered, OutStream.enteredWith, OutStream.enteredWith, htracks, if_pos rfl,
      enterAll_cons, if_neg hfresh, hentered]
    rfl
  · intro _
    have hframed := hbody.framed rfl
    rw [hentered] at hframed
    exact .object hfresh htag hframed

end Wrote

namespace Writes

variable {sight : List Identity → List Identity} {lead : List UInt8 → Prop} {body : Writer Unit}

theorem taggedBody (hc : c.WellFormed) {type : Ty} {tag : TypeTag}
    (htag : c.registry.tag? type = some tag) (hbody : Writes c H sight lead body) :
    Writes c H sight StartsValue (Writer.taggedBody tag body) := by
  obtain ⟨hnull, hlt⟩ := hc.tags type tag htag
  have hboth := behind (Conveys.pointerTag hnull hlt) hbody
  refine hboth.of_ok fun s s' _ h => ?_
  rw [bind_assoc]
  exact h

def sightShared (id : Identity) (sight : List Identity → List Identity) (seen : List Identity) :
    List Identity :=
  if id ∈ seen then [id] else id :: sight (seen ++ [id])

theorem unique (hc : c.WellFormed) {type pointee : Ty} (hmakes : c.registry.Makes type pointee)
    (hbody : Writes c H sight lead body) :
    Writes c H sight StartsValue (Writer.unique type body) := by
  obtain ⟨tag, htag, _⟩ := hmakes
  exact (taggedBody hc htag hbody).of_ok fun s s' hs h =>
    Writer.unique_ok (by rw [hs, htag]) h

theorem shared (hc : c.WellFormed) {id : Identity} {type pointee : Ty}
    (htype : (H id).type = type) (hmakes : c.registry.Makes type pointee)
    (hbody : Writes c H sight lead body) :
    Writes c H (sightShared id sight) StartsValue (Writer.shared id type body) := by
  obtain ⟨tag, htag, _⟩ := hmakes
  intro s s' hs h
  rcases Writer.shared_ok (by rw [hs.context, htag]) h with
    ⟨hshared, hrun⟩ | ⟨table, tag', serial, hshared, hfind, hrun⟩ |
      ⟨table, t, hshared, hnew, ht, hrun, _⟩
  · obtain ⟨bytes, hlead, hwrote⟩ := taggedBody hc htag hbody s s' hs hrun
    have htracks : s.tracks = false := by
      rw [OutStream.tracks, hshared]
      rfl
    exact ⟨bytes, hlead, hwrote.untracked htracks _⟩
  · obtain ⟨k, hk, _⟩ := hs.found table id tag' serial hshared hfind
    rw [hs.context] at hrun
    subst hrun
    refine ⟨Form.reference tag' serial c.byteOrder, Form.startsValue_reference tag' serial, ?_⟩
    rw [sightShared, if_pos (List.mem_of_getElem? hk)]
    exact Wrote.seen hs hshared hfind _
  · have henter := hs.enter hshared hnew (by rw [htype, htag])
    rw [hs.context] at ht
    subst ht
    have happend := Wrote.bytes henter (Form.pointer tag c.byteOrder)
    obtain ⟨bytes, _, hwrote⟩ := hbody _ s' happend.coherent hrun
    refine ⟨Form.pointer tag c.byteOrder ++ bytes, (Form.startsValue_pointer tag).append bytes, ?_⟩
    have hsight : ((s.enter table id tag).append (Form.pointer tag c.byteOrder)).entered =
        s.entered ++ [id] := OutStream.entered_enter hshared id tag
    rw [sightShared, if_neg (hs.known table id hshared hnew), ← hsight]
    exact Wrote.first hs hshared hnew (by rw [htype, htag]) hwrote

end Writes

end ObjectStream
