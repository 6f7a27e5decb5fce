import ObjectStream.Proofs.Sighting

/-!
# Writers and readers side by side

A reader mirrors a writer if, put in front of what the writer has written, it
goes over exactly these bytes and opens one place in its table for each object
that the writer has entered in its own. What it returns is right when the
reader's table is aligned with the writer's: what stands at a place was read
from the object with that serial. A table that is not aligned does not make the
reader lose its way in the bytes, but may give it other objects or none.

The final table of the writer is a parameter, so that reading may go on after
and in front of what is looked at.
-/

namespace ObjectStream

namespace OutStream

def tracks (s : OutStream) : Bool := s.shared.isSome

def entered (s : OutStream) : List Identity :=
  match s.shared with
  | some table => table.written.toList.map WrittenObject.id
  | none => []

/-- The shared objects of the stream after more sightings. -/
def enteredWith (s : OutStream) (ids : List Identity) : List Identity :=
  if s.tracks then enterAll s.entered ids else []

/-- The tags of the objects that were entered between two states of a stream. -/
def newTags (s : OutStream) (c : Context) (H : Heap) (s' : OutStream) : List TypeTag :=
  (s'.entered.drop s.entered.length).map fun id => (c.registry.tag? (H id).type).getD nullTag

theorem newTags_self (c : Context) (H : Heap) {s s' : OutStream} (h : s'.entered = s.entered) :
    s.newTags c H s' = [] := by
  simp [newTags, h]

theorem length_newTags (c : Context) (H : Heap) (s s' : OutStream) :
    (s.newTags c H s').length = s'.entered.length - s.entered.length := by
  simp [newTags]

theorem newTags_trans (c : Context) (H : Heap) {s t u : OutStream} (h : s.entered <+: t.entered)
    (h' : t.entered <+: u.entered) :
    s.newTags c H u = s.newTags c H t ++ t.newTags c H u := by
  obtain ⟨a, ha⟩ := h
  obtain ⟨b, hb⟩ := h'
  simp [newTags, ← hb, ← ha]

/-- The two halves of the stream's table agree with each other and with the heap. -/
structure Coherent (s : OutStream) (c : Context) (H : Heap) : Prop where
  context : s.context = c
  nodup : s.entered.Nodup
  found : ∀ table id tag serial, s.shared = some table → table.find? id = some (tag, serial) →
    ∃ k, s.entered[k]? = some id ∧ serial = k % 2 ^ 32 ∧ c.registry.tag? (H id).type = some tag
  known : ∀ table id, s.shared = some table → table.find? id = none → id ∉ s.entered

theorem entered_of_not_tracks {s : OutStream} (h : s.tracks = false) : s.entered = [] := by
  unfold tracks at h
  unfold entered
  cases hshared : s.shared with
  | none => rfl
  | some table => simp [hshared] at h

theorem prefix_enteredWith (s : OutStream) (ids : List Identity) :
    s.entered <+: s.enteredWith ids := by
  unfold enteredWith
  split
  · exact prefix_enterAll s.entered ids
  · next h =>
      have hempty := entered_of_not_tracks (by simpa using h)
      exact hempty ▸ List.prefix_rfl

end OutStream

/-- The bytes frame each pointer to a shared object, given the objects seen before: an object is
its tag and its body where it is sighted first, and its tag and its serial from then on. -/
inductive Framed (c : Context) (H : Heap) : List Identity → List Identity → List UInt8 → Prop
  | plain (seen : List Identity) (bytes : List UInt8) : Framed c H seen [] bytes
  | append {seen ids ids' a b} : Framed c H seen ids a → Framed c H (enterAll seen ids) ids' b →
      Framed c H seen (ids ++ ids') (a ++ b)
  | object {seen id tag ids body} : id ∉ seen → c.registry.tag? (H id).type = some tag →
      Framed c H (seen ++ [id]) ids body →
      Framed c H seen (id :: ids) (Form.pointer tag c.byteOrder ++ body)
  | reference {seen : List Identity} {id tag} {rank : Nat} : seen[rank]? = some id →
      c.registry.tag? (H id).type = some tag →
      Framed c H seen [id] (Form.reference tag (rank % 2 ^ 32) c.byteOrder)

/-- A writer has written some bytes and sighted some objects. -/
structure Wrote (c : Context) (H : Heap) (ids : List Identity) (bytes : List UInt8)
    (s s' : OutStream) : Prop where
  sink : s'.sink = s.sink.append (packed bytes)
  coherent : s'.Coherent c H
  tracks : s'.tracks = s.tracks
  entered : s'.entered = s.enteredWith ids
  framed : s.tracks = true → Framed c H s.entered ids bytes

namespace InStream

def tracks (r : InStream) : Bool := r.shared.isSome

def slots (r : InStream) : List Slot :=
  match r.shared with
  | some table => table.toList
  | none => []

def held? (r : InStream) (serial : Nat) : Option Shared := r.slots[serial]?.bind Slot.object

/-- The objects of the writer's table and those read from them. A stream that does not track
objects relates everything. -/
def bond (W : List Identity) (r : InStream) : Renaming := fun id object =>
  r.tracks = true → ∃ k, W[k]? = some id ∧ r.held? k = some object

/-- What stands at a place of the table was read from the object with that serial. -/
structure Aligned (Γ : Schema) (c : Context) (H : Heap) (W : List Identity) (r : InStream) :
    Prop where
  content : ∀ (k : Nat) (slot : Slot) (object : Shared), r.slots[k]? = some slot →
    slot.object = some object →
    ∃ id, W[k]? = some id ∧ c.registry.tag? (H id).type = some slot.tag ∧
      object.target = (H id).pointee ∧ object.type = (H id).type ∧
      Same Γ (r.bond W) (.whole (H id).type) (H id).body object.body
  fresh : ∀ k object, r.held? k = some object → object.id < r.nextObject
  distinct : ∀ k l a b, r.held? k = some a → r.held? l = some b → a.id = b.id → k = l

/-- The stream has opened places with some tags, and kept the places it had. -/
structure Moved (r r' : InStream) (tags : List TypeTag) : Prop where
  context : r'.context = r.context
  data : r'.cursor.data = r.cursor.data
  tracks : r'.tracks = r.tracks
  slots : r.slots <+: r'.slots
  tags : r'.slots.map Slot.tag = r.slots.map Slot.tag ++ tags
  next : r.nextObject ≤ r'.nextObject

theorem held?_of_grows {r r' : InStream} (h : r.slots <+: r'.slots) {k : Nat} {object : Shared}
    (hk : r.held? k = some object) : r'.held? k = some object := by
  unfold held? at hk ⊢
  obtain ⟨slot, hslot, hobject⟩ := Option.bind_eq_some_iff.1 hk
  rw [getElem?_of_isPrefix h hslot]
  exact hobject

theorem bond_mono {W : List Identity} {r r' : InStream} (htracks : r'.tracks = r.tracks)
    (hheld : ∀ k object, r.held? k = some object → r'.held? k = some object)
    {id : Identity} {object : Shared} (h : r.bond W id object) : r'.bond W id object := by
  intro htrue
  obtain ⟨k, hk, hobject⟩ := h (by rw [← htracks, htrue])
  exact ⟨k, hk, hheld k object hobject⟩

namespace Moved

theorem refl (r : InStream) : Moved r r [] :=
  ⟨rfl, rfl, rfl, List.prefix_rfl, (List.append_nil _).symm, Nat.le_refl _⟩

theorem skip (r : InStream) (n : Nat) : Moved r (r.skip n) [] :=
  ⟨rfl, rfl, rfl, List.prefix_rfl, (List.append_nil _).symm, Nat.le_refl _⟩

/-- Moving the cursor first makes no difference. -/
theorem of_skip {r r' : InStream} {n : Nat} {tags : List TypeTag} (h : Moved (r.skip n) r' tags) :
    Moved r r' tags :=
  ⟨h.context, h.data, h.tracks, h.slots, h.tags, h.next⟩

theorem count {r r' : InStream} {tags : List TypeTag} (h : Moved r r' tags) :
    r'.slots.length = r.slots.length + tags.length := by
  have := congrArg List.length h.tags
  simpa using this

theorem trans {r₁ r₂ r₃ : InStream} {tags tags' : List TypeTag} (h : Moved r₁ r₂ tags)
    (h' : Moved r₂ r₃ tags') : Moved r₁ r₃ (tags ++ tags') where
  context := h'.context.trans h.context
  data := h'.data.trans h.data
  tracks := h'.tracks.trans h.tracks
  slots := h.slots.trans h'.slots
  tags := by
    rw [h'.tags, h.tags, List.append_assoc]
  next := Nat.le_trans h.next h'.next

theorem bond {r r' : InStream} {tags : List TypeTag} (h : Moved r r' tags) {W : List Identity}
    {id : Identity} {object : Shared} (hbond : r.bond W id object) : r'.bond W id object :=
  bond_mono h.tracks (fun _ _ hk => held?_of_grows h.slots hk) hbond

end Moved

/-- A stream with the same table is aligned as well. -/
theorem Aligned.of_slots {Γ : Schema} {c : Context} {H : Heap} {W : List Identity}
    {r r' : InStream} (h : r.Aligned Γ c H W) (htracks : r'.tracks = r.tracks)
    (hslots : r'.slots = r.slots) (hnext : r.nextObject ≤ r'.nextObject) :
    r'.Aligned Γ c H W := by
  have hheld : r'.held? = r.held? := by
    funext k
    rw [held?, held?, hslots]
  constructor
  · intro k slot object hk hobject
    rw [hslots] at hk
    obtain ⟨id, hid, htag, htarget, htype, hsame⟩ := h.content k slot object hk hobject
    refine ⟨id, hid, htag, htarget, htype, hsame.mono fun _ _ hbond => ?_⟩
    exact bond_mono htracks (fun k object hk => by rw [hheld, hk]) hbond
  · intro k object hk
    rw [hheld] at hk
    exact Nat.lt_of_lt_of_le (h.fresh k object hk) hnext
  · intro k l a b hk hl
    rw [hheld] at hk hl
    exact h.distinct k l a b hk hl

/-- A stream that has opened no place is aligned as well. -/
theorem Aligned.of_moved {Γ : Schema} {c : Context} {H : Heap} {W : List Identity}
    {r r' : InStream} (h : r.Aligned Γ c H W) (hmoved : Moved r r' []) : r'.Aligned Γ c H W := by
  have hlength := hmoved.count
  exact h.of_slots hmoved.tracks (hmoved.slots.eq_of_length hlength.symm).symm hmoved.next

/-- The next object read gets the serial of the next object written, or none is read. -/
def InStep (s s' : OutStream) (r : InStream) : Prop :=
  r.slots.length = s.entered.length ∨ s'.entered.length = s.entered.length

/-- The objects among those sighted that were written before have been read before. -/
def Resolves (s : OutStream) (ids : List Identity) (r : InStream) : Prop :=
  ∀ id ∈ ids, ∀ k, s.entered[k]? = some id → ∃ object, r.held? k = some object

end InStream

open InStream

section Judgements

variable (Γ : Schema) (c : Context) (H : Heap)

/-- What a writer writes when it succeeds: it sights the objects that `sight` says, given the
objects seen before, and its bytes meet a condition. -/
def Writes (sight : List Identity → List Identity) (lead : List UInt8 → Prop)
    (x : Writer Unit) : Prop :=
  ∀ s s', s.Coherent c H → x s = .ok () s' →
    ∃ bytes, lead bytes ∧ Wrote c H (sight s.entered) bytes s s'

/-- How the reading of what was written between two states of a writer comes out. -/
def Outcome {α : Type} (W : List Identity) (s s' : OutStream) (ids : List Identity)
    (bytes : List UInt8) (Q : Renaming → α → Prop) (r : InStream) :
    EStateM.Result StreamError InStream α → Prop
  | .ok a r' =>
      r'.cursor = r.cursor.skip bytes.length ∧
      Moved r r' (s.newTags c H s') ∧
      (r.Aligned Γ c H W → InStep s s' r → r'.Aligned Γ c H W ∧
        (∀ k, s.entered.length ≤ k → k < s'.entered.length → ∃ object, r'.held? k = some object) ∧
        Q (r'.bond W) a)
  | .error _ r' =>
      (∃ tags, tags <+: s.newTags c H s' ∧ Moved r r' tags) ∧
      (r.Aligned Γ c H W → InStep s s' r → r'.Aligned Γ c H W ∧ ¬ Resolves s ids r)

/-- The reader mirrors the writer on up to `size` bytes. -/
def Mirrors {α : Type} (size : Nat) (sight : List Identity → List Identity) (x : Writer Unit)
    (y : Reader α) (Q : Renaming → α → Prop) : Prop :=
  ∀ s s' bytes, s.Coherent c H → x s = .ok () s' → Wrote c H (sight s.entered) bytes s s' →
    bytes.length ≤ size → ∀ W, s'.entered <+: W → W.length ≤ 2 ^ 32 →
    ∀ r tail, r.context = c → r.tracks = s.tracks → r.rest = bytes ++ tail →
    Outcome Γ c H W s s' (sight s.entered) bytes Q r (y r)

end Judgements

end ObjectStream
