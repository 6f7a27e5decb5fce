import ObjectStream.Proofs.Mirror

/-!
# Places of the reader's table

The reader opens a place for an object before it reads the object, and fills the
place when the object is complete. The table stays aligned in both steps, and
what was held before is held after.
-/

namespace ObjectStream

open InStream

variable {Γ : Schema} {c : Context} {H : Heap}

namespace InStream

def noted (r : InStream) (event : Event) : InStream :=
  { r with journal := r.journal.note event }

def opened (r : InStream) (tag : TypeTag) : InStream :=
  { r with shared := r.shared.map fun table => table.push ⟨tag, none⟩ }

def filled (r : InStream) (tag : TypeTag) (serial : Nat) (target type : Ty) (body : Value) :
    InStream :=
  { r with
    shared := r.shared.map fun table =>
      table.setIfInBounds serial ⟨tag, some ⟨r.nextObject, target, type, body⟩⟩
    nextObject := r.nextObject + 1
    journal := r.journal.note (.decodedObject tag serial) }

def put (r : InStream) (tag : TypeTag) (serial : Nat) (object : Shared) : InStream :=
  { r with
    shared := r.shared.map fun table => table.setIfInBounds serial ⟨tag, some object⟩ }

theorem slots_put (r : InStream) (tag : TypeTag) (serial : Nat) (object : Shared) :
    (r.put tag serial object).slots = r.slots.set serial ⟨tag, some object⟩ := by
  unfold put slots
  cases r.shared with
  | none => rfl
  | some table => simp

theorem slots_opened {r : InStream} (h : r.tracks = true) (tag : TypeTag) :
    (r.opened tag).slots = r.slots ++ [⟨tag, none⟩] := by
  unfold tracks at h
  unfold opened slots
  cases hshared : r.shared with
  | none => simp [hshared] at h
  | some table => simp

theorem slots_filled (r : InStream) (tag : TypeTag) (serial : Nat) (target type : Ty)
    (body : Value) :
    (r.filled tag serial target type body).slots =
      r.slots.set serial ⟨tag, some ⟨r.nextObject, target, type, body⟩⟩ :=
  slots_put { r with nextObject := r.nextObject + 1 } tag serial _

theorem slots_of_not_tracks {r : InStream} (h : r.tracks = false) : r.slots = [] := by
  unfold tracks at h
  unfold slots
  cases hshared : r.shared with
  | none => rfl
  | some table => simp [hshared] at h

theorem tracks_opened (r : InStream) (tag : TypeTag) : (r.opened tag).tracks = r.tracks := by
  simp [opened, tracks]

theorem tracks_filled (r : InStream) (tag : TypeTag) (serial : Nat) (target type : Ty)
    (body : Value) : (r.filled tag serial target type body).tracks = r.tracks := by
  simp [filled, tracks]

theorem held?_eq_some {r : InStream} {k : Nat} {object : Shared} :
    r.held? k = some object ↔ ∃ slot, r.slots[k]? = some slot ∧ slot.object = some object :=
  Option.bind_eq_some_iff

/-- An open place holds nothing. -/
theorem held?_opened (r : InStream) (tag : TypeTag) (k : Nat) :
    (r.opened tag).held? k = r.held? k := by
  cases htracks : r.tracks with
  | false =>
      obtain ⟨context, cursor, shared, nextObject, journal⟩ := r
      cases shared with
      | none => rfl
      | some table => cases htracks
  | true =>
      rw [held?, held?, slots_opened htracks]
      by_cases hk : k < r.slots.length
      · rw [List.getElem?_append_left hk]
      · have hle : r.slots.length ≤ k := Nat.le_of_not_lt hk
        rw [List.getElem?_append_right hle, List.getElem?_eq_none hle]
        cases hsub : k - r.slots.length with
        | zero => rfl
        | succ n => rfl

/-- What else was held is held as well when a place is filled that was empty. -/
theorem held?_filled {r : InStream} {tag : TypeTag} {serial : Nat}
    (hempty : r.slots[serial]? = some ⟨tag, none⟩) (target type : Ty) (body : Value) (k : Nat) :
    (r.filled tag serial target type body).held? k =
      if k = serial then some ⟨r.nextObject, target, type, body⟩ else r.held? k := by
  have hlt := (List.getElem?_eq_some_iff.1 hempty).1
  rw [held?, slots_filled]
  by_cases hk : k = serial
  · subst hk
    rw [if_pos rfl, List.getElem?_set_self hlt]
    rfl
  · rw [if_neg hk, List.getElem?_set_ne (Ne.symm hk)]
    rfl

theorem held?_filled_of_some {r : InStream} {tag : TypeTag} {serial : Nat}
    (hempty : r.slots[serial]? = some ⟨tag, none⟩) (target type : Ty) (body : Value) {k : Nat}
    {object : Shared} (hk : r.held? k = some object) :
    (r.filled tag serial target type body).held? k = some object := by
  rw [held?_filled hempty, if_neg, hk]
  rintro rfl
  obtain ⟨slot, hslot, hobject⟩ := held?_eq_some.1 hk
  rw [hempty] at hslot
  cases hslot
  cases hobject

theorem bond_filled {W : List Identity} {r : InStream} {tag : TypeTag} {serial : Nat}
    (hempty : r.slots[serial]? = some ⟨tag, none⟩) (target type : Ty) (body : Value)
    {id : Identity} {object : Shared} (h : r.bond W id object) :
    (r.filled tag serial target type body).bond W id object :=
  bond_mono (tracks_filled r tag serial target type body)
    (fun _ _ => held?_filled_of_some hempty target type body) h

/-! ## Places that stay -/

/-- The second of two states tracks objects if the first does, and has no fewer places. -/
def Grows (r r' : InStream) : Prop := r'.tracks = r.tracks ∧ r.slots.length ≤ r'.slots.length

namespace Grows

theorem refl (r : InStream) : r.Grows r := ⟨rfl, Nat.le_refl _⟩

theorem trans {r₀ r r' : InStream} (h : r₀.Grows r) (h' : r.Grows r') : r₀.Grows r' :=
  ⟨h'.1.trans h.1, Nat.le_trans h.2 h'.2⟩

theorem opened (r : InStream) (tag : TypeTag) : r.Grows (r.opened tag) := by
  refine ⟨tracks_opened r tag, ?_⟩
  cases htracks : r.tracks with
  | true =>
      rw [slots_opened htracks, List.length_append]
      exact Nat.le_add_right _ _
  | false =>
      rw [slots_of_not_tracks htracks]
      exact Nat.zero_le _

theorem put (r : InStream) (tag : TypeTag) (serial : Nat) (object : Shared) :
    r.Grows (r.put tag serial object) := by
  refine ⟨?_, ?_⟩
  · rw [tracks, tracks, InStream.put, Option.isSome_map]
  · exact Nat.le_of_eq (by rw [slots_put, List.length_set])

end Grows

namespace Moved

variable {r r' : InStream} {tags : List TypeTag}

theorem of_noted {event : Event} (h : Moved (r.noted event) r' tags) : Moved r r' tags :=
  ⟨h.context, h.data, h.tracks, h.slots, h.tags, h.next⟩

theorem opened (htracks : r.tracks = true) (tag : TypeTag) : Moved r (r.opened tag) [tag] where
  context := rfl
  data := rfl
  tracks := tracks_opened r tag
  slots := by
    rw [slots_opened htracks]
    exact List.prefix_append _ _
  tags := by
    rw [slots_opened htracks, List.map_append, List.map_singleton]
  next := Nat.le_refl _

/-- A place that was opened stays as it is. -/
theorem place (htracks : r.tracks = true) {tag : TypeTag} (h : Moved (r.opened tag) r' tags) :
    r'.slots[r.slots.length]? = some ⟨tag, none⟩ := by
  refine getElem?_of_isPrefix h.slots ?_
  rw [slots_opened htracks]
  exact List.getElem?_concat_length

/-- A place is opened, and filled some time later. -/
theorem filled (htracks : r.tracks = true) {tag : TypeTag}
    (h : Moved (r.opened tag) r' tags) (target type : Ty) (body : Value) :
    Moved r (r'.filled tag r.slots.length target type body) (tag :: tags) where
  context := h.context
  data := h.data
  tracks := (tracks_filled r' tag _ target type body).trans
    (h.tracks.trans (tracks_opened r tag))
  slots := by
    obtain ⟨tail, htail⟩ := (opened htracks tag).slots.trans h.slots
    rw [slots_filled, ← htail, List.set_append_right _ _ (Nat.le_refl _)]
    exact List.prefix_append _ _
  tags := by
    obtain ⟨tail, htail⟩ := h.slots
    have htags := h.tags
    rw [← htail, slots_opened htracks] at htags
    rw [slots_filled, ← htail, slots_opened htracks, List.append_assoc,
      List.set_append_right _ _ (Nat.le_refl _)]
    simpa using htags
  next := Nat.le_succ_of_le h.next

end Moved

/-- The new place is not aligned with anything yet. -/
theorem Aligned.opened {W : List Identity} {r : InStream} (h : r.Aligned Γ c H W)
    (htracks : r.tracks = true) (tag : TypeTag) : (r.opened tag).Aligned Γ c H W := by
  have hheld := held?_opened r tag
  constructor
  · intro k slot object hk hobject
    rw [slots_opened htracks] at hk
    by_cases hlt : k < r.slots.length
    · rw [List.getElem?_append_left hlt] at hk
      obtain ⟨id, hid, htag, htarget, htype, hsame⟩ := h.content k slot object hk hobject
      refine ⟨id, hid, htag, htarget, htype, hsame.mono fun _ _ hbond => ?_⟩
      exact bond_mono (tracks_opened r tag) (fun l a hl => by rw [hheld, hl]) hbond
    · rw [List.getElem?_append_right (by omega)] at hk
      have hslot := List.mem_of_getElem? hk
      rw [List.mem_singleton] at hslot
      rw [hslot] at hobject
      cases hobject
  · intro k object hk
    rw [hheld] at hk
    exact h.fresh k object hk
  · intro k l a b hk hl
    rw [hheld] at hk hl
    exact h.distinct k l a b hk hl

/-- A place that was open is filled with an object read from the one with its serial. -/
theorem Aligned.filled {W : List Identity} {r : InStream} (h : r.Aligned Γ c H W) {tag : TypeTag}
    {serial : Nat} {id : Identity} {pointee type : Ty} {v w : Value}
    (hheap : H id = ⟨pointee, type, v⟩) (hid : W[serial]? = some id)
    (htag : c.registry.tag? type = some tag)
    (hempty : r.slots[serial]? = some ⟨tag, none⟩)
    (hsame : Same Γ (r.bond W) (.whole type) v w) :
    (r.filled tag serial pointee type w).Aligned Γ c H W := by
  have hheld := held?_filled hempty pointee type w
  constructor
  · intro k slot object hk hobject
    rw [slots_filled] at hk
    by_cases hserial : k = serial
    · subst hserial
      rw [List.getElem?_set_self (List.getElem?_eq_some_iff.1 hempty).1] at hk
      cases hk
      cases hobject
      refine ⟨id, hid, ?_, ?_, ?_, ?_⟩
      · rw [hheap, htag]
      · rw [hheap]
      · rw [hheap]
      · rw [hheap]
        exact hsame.mono fun _ _ => bond_filled hempty pointee type w
    · rw [List.getElem?_set_ne (Ne.symm hserial)] at hk
      obtain ⟨id', hid', htag', htarget, htype, hsame'⟩ := h.content k slot object hk hobject
      exact ⟨id', hid', htag', htarget, htype,
        hsame'.mono fun _ _ => bond_filled hempty pointee type w⟩
  · intro k object hk
    rw [hheld] at hk
    split at hk
    · cases hk
      exact Nat.lt_succ_self _
    · exact Nat.lt_succ_of_lt (h.fresh k object hk)
  · intro k l a b hk hl hab
    rw [hheld] at hk hl
    split at hk <;> split at hl
    · next hk' hl' => rw [hk', hl']
    · cases hk
      exact absurd hab.symm (Nat.ne_of_lt (h.fresh l b hl))
    · cases hl
      exact absurd hab (Nat.ne_of_lt (h.fresh k a hk))
    · exact h.distinct k l a b hk hl hab

theorem Aligned.noted {W : List Identity} {r : InStream} (h : r.Aligned Γ c H W) (event : Event) :
    (r.noted event).Aligned Γ c H W :=
  h.of_slots rfl rfl (Nat.le_refl _)

end InStream

end ObjectStream
