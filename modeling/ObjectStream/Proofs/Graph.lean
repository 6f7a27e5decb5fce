import ObjectStream.Proofs.Stream

/-!
# Graphs of shared objects

A graph of shared objects that is written to a stream comes back as a copy of
it: each object has one copy, and pointers that led to one object lead to one
copy. In between, the body of each object is on the wire where the object is
first met, and each later pointer to it is the rank of that first meeting.
-/

namespace ObjectStream

open InStream

/-- Each object of a list stands for the copy at the same place of another list. -/
def paired (ids : List Identity) (copies : List Shared) : Renaming :=
  fun id copy => (id, copy) ∈ ids.zip copies

/-- The objects of a heap with some identities, and their copies in the same order: each object has
a copy of its own, with the same types and the same body, up to the copies of what is in it. -/
structure Copies (Γ : Schema) (H : Heap) (ids : List Identity) (copies : List Shared) : Prop where
  complete : copies.length = ids.length
  sources : ids.Nodup
  distinct : (copies.map Shared.id).Nodup
  content : ∀ id copy, paired ids copies id copy →
    copy.target = (H id).pointee ∧ copy.type = (H id).type ∧
      Same Γ (paired ids copies) (.whole (H id).type) (H id).body copy.body

variable {Γ : Schema} {c : Context} {H : Heap}

theorem paired_iff {ids : List Identity} {copies : List Shared} {id : Identity} {copy : Shared} :
    paired ids copies id copy ↔ ∃ k : Nat, ids[k]? = some id ∧ copies[k]? = some copy := by
  rw [paired, List.mem_iff_getElem?]
  simp only [List.getElem?_zip_eq_some]

namespace Copies

variable {ids : List Identity} {copies : List Shared}

/-- Two copies are one if and only if the objects are. -/
theorem id_eq_iff (h : Copies Γ H ids copies) {id id' : Identity} {copy copy' : Shared}
    (hcopy : paired ids copies id copy) (hcopy' : paired ids copies id' copy') :
    copy.id = copy'.id ↔ id = id' := by
  obtain ⟨k, hid, hk⟩ := paired_iff.1 hcopy
  obtain ⟨l, hid', hl⟩ := paired_iff.1 hcopy'
  have hlength := h.complete
  have hlt := (List.getElem?_eq_some_iff.1 hk).1
  constructor
  · intro heq
    have hplace : k = l := by
      refine (List.getElem?_inj (by simpa using hlt) h.distinct).1 ?_
      rw [List.getElem?_map, List.getElem?_map, hk, hl, Option.map_some, Option.map_some, heq]
    rw [hplace, hid'] at hid
    exact (Option.some.inj hid).symm
  · intro heq
    have hplace : k = l := by
      refine (List.getElem?_inj (hlength ▸ hlt) h.sources).1 ?_
      rw [hid, hid', heq]
    rw [hplace, hl] at hk
    rw [Option.some.inj hk]

end Copies

/-- A table without open places is a list of objects. -/
theorem InStream.exists_objects {r : InStream}
    (h : ∀ k, k < r.slots.length → ∃ object, r.held? k = some object) :
    ∃ copies : List Shared, r.slots.map Slot.object = copies.map some ∧
      ∀ k, r.held? k = copies[k]? := by
  have hobjects (slot : Slot) (hslot : slot ∈ r.slots) : ∃ object, slot.object = some object := by
    obtain ⟨k, hk, rfl⟩ := List.mem_iff_getElem.1 hslot
    obtain ⟨object, hobject⟩ := h k hk
    obtain ⟨slot', hslot', hsome⟩ := held?_eq_some.1 hobject
    rw [List.getElem?_eq_getElem hk] at hslot'
    cases hslot'
    exact ⟨object, hsome⟩
  have hcopies : ∃ copies : List Shared, r.slots.map Slot.object = copies.map some := by
    revert hobjects
    induction r.slots with
    | nil => exact fun _ => ⟨[], rfl⟩
    | cons slot slots ih =>
        intro hobjects
        rw [List.forall_mem_cons] at hobjects
        obtain ⟨object, hobject⟩ := hobjects.1
        obtain ⟨copies, hcopies⟩ := ih hobjects.2
        exact ⟨object :: copies, by rw [List.map_cons, List.map_cons, hobject, hcopies]⟩
  obtain ⟨copies, hcopies⟩ := hcopies
  refine ⟨copies, hcopies, fun k => ?_⟩
  have hplace : r.slots[k]?.map Slot.object = copies[k]?.map some := by
    rw [← List.getElem?_map, hcopies, List.getElem?_map]
  rw [held?]
  revert hplace
  cases r.slots[k]? <;> cases copies[k]? <;> simp

/-- In a full table that is aligned with the writer's, the objects are copies. -/
theorem InStream.Aligned.copies {W : List Identity} {r : InStream} (h : r.Aligned Γ c H W)
    (hW : W.Nodup) {copies : List Shared} (hlength : copies.length = W.length)
    (hcopies : ∀ k, r.held? k = copies[k]?) (hbond : r.bond W = paired W copies) :
    Copies Γ H W copies where
  complete := hlength
  sources := hW
  distinct := by
    rw [List.nodup_iff_getElem?_ne_getElem?]
    intro i j hij hj heq
    rw [List.length_map] at hj
    rw [List.getElem?_map, List.getElem?_map, List.getElem?_eq_getElem hj,
      List.getElem?_eq_getElem (Nat.lt_trans hij hj), Option.map_some, Option.map_some,
      Option.some.injEq] at heq
    have hheld (k : Nat) (hk : k < copies.length) : r.held? k = some copies[k] := by
      rw [hcopies, List.getElem?_eq_getElem hk]
    exact Nat.ne_of_lt hij (h.distinct i j _ _ (hheld i (Nat.lt_trans hij hj)) (hheld j hj) heq)
  content := by
    intro id copy hpaired
    obtain ⟨k, hid, hcopy⟩ := paired_iff.1 hpaired
    rw [← hcopies] at hcopy
    obtain ⟨slot, hslot, hobject⟩ := held?_eq_some.1 hcopy
    obtain ⟨id', hid', _, htarget, htype, hsame⟩ := h.content k slot copy hslot hobject
    rw [hid] at hid'
    cases hid'
    exact ⟨htarget, htype, hbond ▸ hsame⟩

/-! ## Round trip -/

/-- A graph of up to `2 ^ 32` objects, which is how many serials there are, comes back as a copy.
All bytes are read, nothing else is in the table, and the pointers in what is read lead to copies
as the pointers in what was written led to objects. -/
theorem Recording.exists_copies (hc : c.WellFormed) (hdedup : c.dedup = true) (hΓ : Γ.WellFormed)
    (R : Recording Γ c H) (hcount : (sharedObjects R.values).length ≤ 2 ^ 32) (next : Identity)
    (journal : Journal) :
    ∃ ws r copies,
      decodeAll Γ (R.values.map Prod.fst) (.ofBytes c R.final.sink.data next journal) =
        .ok ws r ∧
      r.cursor.remaining = 0 ∧
      r.slots.map Slot.object = copies.map some ∧
      Copies Γ H (sharedObjects R.values) copies ∧
      (∀ id copy id' copy', paired (sharedObjects R.values) copies id copy →
        paired (sharedObjects R.values) copies id' copy' → (copy.id = copy'.id ↔ id = id')) ∧
      SameAll Γ (paired (sharedObjects R.values) copies) R.parts (R.values.map Prod.snd) ws ∧
      Framed c H [] (Value.sightingsIn [] (R.values.map Prod.snd))
        (unpacked R.final.sink.data) := by
  have hwrote := R.wrote hc hΓ
  have hempty : R.start.entered = [] := OutStream.entered_ofSink c R.sink R.journal
  have htracks : R.start.tracks = true := OutStream.tracks_ofSink.trans hdedup
  have hentered : R.final.entered = sharedObjects R.values := by
    rw [hwrote.entered, OutStream.enteredWith, htracks, if_pos rfl, hempty, sharedObjects]
  have hframed := hwrote.framed htracks
  rw [hempty] at hframed
  obtain ⟨ws, r, hread, hcursor, htracks', ha, hlength, hfilled, hsame⟩ :=
    R.exists_decodeAll hc hΓ (hentered ▸ hcount) .empty next journal
  rw [ByteArray.append_empty] at hread hcursor
  rw [hentered] at ha hlength hfilled hsame
  obtain ⟨copies, hcopies, hheld⟩ := InStream.exists_objects fun k hk => hfilled k (hlength ▸ hk)
  have hbond : r.bond (sharedObjects R.values) = paired (sharedObjects R.values) copies := by
    funext id copy
    simp only [bond, htracks', hdedup, paired_iff, hheld, forall_true_left]
  have hcomplete : copies.length = (sharedObjects R.values).length := by
    rw [← hlength, ← List.length_map some, ← hcopies, List.length_map]
  have hall := ha.copies (nodup_sharedObjects R.values) hcomplete hheld hbond
  refine ⟨ws, r, copies, hread, ?_, hcopies, hall, fun _ _ _ _ => hall.id_eq_iff, hbond ▸ hsame,
    hframed⟩
  rw [hcursor]
  exact Nat.sub_self _

def Ty.textPair : Ty := .tuple [.shared .string, .shared .string]

def Context.textPairs : Context :=
  { Context.standard with
    dedup := true
    registry := (Registry.empty.enter .string 1).enter .textPair 2 }

def Value.sharedText (id : Identity) (text : String) : Value :=
  .shared id .string (.scalar (.text text))

def textPairHeap : Heap
  | 0 => ⟨.string, .string, .scalar (.text "a")⟩
  | 1 => ⟨.string, .string, .scalar (.text "b")⟩
  | _ => ⟨.textPair, .textPair, .list [.sharedText 0 "a", .sharedText 1 "b"]⟩

def textPairRoots : List (Ty × Value) :=
  [(.shared .string, .sharedText 1 "b"),
    (.shared .textPair, .shared 2 .textPair (.list [.sharedText 0 "a", .sharedText 1 "b"])),
    (.shared .string, .sharedText 0 "a")]

theorem Context.wellFormed_textPairs : Context.textPairs.WellFormed where
  tags := by
    intro t tag h
    simp only [textPairs, Registry.tag?_enter] at h
    split at h
    · cases h
      decide
    · split at h
      · cases h
        decide
      · cases h
  places := by decide

theorem fits_textPairRoots :
    ∀ q ∈ textPairRoots, Fits .empty .textPairs textPairHeap false (.whole q.1) q.2 := by
  have ha : Fits .empty .textPairs textPairHeap false (.whole (.shared .string))
      (.sharedText 0 "a") := .shared rfl ⟨1, rfl, rfl⟩ (.scalar nofun rfl)
  have hb : Fits .empty .textPairs textPairHeap false (.whole (.shared .string))
      (.sharedText 1 "b") := .shared rfl ⟨1, rfl, rfl⟩ (.scalar nofun rfl)
  have hpair : Fits .empty .textPairs textPairHeap false (.whole .textPair)
      (.list [.sharedText 0 "a", .sharedText 1 "b"]) := by
    refine .list rfl fun q hq => ?_
    simp only [List.map_cons, List.map_nil, List.zip_cons_cons, List.zip_nil_right, List.mem_cons,
      List.not_mem_nil, or_false] at hq
    rcases hq with rfl | rfl
    · exact ha
    · exact hb
  simp only [textPairRoots, List.forall_mem_cons, List.not_mem_nil, false_implies, implies_true,
    and_true]
  exact ⟨hb, .shared rfl ⟨2, rfl, rfl⟩ hpair, ha⟩

/-- There are three objects behind the pointers, and three are read. -/
theorem exists_copies_textPairs :
    ∃ s, encodeAll .empty textPairRoots (OutStream.ofSink .textPairs .growable none) = .ok () s ∧
      ∃ ws r copies,
        decodeAll .empty (textPairRoots.map Prod.fst)
          (.ofBytes .textPairs s.sink.data 0 none) = .ok ws r ∧
        r.cursor.remaining = 0 ∧
        r.slots.map Slot.object = copies.map some ∧
        Copies .empty textPairHeap [1, 2, 0] copies := by
  obtain ⟨⟨⟩, hs⟩ := ok_of_succeeds (x := encodeAll .empty textPairRoots)
    (s := OutStream.ofSink .textPairs .growable none) (by decide +kernel)
  generalize stateAfter _ _ = s at hs
  have hcount : (sharedObjects textPairRoots).length ≤ 2 ^ 32 := by decide
  obtain ⟨ws, r, copies, hread, hend, hslots, hcopies, _⟩ :=
    Recording.exists_copies Context.wellFormed_textPairs rfl Schema.wellFormed_empty
      ⟨textPairRoots, .growable, none, _, fits_textPairRoots, rfl, hs⟩ hcount 0 none
  exact ⟨_, hs, ws, r, copies, hread, hend, hslots, hcopies⟩

end ObjectStream
