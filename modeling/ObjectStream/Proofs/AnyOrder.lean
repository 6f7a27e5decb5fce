import Mathlib.Data.List.Perm.Subperm
import ObjectStream.Proofs.Halting
import ObjectStream.Proofs.Shortest
import ObjectStream.Proofs.Standing

/-!
# Entries in any order

A struct that is framed as a map takes its entries in any order. The loop over the
entries never looks at how the slots were filled, only at what the last entry of each
name was, so the slots are a function of the entries read so far (`slotsOf`). Where
as many entries were read as there are fields, all slots are filled if and only if
the entries are the fields with their values in some order: there is no room for a
name that comes twice.
-/

namespace ObjectStream

/-! ## Looking up names -/

section Lookup

variable {α : Type} {keys : List String} {entries : List (String × α)} {key : String} {a : α}

theorem mem_of_lookup (h : entries.lookup key = some a) : (key, a) ∈ entries := by
  obtain ⟨before, after, rfl, -⟩ := List.lookup_eq_some_iff.1 h
  exact List.mem_append_right _ List.mem_cons_self

theorem lookup_of_mem (hnodup : (entries.map Prod.fst).Nodup) (h : (key, a) ∈ entries) :
    entries.lookup key = some a := by
  obtain ⟨before, after, rfl⟩ := List.append_of_mem h
  rw [List.lookup_eq_some_iff]
  refine ⟨before, after, rfl, fun p hp => bne_iff_ne.2 fun hsame => ?_⟩
  rw [List.map_append, List.map_cons, List.nodup_append] at hnodup
  exact hnodup.2.2 p.1 (List.mem_map_of_mem hp) key List.mem_cons_self hsame.symm

/-- With as many entries as names, each name has an entry if and only if the entries are those of
the names in some order. -/
theorem lookup_eq_iff_perm {as : List α} (hnodup : keys.Nodup)
    (hentries : entries.length = keys.length) (has : as.length = keys.length) :
    keys.map (fun key => entries.lookup key) = as.map some ↔ entries.Perm (keys.zip as) := by
  have hzip : (keys.zip as).map Prod.fst = keys := List.map_fst_zip (Nat.le_of_eq has.symm)
  constructor
  · intro h
    have hsub : keys.zip as ⊆ entries := by
      rintro ⟨key, a⟩ hmem
      obtain ⟨i, hi⟩ := List.mem_iff_getElem?.1 hmem
      obtain ⟨hkey, ha⟩ := List.getElem?_zip_eq_some.1 hi
      have hlookup := congrArg (·[i]?) h
      simp only [List.getElem?_map, hkey, ha, Option.map_some, Option.some.injEq] at hlookup
      exact mem_of_lookup hlookup
    have hdistinct : (keys.zip as).Nodup := .of_map Prod.fst (hzip.symm ▸ hnodup)
    refine ((List.subperm_of_subset hdistinct hsub).perm_of_length_le ?_).symm
    exact Nat.le_of_eq (by rw [List.length_zip, has, Nat.min_self, hentries])
  · intro h
    have hdistinct : (entries.map Prod.fst).Nodup :=
      (h.map Prod.fst).nodup_iff.2 (hzip.symm ▸ hnodup)
    refine List.ext_getElem (by rw [List.length_map, List.length_map, has]) fun i hi hi' => ?_
    rw [List.length_map] at hi hi'
    rw [List.getElem_map, List.getElem_map]
    refine lookup_of_mem hdistinct (h.mem_iff.2 (List.mem_iff_getElem?.2 ⟨i, ?_⟩))
    exact List.getElem?_zip_eq_some.2 ⟨List.getElem?_eq_getElem hi, List.getElem?_eq_getElem hi'⟩

end Lookup

namespace Schema

/-! ## The slots -/

section Slots

variable {fields : List (MarkedField Ty)} {f : MarkedField Ty} {struct key : String}
  {r r' : InStream} {bytes : List UInt8} {done : List (String × Value)}

/-- What the slots hold when some entries have been read, the last one in front. -/
def slotsOf (fields : List (MarkedField Ty)) (done : List (String × Value)) :
    List (Option Value) :=
  fields.map fun f => done.lookup f.key

theorem slotsOf_nil : slotsOf fields [] = List.replicate fields.length none :=
  List.map_const' ..

/-- The slot of a field is found by its key, and gets the value of an entry. -/
theorem exists_slot (hkeys : (fields.map MarkedField.key).Nodup) (hf : f ∈ fields) :
    ∃ i, (fields.map MarkedField.holder).findIdx? (·.key == f.key) = some i ∧
      (fields.map MarkedField.holder).find? (·.key == f.key) = some f.holder ∧
      ∀ done v, (slotsOf fields done).set i (some v) = slotsOf fields ((f.key, v) :: done) := by
  obtain ⟨before, after, rfl⟩ := List.append_of_mem hf
  obtain ⟨hindex, hfound⟩ := find_holder hkeys
  refine ⟨before.length, hindex, hfound, fun done v => ?_⟩
  rw [List.map_append, List.map_cons, List.nodup_append, List.nodup_cons] at hkeys
  obtain ⟨-, ⟨hafter, -⟩, hbefore⟩ := hkeys
  have hother {g : MarkedField Ty} (hne : g.key ≠ f.key) :
      ((f.key, v) :: done).lookup g.key = done.lookup g.key := by
    rw [List.lookup_cons, beq_eq_false_iff_ne.2 hne]
  have hfront : slotsOf before ((f.key, v) :: done) = slotsOf before done :=
    List.map_congr_left fun g hg =>
      hother (hbefore g.key (List.mem_map_of_mem hg) f.key List.mem_cons_self)
  have hback : slotsOf after ((f.key, v) :: done) = slotsOf after done :=
    List.map_congr_left fun g hg => hother fun hsame => hafter (hsame ▸ List.mem_map_of_mem hg)
  have hself : ((f.key, v) :: done).lookup f.key = some v := by
    rw [List.lookup_cons, beq_self_eq_true]
  have hlen : (slotsOf before done).length = before.length := List.length_map ..
  have hsplit (done : List (String × Value)) : slotsOf (before ++ f :: after) done =
      slotsOf before done ++ done.lookup f.key :: slotsOf after done := by
    rw [slotsOf, List.map_append, List.map_cons]
    rfl
  rw [hsplit, hsplit, hfront, hback, hself, ← hlen, List.set_append_right _ _ (Nat.le_refl _),
    Nat.sub_self, List.set_cons_zero]

/-- A key that no field has is in no slot. -/
theorem no_slot (hkey : key ∉ fields.map MarkedField.key) :
    (fields.map MarkedField.holder).findIdx? (·.key == key) = none := by
  rw [List.findIdx?_eq_none_iff]
  rintro holder hholder
  obtain ⟨f, hf, rfl⟩ := List.mem_map.1 hholder
  exact beq_eq_false_iff_ne.2 fun hsame => hkey (hsame ▸ List.mem_map_of_mem hf)

theorem takeSlots_empty (held : Held) (helds : List Held) (slots : List (Option Value)) :
    takeSlots struct (held :: helds) (none :: slots) =
      throw (.structDecode (.missingField held.key struct)) := rfl

theorem takeSlots_filled (held : Held) (helds : List Held) (v : Value)
    (slots : List (Option Value)) :
    takeSlots struct (held :: helds) (some v :: slots) = (do
      let vs ← takeSlots struct helds slots
      pure (v :: vs)) := rfl

theorem takeSlots_ok_iff (slot : MarkedField Ty → Option Value) {ws : List Value} :
    takeSlots struct (fields.map MarkedField.held) (fields.map slot) r = .ok ws r' ↔
      fields.map slot = ws.map some ∧ r' = r := by
  induction fields generalizing ws r' with
  | nil =>
      have hnone : takeSlots struct [] [] = pure [] := rfl
      rw [List.map_nil, List.map_nil, hnone]
      constructor
      · intro h
        cases h
        exact ⟨rfl, rfl⟩
      · rintro ⟨hnil, rfl⟩
        rw [List.map_eq_nil_iff.1 hnil.symm]
        rfl
  | cons f fields ih =>
      rw [List.map_cons, List.map_cons]
      cases hslot : slot f with
      | none =>
          rw [takeSlots_empty]
          constructor
          · intro h
            cases h
          · rintro ⟨h, -⟩
            cases ws <;> cases h
      | some v =>
          rw [takeSlots_filled]
          constructor
          · intro h
            obtain ⟨vs, t, hvs, hpure⟩ := bind_ok h
            cases hpure
            obtain ⟨hrest, rfl⟩ := ih.1 hvs
            exact ⟨by rw [hrest, List.map_cons], rfl⟩
          · rintro ⟨h, rfl⟩
            cases ws with
            | nil => cases h
            | cons w ws =>
                rw [List.map_cons, List.cons.injEq] at h
                obtain ⟨hw, hrest⟩ := h
                cases hw
                exact bind_of_ok (ih.2 ⟨hrest, rfl⟩)

/-- The first field whose slot is empty is missing. -/
theorem takeSlots_missing (slot : MarkedField Ty → Option Value)
    (h : fields.find? (fun f => (slot f).isNone) = some f) :
    takeSlots struct (fields.map MarkedField.held) (fields.map slot) r =
      .error (.structDecode (.missingField f.key struct)) r := by
  induction fields with
  | nil => cases h
  | cons g fields ih =>
      rw [List.map_cons, List.map_cons]
      cases hslot : slot g with
      | none =>
          rw [takeSlots_empty]
          rw [List.find?_cons_of_pos (by rw [hslot]; rfl)] at h
          cases h
          rfl
      | some v =>
          rw [takeSlots_filled]
          rw [List.find?_cons_of_neg (by rw [hslot]; exact Bool.false_ne_true)] at h
          exact bind_failed (ih h)

end Slots

/-! ## The entries -/

/-- Entries with keys of fields stand one behind the other, each with a value that the reader of
its field returns. -/
inductive Entries (read : MarkedField Ty → Reader Value) (fields : List (MarkedField Ty)) :
    InStream → List (String × Value) → InStream → Prop
  | nil (r : InStream) : Entries read fields r [] r
  | cons {f : MarkedField Ty} {r s r' : InStream} {bytes : List UInt8} {v : Value}
      {entries : List (String × Value)} : f ∈ fields → r.Holds (.str f.key.toUTF8) bytes →
      read f (r.skip bytes.length) = .ok v s → Entries read fields s entries r' →
      Entries read fields r ((f.key, v) :: entries) r'

section Loop

variable {fields : List (MarkedField Ty)} {f : MarkedField Ty} {struct key : String}
  {code : FieldReader Ty → Reader Value} {read : MarkedField Ty → Reader Value}
  {r r' : InStream} {bytes : List UInt8} {done entries : List (String × Value)} {n : Nat}

/-- The entry of a field fills its slot. -/
theorem decodeEntries_known (hkeys : (fields.map MarkedField.key).Nodup) (hf : f ∈ fields)
    (hkey : r.Holds (.str f.key.toUTF8) bytes) :
    decodeEntries struct (fields.map MarkedField.holder) code (n + 1) (slotsOf fields done) r =
      (do
        let v ← code f.reader
        decodeEntries struct (fields.map MarkedField.holder) code n
          (slotsOf fields ((f.key, v) :: done))) (r.skip bytes.length) := by
  obtain ⟨i, hindex, hfound, hset⟩ := exists_slot hkeys hf
  rw [decodeEntries, bind_of_ok (Reader.str_ok_iff.2 ⟨bytes, hkey, rfl⟩)]
  simp only [hindex, hfound, hset]
  rfl

theorem decodeEntries_unknown (hunknown : key ∉ fields.map MarkedField.key)
    (hkey : r.Holds (.str key.toUTF8) bytes) (slots : List (Option Value)) :
    decodeEntries struct (fields.map MarkedField.holder) code (n + 1) slots r =
      .error (.structDecode (.unknownField key struct)) (r.skip bytes.length) := by
  rw [decodeEntries, bind_of_ok (Reader.str_ok_iff.2 ⟨bytes, hkey, rfl⟩)]
  simp only [no_slot hunknown]
  rfl

/-- The loop goes over entries of fields and has their values in the slots. -/
theorem Entries.decodeEntries_eq (hkeys : (fields.map MarkedField.key).Nodup)
    (hcode : ∀ f, code f.reader = read f) (h : Entries read fields r entries r') :
    decodeEntries struct (fields.map MarkedField.holder) code (entries.length + n)
        (slotsOf fields done) r =
      decodeEntries struct (fields.map MarkedField.holder) code n
        (slotsOf fields (entries.reverse ++ done)) r' := by
  induction h generalizing done with
  | nil r => rw [List.length_nil, Nat.zero_add, List.reverse_nil, List.nil_append]
  | @cons f r s r' bytes v entries hf hkey hread _ ih =>
      rw [List.length_cons, Nat.add_right_comm, decodeEntries_known hkeys hf hkey, hcode,
        bind_of_ok hread, ih, List.reverse_cons, List.append_assoc, List.singleton_append]

/-- Behind as many entries as there are fields the slots are emptied. -/
theorem Entries.slots_eq (hkeys : (fields.map MarkedField.key).Nodup)
    (hcode : ∀ f, code f.reader = read f) (h : Entries read fields r entries r')
    (hlen : entries.length = fields.length) :
    decodeEntries struct (fields.map MarkedField.holder) code fields.length (slotsOf fields []) r =
      .ok (slotsOf fields entries.reverse) r' := by
  have hloop : decodeEntries struct _ code (entries.length + 0) (slotsOf fields []) r = _ :=
    h.decodeEntries_eq hkeys hcode
  rw [Nat.add_zero, List.append_nil, hlen] at hloop
  exact hloop

/-- Where the loop ends well, it has gone over as many entries as it was told. -/
theorem exists_entries (hkeys : (fields.map MarkedField.key).Nodup)
    (hcode : ∀ f, code f.reader = read f) {slots : List (Option Value)}
    (h : decodeEntries struct (fields.map MarkedField.holder) code n (slotsOf fields done) r =
      .ok slots r') :
    ∃ entries, Entries read fields r entries r' ∧ entries.length = n := by
  induction n generalizing done r with
  | zero =>
      cases h
      exact ⟨[], .nil _, rfl⟩
  | succ n ih =>
      obtain ⟨key, t, hstr, -⟩ := bind_ok h
      obtain ⟨bytes, hkey, -⟩ := Reader.str_ok_iff.1 hstr
      by_cases hknown : key ∈ fields.map MarkedField.key
      · obtain ⟨f, hf, rfl⟩ := List.mem_map.1 hknown
        rw [decodeEntries_known hkeys hf hkey, hcode] at h
        obtain ⟨v, s, hread, hrest⟩ := bind_ok h
        obtain ⟨entries, hentries, rfl⟩ := ih hrest
        exact ⟨(f.key, v) :: entries, .cons hf hkey hread hentries, rfl⟩
      · rw [decodeEntries_unknown hknown hkey] at h
        cases h

/-- As many entries as there are fields fill all slots if and only if they are those of the fields
in some order. -/
theorem slotsOf_eq_iff_perm (hkeys : (fields.map MarkedField.key).Nodup) {ws : List Value}
    (hentries : entries.length = fields.length) (hws : ws.length = fields.length) :
    slotsOf fields entries.reverse = ws.map some ↔
      entries.Perm ((fields.map MarkedField.key).zip ws) := by
  have hslots : slotsOf fields entries.reverse =
      (fields.map MarkedField.key).map fun key => entries.reverse.lookup key := by
    rw [List.map_map]
    rfl
  rw [hslots, lookup_eq_iff_perm hkeys (by simpa using hentries) (by simpa using hws)]
  exact (List.reverse_perm entries).congr_left _

/-- If a name comes twice, another one does not come at all. -/
theorem exists_missing (hkeys : (fields.map MarkedField.key).Nodup)
    (hentries : entries.length = fields.length) (hrepeated : ¬ (entries.map Prod.fst).Nodup) :
    ∃ f, fields.find? (fun f => f.key ∉ entries.map Prod.fst) = some f := by
  cases hfound : fields.find? (fun f => f.key ∉ entries.map Prod.fst) with
  | some f => exact ⟨f, rfl⟩
  | none =>
      have hsub : fields.map MarkedField.key ⊆ entries.map Prod.fst := by
        intro key hkey
        obtain ⟨f, hf, rfl⟩ := List.mem_map.1 hkey
        simpa using List.find?_eq_none.1 hfound f hf
      have hperm := (List.subperm_of_subset hkeys hsub).perm_of_length_le
        (Nat.le_of_eq (by rw [List.length_map, List.length_map, hentries]))
      exact absurd (hperm.nodup_iff.1 hkeys) hrepeated

/-- The slot of a field is empty if its name did not come. -/
theorem isNone_lookup (entries : List (String × Value)) (key : String) :
    (entries.reverse.lookup key).isNone = decide (key ∉ entries.map Prod.fst) := by
  rw [Bool.eq_iff_iff, Option.isNone_iff_eq_none, List.lookup_eq_none_iff, decide_eq_true_iff]
  constructor
  · intro h hmem
    obtain ⟨p, hp, rfl⟩ := List.mem_map.1 hmem
    exact bne_iff_ne.1 (h p (List.mem_reverse.2 hp)) rfl
  · intro h p hp
    exact bne_iff_ne.2 fun hsame => h (hsame ▸ List.mem_map_of_mem (List.mem_reverse.1 hp))

/-- What is read behind a header with the right count: the loop over the entries, and then what
the slots hold. -/
def readEntries (struct : String) (fields : List (MarkedField Ty))
    (code : FieldReader Ty → Reader Value) : Reader Value := do
  let slots ← decodeEntries struct (fields.map MarkedField.holder) code fields.length
    (slotsOf fields [])
  Value.list <$> takeSlots struct (fields.map MarkedField.held) slots

/-- The entries of the fields in some order are accepted, and nothing else. -/
theorem readEntries_ok_iff (hkeys : (fields.map MarkedField.key).Nodup)
    (hcode : ∀ f, code f.reader = read f) {w : Value} :
    readEntries struct fields code r = .ok w r' ↔ ∃ entries ws, Entries read fields r entries r' ∧
      ws.length = fields.length ∧ entries.Perm ((fields.map MarkedField.key).zip ws) ∧
      w = .list ws := by
  rw [readEntries]
  constructor
  · intro h
    obtain ⟨slots, s, hloop, htake⟩ := bind_ok h
    obtain ⟨entries, hentries, hlen⟩ := exists_entries hkeys hcode hloop
    rw [hentries.slots_eq hkeys hcode hlen] at hloop
    cases hloop
    rw [map_eq_pure_bind] at htake
    obtain ⟨ws, u, hws, hpure⟩ := bind_ok htake
    cases hpure
    obtain ⟨hslots, rfl⟩ := (takeSlots_ok_iff _).1 hws
    have hlength : ws.length = fields.length := by
      simpa using (congrArg List.length hslots).symm
    exact ⟨entries, ws, hentries, hlength, (slotsOf_eq_iff_perm hkeys hlen hlength).1 hslots, rfl⟩
  · rintro ⟨entries, ws, hentries, hlength, hperm, rfl⟩
    have hlen : entries.length = fields.length := by
      rw [hperm.length_eq, List.length_zip, List.length_map, hlength, Nat.min_self]
    have hslots := (slotsOf_eq_iff_perm hkeys hlen hlength).2 hperm
    rw [bind_of_ok (hentries.slots_eq hkeys hcode hlen), map_eq_pure_bind]
    exact bind_of_ok ((takeSlots_ok_iff _).2 ⟨hslots, rfl⟩)

/-- Behind fewer entries than there are fields a name that no field has is refused. -/
theorem readEntries_unknown (hkeys : (fields.map MarkedField.key).Nodup)
    (hcode : ∀ f, code f.reader = read f) (h : Entries read fields r entries r')
    (hlen : entries.length < fields.length) (hunknown : key ∉ fields.map MarkedField.key)
    (hkey : r'.Holds (.str key.toUTF8) bytes) :
    readEntries struct fields code r =
      .error (.structDecode (.unknownField key struct)) (r'.skip bytes.length) := by
  obtain ⟨n, hn⟩ : ∃ n, fields.length = entries.length + (n + 1) :=
    ⟨fields.length - entries.length - 1, by omega⟩
  refine bind_failed ?_
  rw [hn, h.decodeEntries_eq hkeys hcode]
  exact decodeEntries_unknown hunknown hkey _

/-- Behind as many entries as there are fields the first field without an entry is missed. -/
theorem readEntries_missing (hkeys : (fields.map MarkedField.key).Nodup)
    (hcode : ∀ f, code f.reader = read f) (h : Entries read fields r entries r')
    (hlen : entries.length = fields.length)
    (hmissing : fields.find? (fun f => f.key ∉ entries.map Prod.fst) = some f) :
    readEntries struct fields code r =
      .error (.structDecode (.missingField f.key struct)) r' := by
  rw [readEntries, bind_of_ok (h.slots_eq hkeys hcode hlen), map_eq_pure_bind]
  refine bind_failed (takeSlots_missing _ ?_)
  simpa only [isNone_lookup] using hmissing

end Loop

/-! ## Structs framed as maps -/

/-- Entries are read in any order: what a reader accepts at a place of a stream, and how it refuses
what comes close, given how the value of a field is read. -/
structure ReadsInAnyOrder (struct : String) (fields : List (MarkedField Ty))
    (read : MarkedField Ty → Reader Value) (x : Reader Value) (r : InStream) : Prop where
  /-- The entries are those of the fields in some order, and each field gets the value under its
  name. -/
  accepts : ∀ w r', x r = .ok w r' ↔ ∃ header entries ws,
    r.Holds (.map fields.length) header ∧
      Entries read fields (r.skip header.length) entries r' ∧
      ws.length = fields.length ∧ entries.Perm ((fields.map MarkedField.key).zip ws) ∧
      w = .list ws
  /-- Another count is refused in front of the entries. -/
  miscounted : ∀ m header, r.Holds (.map m) header → m ≠ fields.length →
    x r = .error (.structDecode (.fieldCount struct fields.length m)) (r.skip header.length)
  /-- A name that no field has is refused where it first comes. -/
  unknown : ∀ header entries s key bytes, r.Holds (.map fields.length) header →
    Entries read fields (r.skip header.length) entries s → entries.length < fields.length →
    key ∉ fields.map MarkedField.key → s.Holds (.str key.toUTF8) bytes →
      x r = .error (.structDecode (.unknownField key struct)) (s.skip bytes.length)
  /-- If a name comes again, the first field without an entry is missed behind all of them. -/
  repeated : ∀ header entries r', r.Holds (.map fields.length) header →
    Entries read fields (r.skip header.length) entries r' → entries.length = fields.length →
    ¬ (entries.map Prod.fst).Nodup →
      ∃ f, fields.find? (fun f => f.key ∉ entries.map Prod.fst) = some f ∧
        x r = .error (.structDecode (.missingField f.key struct)) r'

/-- Only what the reader does at the place matters. -/
theorem ReadsInAnyOrder.congr {struct : String} {fields : List (MarkedField Ty)}
    {read : MarkedField Ty → Reader Value} {x y : Reader Value} {r : InStream}
    (h : ReadsInAnyOrder struct fields read x r) (hsame : x r = y r) :
    ReadsInAnyOrder struct fields read y r := by
  constructor
  all_goals rw [← hsame]
  · exact h.accepts
  · exact h.miscounted
  · exact h.unknown
  · exact h.repeated

section Struct

variable {Γ : Schema} {name : String} {args : List Ty} {item : Item Ty}
  {fields : List (MarkedField Ty)}

/-- Behind a header with the right count stand the entries. -/
theorem decodeStep_entries (value : Ty → Reader Value)
    (hplan : Γ.plan? name = some (item, .struct true fields)) {r : InStream} {header : List UInt8}
    (h : r.Holds (.map fields.length) header) :
    decodeStep Γ value (.named name args) r =
      readEntries item.name.name fields
        (decodeField Γ value (decodeFieldList Γ value baseDepth) (arguments item args))
        (r.skip header.length) := by
  rw [decodeStep_struct value hplan, if_pos rfl, ← slotsOf_nil,
    bind_of_ok (Reader.mapHeader_ok_iff.2 ⟨header, h, rfl⟩), if_pos rfl]
  rfl

theorem decodeStep_miscounted (value : Ty → Reader Value)
    (hplan : Γ.plan? name = some (item, .struct true fields)) {r : InStream} {header : List UInt8}
    {m : Nat} (h : r.Holds (.map m) header) (hm : m ≠ fields.length) :
    decodeStep Γ value (.named name args) r =
      .error (.structDecode (.fieldCount item.name.name fields.length m))
        (r.skip header.length) := by
  rw [decodeStep_struct value hplan, if_pos rfl,
    bind_of_ok (Reader.mapHeader_ok_iff.2 ⟨header, h, rfl⟩), if_neg hm]
  rfl

/-- What is accepted has a header with the right count. -/
theorem exists_header {value : Ty → Reader Value}
    (hplan : Γ.plan? name = some (item, .struct true fields)) {r r' : InStream} {w : Value}
    (h : decodeStep Γ value (.named name args) r = .ok w r') :
    ∃ header, r.Holds (.map fields.length) header := by
  have hstep := h
  rw [decodeStep_struct value hplan, if_pos rfl] at hstep
  obtain ⟨m, t, hmap, -⟩ := bind_ok hstep
  obtain ⟨header, hheader, -⟩ := Reader.mapHeader_ok_iff.1 hmap
  by_cases hm : m = fields.length
  · exact ⟨header, hm ▸ hheader⟩
  · rw [decodeStep_miscounted value hplan hheader hm] at h
    cases h

theorem readsInAnyOrder_decodeStep (value : Ty → Reader Value)
    (hplan : Γ.plan? name = some (item, .struct true fields))
    (hkeys : (fields.map MarkedField.key).Nodup) (r : InStream) :
    ReadsInAnyOrder item.name.name fields
      (fun f => Γ.readPart value baseDepth (f.part (arguments item args)))
      (decodeStep Γ value (.named name args)) r := by
  have hcode (f : MarkedField Ty) := decodeField_eq Γ value baseDepth (arguments item args) f
  constructor
  case accepts =>
    intro w r'
    constructor
    · intro h
      obtain ⟨header, hheader⟩ := exists_header hplan h
      rw [decodeStep_entries value hplan hheader, readEntries_ok_iff hkeys hcode] at h
      obtain ⟨entries, ws, haccepted⟩ := h
      exact ⟨header, entries, ws, hheader, haccepted⟩
    · rintro ⟨header, entries, ws, hheader, haccepted⟩
      rw [decodeStep_entries value hplan hheader, readEntries_ok_iff hkeys hcode]
      exact ⟨entries, ws, haccepted⟩
  case miscounted => exact fun m header => decodeStep_miscounted value hplan
  case unknown =>
    intro header entries s key bytes hheader hentries hlen hunknown hkey
    rw [decodeStep_entries value hplan hheader]
    exact readEntries_unknown hkeys hcode hentries hlen hunknown hkey
  case repeated =>
    intro header entries r' hheader hentries hlen hrepeated
    obtain ⟨f, hf⟩ := exists_missing hkeys hlen hrepeated
    refine ⟨f, hf, ?_⟩
    rw [decodeStep_entries value hplan hheader]
    exact readEntries_missing hkeys hcode hentries hlen hf

/-- A struct that is framed as a map is read from its entries in any order. -/
theorem decode_readsInAnyOrder (hplan : Γ.plan? name = some (item, .struct true fields))
    (hkeys : (fields.map MarkedField.key).Nodup) (r : InStream) :
    ReadsInAnyOrder item.name.name fields
      (fun f => Γ.readPart (decodeWithin Γ (2 * r.cursor.remaining + 1)) baseDepth
        (f.part (arguments item args)))
      (decode Γ (.named name args)) r ∧
    (Γ.Paced r.context (.whole (.named name args)) → r.cursor.pos ≤ r.cursor.size →
      ReadsInAnyOrder item.name.name fields
        (fun f => Γ.readPart (decode Γ) baseDepth (f.part (arguments item args)))
        (decode Γ (.named name args)) r) := by
  refine ⟨(readsInAnyOrder_decodeStep _ hplan hkeys r).congr rfl, fun hpaced hpos => ?_⟩
  have hsame : decode Γ (.named name args) r = decodeStep Γ (decode Γ) (.named name args) r :=
    decode_unfolds hpaced rfl hpos
  exact (readsInAnyOrder_decodeStep (decode Γ) hplan hkeys r).congr hsame.symm

end Struct

end Schema

namespace Sample

theorem paced_readings (c : Context) (p : Part) : readings.Paced c p := by
  refine Schema.Paced.of_all (fun p codec hcodec => ?_) p
  have hderived : ∀ q ∈ readings.types, ∃ item, q.2 = .derived item := by
    intro q hq
    simp only [readings, List.mem_cons, List.not_mem_nil, or_false] at hq
    rcases hq with rfl | rfl <;> exact ⟨_, rfl⟩
  obtain rfl := Schema.eq_of_partCodec? hderived rfl hcodec
  exact paced_blob c

end Sample

/-- A reading whose unit comes in front of its marks, with wide headers, is read as any other. -/
theorem readsInAnyOrder_reading : ∃ item fields,
    Sample.readings.plan? (Sample.home ++ "::Reading") = some (item, .struct true fields) ∧
    (fields.map MarkedField.key).Nodup ∧
    Sample.readings.Paced .standard (.whole Sample.reading) ∧
    Sample.readingStream.cursor.pos ≤ Sample.readingStream.cursor.size ∧
    Schema.ReadsInAnyOrder "Reading" fields
      (fun f => Sample.readings.readPart (decode Sample.readings) Schema.baseDepth (f.part []))
      (decode Sample.readings Sample.reading) Sample.readingStream ∧
    ∃ v r', decode Sample.readings Sample.reading Sample.readingStream = .ok v r' := by
  obtain ⟨item, fields, hplan, hkeys, hname, hparams⟩ : ∃ item fields,
      Sample.readings.plan? (Sample.home ++ "::Reading") = some (item, .struct true fields) ∧
        fields.map MarkedField.key = ["marks", "unit", "raw"] ∧ item.name.name = "Reading" ∧
        Schema.arguments item [] = [] := ⟨_, _, rfl, rfl, rfl, rfl⟩
  have hnodup : (fields.map MarkedField.key).Nodup := hkeys ▸ by decide
  have hpaced := Sample.paced_readings .standard (.whole Sample.reading)
  have hreads : Schema.ReadsInAnyOrder item.name.name fields
      (fun f => Sample.readings.readPart (decode Sample.readings) Schema.baseDepth
        (f.part (Schema.arguments item [])))
      (decode Sample.readings Sample.reading) Sample.readingStream :=
    (Schema.decode_readsInAnyOrder hplan hnodup Sample.readingStream).2 hpaced (Nat.zero_le _)
  rw [hname, hparams] at hreads
  obtain ⟨v, hv⟩ := ok_of_succeeds (x := decode Sample.readings Sample.reading)
    (s := Sample.readingStream) (by decide +kernel)
  exact ⟨item, fields, hplan, hnodup, hpaced, Nat.zero_le _, hreads, v, _, hv⟩

end ObjectStream
