import ObjectStream.Proofs.Gathering
import ObjectStream.Proofs.Registering
import ObjectStream.Proofs.Rollback

/-!
# What the table of shared objects holds

The table of an output stream says the same thing twice, by serial and by
identity, and says it of objects that are kept alive as long as they are in it. It
changes when an object is entered, which is before the first byte of its framing,
and when a stream goes back or starts afresh, and between any two changes a write
may fail. `Represents` is what holds all the same: the two halves list the same
objects, none of them twice, in the order of their starts, which are not behind
the end of the stream.

A program is what may be done with a stream between its creation and its end: it
is put together from the operations of the stream, with writers of bodies that do
again what they like. `Visits` are the states that a run of a program passes
through, those inside of bodies among them.
-/

namespace ObjectStream

/-! ## Tables -/

namespace WrittenTable

/-- The table is about objects that it holds, of some concrete types: each place of a serial has an
object of its own, whose identity is saved with the serial and the tag of the object's type, and
nothing else is saved. Serials are numbers of 32 bits. The starts of the objects do not decrease,
and none is behind an offset. -/
structure Represents (table : WrittenTable) (registry : Registry) (types : Identity → Ty)
    (offset : Nat) : Prop where
  saved : ∀ (i : Nat) o, table.written[i]? = some o → ∃ tag, registry.tag? (types o.id) = some tag ∧
    tag ≠ nullTag ∧ table.find? o.id = some (tag, i % 2 ^ 32)
  held : ∀ id found, table.find? id = some found →
    ∃ (i : Nat) (o : WrittenObject), table.written[i]? = some o ∧ o.id = id
  nodup : (table.written.toList.map WrittenObject.id).Nodup
  sorted : table.written.toList.Pairwise fun a b => a.start ≤ b.start
  below : ∀ o ∈ table.written, o.start ≤ offset

variable {table : WrittenTable} {registry : Registry} {types types' : Identity → Ty}
  {offset : Nat} {id other : Identity} {tag : TypeTag}

theorem find?_enter (table : WrittenTable) (id other : Identity) (tag : TypeTag) (start : Nat) :
    (table.enter id tag start).find? other =
      if id = other then some (tag, table.nextSerial) else table.find? other := by
  simp only [find?, enter, Std.ExtTreeMap.getElem?_insert, Std.LawfulEqOrd.compare_eq_iff_eq]

theorem getElem?_enter (table : WrittenTable) (id : Identity) (tag : TypeTag) (start i : Nat) :
    (table.enter id tag start).written[i]? =
      if i = table.written.size then some ⟨id, start⟩ else table.written[i]? := by
  rw [enter, Array.getElem?_push]

namespace Represents

theorem empty : WrittenTable.empty.Represents registry types offset where
  saved := by simp [WrittenTable.empty]
  held := by simp [WrittenTable.empty, find?]
  nodup := List.nodup_nil
  sorted := List.Pairwise.nil
  below := by simp [WrittenTable.empty]

theorem mono (h : table.Represents registry types offset) {offset' : Nat}
    (hle : offset ≤ offset') : table.Represents registry types offset' :=
  { h with below := fun o ho => Nat.le_trans (h.below o ho) hle }

/-- What an identity stands for may change if the table does not hold it. -/
theorem congr (h : table.Represents registry types offset)
    (htypes : ∀ o ∈ table.written, types' o.id = types o.id) :
    table.Represents registry types' offset where
  saved i o ho := by
    rw [htypes o (Array.mem_of_getElem? ho)]
    exact h.saved i o ho
  held := h.held
  nodup := h.nodup
  sorted := h.sorted
  below := h.below

theorem not_mem_of_find? (h : table.Represents registry types offset)
    (hnew : table.find? id = none) {o : WrittenObject} (ho : o ∈ table.written) : o.id ≠ id := by
  rintro rfl
  obtain ⟨i, hi⟩ := Array.mem_iff_getElem?.1 ho
  obtain ⟨tag, -, -, hfind⟩ := h.saved i o hi
  rw [hnew] at hfind
  cases hfind

/-- An object is entered that the table does not hold. -/
theorem enter (h : table.Represents registry types offset) (hnew : table.find? id = none)
    (htag : registry.tag? (types id) = some tag) (hne : tag ≠ nullTag) :
    (table.enter id tag offset).Represents registry types offset where
  saved i o ho := by
    rw [getElem?_enter] at ho
    split at ho
    · next hi =>
        cases ho
        exact ⟨tag, htag, hne, by rw [find?_enter, if_pos rfl, hi, nextSerial]⟩
    · obtain ⟨tag', htag', hne', hfind⟩ := h.saved i o ho
      have hother := h.not_mem_of_find? hnew (Array.mem_of_getElem? ho)
      exact ⟨tag', htag', hne', by rw [find?_enter, if_neg hother.symm, hfind]⟩
  held other found hfind := by
    rw [find?_enter] at hfind
    split at hfind
    · next heq => exact ⟨_, ⟨id, offset⟩, by rw [getElem?_enter, if_pos rfl], heq⟩
    · obtain ⟨i, o, ho, hid⟩ := h.held other found hfind
      have hlt := (Array.getElem?_eq_some_iff.1 ho).1
      exact ⟨i, o, by rw [getElem?_enter, if_neg (Nat.ne_of_lt hlt), ho], hid⟩
  nodup := by
    rw [WrittenTable.enter, Array.toList_push, List.map_append]
    refine h.nodup.append (List.nodup_singleton id) (List.disjoint_singleton.2 fun hmem => ?_)
    obtain ⟨o, ho, hid⟩ := List.mem_map.1 hmem
    exact h.not_mem_of_find? hnew (Array.mem_toList_iff.1 ho) hid
  sorted := by
    rw [WrittenTable.enter, Array.toList_push, List.pairwise_append]
    refine ⟨h.sorted, List.pairwise_singleton _ _, fun a ha b hb => ?_⟩
    rw [List.mem_singleton.1 hb]
    exact h.below a (Array.mem_toList_iff.1 ha)
  below o ho := by
    rw [WrittenTable.enter, Array.mem_push] at ho
    rcases ho with ho | rfl
    · exact h.below o ho
    · exact Nat.le_refl _

/-- The last object is dropped from both halves. -/
theorem pop {init : Array WrittenObject} {last : WrittenObject}
    (h : table.Represents registry types offset) (hlast : table.written = init.push last) :
    Represents ⟨init, table.saved.erase last.id⟩ registry types offset := by
  have hnodup := h.nodup
  have hsorted := h.sorted
  rw [hlast, Array.toList_push] at hnodup hsorted
  rw [List.map_append, List.nodup_append] at hnodup
  have hne : ∀ o ∈ init, o.id ≠ last.id := fun o ho =>
    hnodup.2.2 o.id (List.mem_map_of_mem (Array.mem_toList_iff.2 ho)) last.id
      (List.mem_singleton.2 rfl)
  have hfind (other : Identity) : find? ⟨init, table.saved.erase last.id⟩ other =
      if last.id = other then none else table.find? other := by
    simp only [find?, Std.ExtTreeMap.getElem?_erase, Std.LawfulEqOrd.compare_eq_iff_eq]
  constructor
  · intro i o ho
    have hold : table.written[i]? = some o := by
      have hlt := (Array.getElem?_eq_some_iff.1 ho).1
      rw [hlast, Array.getElem?_push, if_neg (Nat.ne_of_lt hlt), ho]
    obtain ⟨tag, htag, hnull, hsaved⟩ := h.saved i o hold
    exact ⟨tag, htag, hnull, by
      rw [hfind, if_neg (hne o (Array.mem_of_getElem? ho)).symm, hsaved]⟩
  · intro other found hother
    rw [hfind] at hother
    split at hother
    · cases hother
    · next hdifferent =>
        obtain ⟨i, o, ho, hid⟩ := h.held other found hother
        rw [hlast, Array.getElem?_push] at ho
        split at ho
        · cases ho
          exact absurd hid hdifferent
        · exact ⟨i, o, ho, hid⟩
  · exact hnodup.1
  · exact (List.pairwise_append.1 hsorted).1
  · intro o ho
    exact h.below o (by rw [hlast, Array.mem_push]; exact .inl ho)

theorem dropFrom (h : table.Represents registry types offset) (pos n : Nat) :
    (table.dropFrom pos n).Represents registry types offset := by
  induction n generalizing table with
  | zero => exact h
  | succ n ih =>
      rw [WrittenTable.dropFrom]
      split
      · next last hback =>
          split
          · exact h
          · obtain ⟨init, hlast⟩ := Array.back?_eq_some_iff.1 hback
            rw [hlast, Array.pop_push]
            exact ih (h.pop hlast)
      · exact h

/-- Going back leaves the objects that start in front of a position. -/
theorem truncate (h : table.Represents registry types offset) (pos : Nat) :
    (table.truncate pos).Represents registry types pos :=
  { h.dropFrom pos table.written.size with
    below := fun o ho => Nat.le_of_lt ((within_dropFrom pos rfl h.sorted).below o ho) }

/-- What is saved of an object is the serial of a place that the object has. -/
theorem serial_lt (h : table.Represents registry types offset) {serial : Nat}
    (hfind : table.find? id = some (tag, serial)) :
    serial < table.written.size ∧ registry.tag? (types id) = some tag ∧
      ∃ o ∈ table.written, o.id = id := by
  obtain ⟨i, o, ho, rfl⟩ := h.held id _ hfind
  obtain ⟨tag', htag, -, hsaved⟩ := h.saved i o ho
  rw [hfind] at hsaved
  cases hsaved
  have hlt := (Array.getElem?_eq_some_iff.1 ho).1
  exact ⟨Nat.lt_of_le_of_lt (Nat.mod_le _ _) hlt, htag, o, Array.mem_of_getElem? ho, rfl⟩

end Represents

end WrittenTable

/-! ## Streams -/

namespace OutStream

/-- The table of the stream, if there is one, is about objects that it holds and that start in what
is written. No type has the tag of the null pointer. -/
structure Holds (types : Identity → Ty) (s : OutStream) : Prop where
  tags : ∀ t tag, s.context.registry.tag? t = some tag → tag ≠ nullTag
  table : ∀ table, s.shared = some table → table.Represents s.context.registry types s.size

namespace Holds

variable {types types' : Identity → Ty} {s : OutStream}

/-- A new stream holds nothing. -/
theorem ofSink {c : Context} (htags : ∀ t tag, c.registry.tag? t = some tag → tag ≠ nullTag)
    (sink : ByteSink) (journal : Journal) : (OutStream.ofSink c sink journal).Holds types where
  tags := htags
  table table htable := by
    cases hdedup : c.dedup <;> simp only [OutStream.ofSink, hdedup] at htable
    · cases htable
    · cases htable
      exact .empty

theorem congr (h : s.Holds types)
    (htypes : ∀ table, s.shared = some table → ∀ o ∈ table.written, types' o.id = types o.id) :
    s.Holds types' :=
  ⟨h.tags, fun table htable => (h.table table htable).congr (htypes table htable)⟩

theorem append (h : s.Holds types) (bytes : List UInt8) : (s.append bytes).Holds types :=
  ⟨h.tags, fun table htable =>
    (h.table table htable).mono (Appended.append s bytes).size_le⟩

theorem noted (h : s.Holds types) (event : Event) : (s.noted event).Holds types :=
  ⟨h.tags, h.table⟩

theorem enter (h : s.Holds types) {table : WrittenTable} (htable : s.shared = some table)
    {id : Identity} {tag : TypeTag} (hnew : table.find? id = none)
    (htag : s.context.registry.tag? (types id) = some tag) :
    (s.enter table id tag).Holds types where
  tags := h.tags
  table table' htable' := by
    cases htable'
    exact (h.table table htable).enter hnew htag (h.tags _ tag htag)

theorem backTo (h : s.Holds types) {pos : Nat} (hle : pos ≤ s.size) :
    Holds types { s with
      sink := s.sink.truncate pos
      shared := s.shared.map (·.truncate pos) } where
  tags := h.tags
  table table htable := by
    obtain ⟨before, hbefore, rfl⟩ := Option.map_eq_some_iff.1 htable
    have hsize : (s.sink.truncate pos).size = pos := by
      simp [ByteSink.truncate, ByteSink.size, show pos ≤ s.sink.data.size from hle]
    rw [OutStream.size, hsize]
    exact (h.table before hbefore).truncate pos

theorem cleared (h : s.Holds types) :
    Holds types { s with sink := s.sink.clear, shared := s.shared.map fun _ => .empty } where
  tags := h.tags
  table table htable := by
    obtain ⟨-, -, rfl⟩ := Option.map_eq_some_iff.1 htable
    exact .empty

end Holds

end OutStream

/-! ## Programs -/

namespace Writer

variable {α β : Type}

/-- What may be done with a stream, the shared objects being of some concrete types. -/
inductive Program (types : Identity → Ty) : {α : Type} → Writer α → Prop
  /-- The stream is looked at, or the program fails. -/
  | still {α : Type} {x : Writer α} : (∀ s, stateAfter x s = s) → Program types x
  | note (event : Event) : Program types (Writer.note event)
  | raw (bytes : ByteArray) : Program types (Writer.raw bytes)
  | bind {α β : Type} {x : Writer α} {f : α → Writer β} :
      Program types x → (∀ a, Program types (f a)) → Program types (x >>= f)
  /-- A failure is caught, and the program goes on. -/
  | recover {α : Type} {x : Writer α} {f : StreamError → Writer α} :
      Program types x → (∀ e, Program types (f e)) → Program types (tryCatch x f)
  /-- A pointer is written, with a program for the body of its object. -/
  | shared (id : Identity) {body : Writer Unit} :
      Program types body → Program types (Writer.shared id (types id) body)
  | backTo (pos : Nat) : Program types (Writer.backTo pos)
  | clear : Program types Writer.clear
  | handOver : Program types Writer.handOver

/-- The states that a run of a program passes through: where it starts and ends, and those of its
parts. The body of a shared object is run after the object is entered. -/
inductive Visits (types : Identity → Ty) :
    {α : Type} → Writer α → OutStream → OutStream → Prop
  | start {α : Type} (x : Writer α) (s : OutStream) : Visits types x s s
  | finish {α : Type} {x : Writer α} (s : OutStream) :
      Program types x → Visits types x s (stateAfter x s)
  | bindLeft {α β : Type} {x : Writer α} (f : α → Writer β) {s t : OutStream} :
      Visits types x s t → Visits types (x >>= f) s t
  | bindRight {α β : Type} {x : Writer α} {f : α → Writer β} {a : α} {s u t : OutStream} :
      Program types x → x s = .ok a u → Visits types (f a) u t → Visits types (x >>= f) s t
  | tried {α : Type} {x : Writer α} (f : StreamError → Writer α) {s t : OutStream} :
      Visits types x s t → Visits types (tryCatch x f) s t
  | recovered {α : Type} {x : Writer α} {f : StreamError → Writer α} {e : StreamError}
      {s u t : OutStream} : Program types x → x s = .error e u → Visits types (f e) u t →
      Visits types (tryCatch x f) s t
  | untracked {id : Identity} {tag : TypeTag} {body : Writer Unit} {s t : OutStream} :
      s.context.registry.tag? (types id) = some tag → s.shared = none →
      Visits types (taggedBody tag body) s t → Visits types (Writer.shared id (types id) body) s t
  | seen {id : Identity} {tag found : TypeTag} {serial : Nat} {body : Writer Unit}
      {table : WrittenTable} {s t : OutStream} :
      s.context.registry.tag? (types id) = some tag → s.shared = some table →
      table.find? id = some (found, serial) →
      Visits types (reference found serial) (s.noted (.backReference found serial)) t →
      Visits types (Writer.shared id (types id) body) s t
  | first {id : Identity} {tag : TypeTag} {body : Writer Unit} {table : WrittenTable}
      {s t : OutStream} :
      s.context.registry.tag? (types id) = some tag → s.shared = some table →
      table.find? id = none →
      Visits types (firstBody (types id) tag body) (s.enter table id tag) t →
      Visits types (Writer.shared id (types id) body) s t

/-- A property of streams that holds after the program if it holds before, whether the program
succeeds or fails. -/
def Preserves (P : OutStream → Prop) (x : Writer α) : Prop := ∀ s, P s → P (stateAfter x s)

namespace Preserves

variable {P : OutStream → Prop}

theorem still {x : Writer α} (h : ∀ s, stateAfter x s = s) : Preserves P x := by
  intro s hs
  rwa [h s]

theorem bind {x : Writer α} {f : α → Writer β} (hx : Preserves P x)
    (hf : ∀ a, Preserves P (f a)) : Preserves P (x >>= f) := by
  intro s hs
  rcases stateAfter_bind_cases x f s with hend | ⟨a, hend⟩
  · rw [hend]
    exact hx s hs
  · rw [hend]
    exact hf a _ (hx s hs)

theorem recover {x : Writer α} {f : StreamError → Writer α} (hx : Preserves P x)
    (hf : ∀ e, Preserves P (f e)) : Preserves P (tryCatch x f) := by
  intro s hs
  rcases stateAfter_tryCatch_cases x f s with hend | ⟨e, hend⟩
  · rw [hend]
    exact hx s hs
  · rw [hend]
    exact hf e _ (hx s hs)

end Preserves

section

variable {types : Identity → Ty}

theorem preserves_spell (f : Form) : Preserves (OutStream.Holds types) (Writer.spell f) := by
  intro s hs
  simp only [stateAfter, Writer.spell, Writer.raw]
  cases s.sink.refusal? (packed (f s.context.byteOrder)).size with
  | some e => exact hs
  | none => exact hs.append _

theorem stateAfter_position (s : OutStream) : stateAfter Writer.position s = s := rfl

theorem stateAfter_checkBody (type : Ty) (start : Nat) (s : OutStream) :
    stateAfter (Writer.checkBody type start) s = s := by
  rcases checkBody_cases type start s with h | ⟨e, h⟩
  · rw [stateAfter_of_ok h]
  · rw [stateAfter_of_error h]

/-- A pointer to a shared object keeps what appending, noting and entering keep, and its body. -/
theorem preserves_shared {id : Identity} {body : Writer Unit}
    (hbody : Preserves (OutStream.Holds types) body) :
    Preserves (OutStream.Holds types) (Writer.shared id (types id) body) := by
  intro s hs
  have hrun := shared_run id (types id) body s
  rw [Registry.requireTag] at hrun
  cases htag : s.context.registry.tag? (types id) with
  | none =>
      rw [htag] at hrun
      rwa [stateAfter_of_error hrun]
  | some tag =>
      simp only [htag] at hrun
      cases htable : s.shared with
      | none =>
          simp only [htable] at hrun
          rw [stateAfter, hrun, ← stateAfter, taggedBody_eq]
          exact (preserves_spell _).bind (fun _ => (preserves_spell _).bind fun _ => hbody) s hs
      | some table =>
          cases hfind : table.find? id with
          | some found =>
              simp only [htable, hfind] at hrun
              rw [stateAfter, hrun, ← stateAfter]
              exact (preserves_spell _).bind (fun _ => (preserves_spell _).bind fun _ =>
                preserves_spell _) _ (hs.noted _)
          | none =>
              simp only [htable, hfind] at hrun
              rw [stateAfter, hrun, ← stateAfter]
              refine (preserves_spell _).bind (fun _ => (preserves_spell _).bind fun _ =>
                (Preserves.still stateAfter_position).bind fun start => hbody.bind fun _ =>
                  .still (stateAfter_checkBody _ start)) _ ?_
              exact hs.enter htable hfind htag

theorem Program.preserves {x : Writer α} (hx : Program types x) :
    Preserves (OutStream.Holds types) x := by
  induction hx with
  | still h => exact .still h
  | note event => exact fun s hs => hs.noted event
  | raw bytes => exact preserves_spell (.plain (unpacked bytes))
  | bind _ _ ihx ihf => exact ihx.bind ihf
  | recover _ _ ihx ihf => exact ihx.recover ihf
  | shared id _ ih => exact preserves_shared ih
  | backTo pos =>
      intro s hs
      rw [stateAfter, Writer.backTo]
      by_cases hlt : s.size < pos
      · rwa [if_pos hlt]
      · rw [if_neg hlt]
        exact hs.backTo (Nat.le_of_not_lt hlt)
  | clear => exact fun s hs => hs.cleared
  | handOver => exact fun s hs => hs.cleared

/-- What is held at the start of a run is held all along. -/
theorem Visits.holds {x : Writer α} {s t : OutStream}
    (h : Visits types x s t) (hs : s.Holds types) : t.Holds types := by
  induction h with
  | start => exact hs
  | finish s hx => exact hx.preserves s hs
  | bindLeft _ _ ih => exact ih hs
  | bindRight hx hres _ ih => exact ih (stateAfter_of_ok hres ▸ hx.preserves _ hs)
  | tried _ _ ih => exact ih hs
  | recovered hx hres _ ih => exact ih (stateAfter_of_error hres ▸ hx.preserves _ hs)
  | untracked _ _ _ ih => exact ih hs
  | seen _ _ _ _ ih => exact ih (hs.noted _)
  | first htag htable hnew _ ih => exact ih (hs.enter htable hnew htag)

end

end Writer

/-! ## Writers of values -/

def Value.About (types : Identity → Ty) (v : Value) : Prop := ∀ n ∈ v.nodes, types n.id = n.type

namespace Writer.Program

variable {types : Identity → Ty}

theorem throw {α : Type} (e : StreamError) : Program types (MonadExcept.throw e : Writer α) :=
  .still fun _ => rfl

theorem pure {α : Type} (a : α) : Program types (Pure.pure a : Writer α) := .still fun _ => rfl

theorem ite {α : Type} {P : Prop} [Decidable P] {x y : Writer α} (hx : Program types x)
    (hy : Program types y) : Program types (if P then x else y) := by
  split
  · exact hx
  · exact hy

theorem context : Program types Writer.context := .still fun _ => rfl

theorem spell (f : Form) : Program types (Writer.spell f) :=
  context.bind (f := fun c => Writer.raw (packed (f c.byteOrder))) fun _ => .raw _

theorem atomic {x : Writer Unit} (hx : Atomic x) : Program types x := by
  cases hx with
  | spell f => exact spell f
  | throw e => exact throw e
  | oversized n e =>
      refine .bind (.still fun s => ?_) fun _ => throw e
      simp only [stateAfter, ensureRoom]
      cases s.sink.refusal? n <;> rfl

theorem errorCode (code : ErrorCode) : Program types (Writer.errorCode code) := by
  refine context.bind fun c => ?_
  split
  · exact throw _
  · exact (atomic (.arrayHeader 2)).bind fun _ => (atomic (.uint _)).bind fun _ => atomic (.int _)

theorem unique (type : Ty) {body : Writer Unit} (hbody : Program types body) :
    Program types (Writer.unique type body) := by
  refine .bind (.still fun s => ?_) fun tag =>
    (atomic (.arrayHeader 2)).bind fun _ => (atomic (.uint tag)).bind fun _ => hbody
  simp only [stateAfter, requireTag]
  cases s.context.registry.requireTag type <;> rfl

end Writer.Program

namespace Schema

variable {Γ : Schema} {types : Identity → Ty}

structure Programs (Γ : Schema) (types : Identity → Ty) : Prop where
  values : ∀ t codec, Γ.codec? t = some codec → ∀ v, v.About types →
    Writer.Program types (codec.write v)
  rules : ∀ path codec, Γ.rule? path = some codec → ∀ v, v.About types →
    Writer.Program types (codec.write v)

theorem program_writeParts {vs : List Value}
    (h : ∀ v ∈ vs, ∀ p, Writer.Program types (Γ.writePart p v)) (ps : List Part) :
    Writer.Program types (Γ.writeParts ps vs) := by
  induction vs generalizing ps with
  | nil =>
      cases ps with
      | nil => exact .pure ()
      | cons p ps => exact .throw _
  | cons v vs ih =>
      rw [List.forall_mem_cons] at h
      cases ps with
      | nil => exact .throw _
      | cons p ps => exact (h.1 p).bind fun _ => ih h.2 ps

theorem program_writeEntries {vs : List Value}
    (h : ∀ v ∈ vs, ∀ p, Writer.Program types (Γ.writePart p v)) (ps : List (String × Part)) :
    Writer.Program types (Γ.writeEntries ps vs) := by
  induction vs generalizing ps with
  | nil =>
      cases ps with
      | nil => exact .pure ()
      | cons p ps => exact .throw _
  | cons v vs ih =>
      rw [List.forall_mem_cons] at h
      cases ps with
      | nil => exact .throw _
      | cons p ps =>
          exact (Writer.Program.atomic (.str p.1)).bind fun _ => (h.1 p.2).bind fun _ => ih h.2 ps

theorem about_of_mem {vs : List Value} (h : ∀ n ∈ Value.nodesIn vs, types n.id = n.type)
    {v : Value} (hv : v ∈ vs) : v.About types := by
  intro n hn
  refine h n ?_
  rw [Value.nodesIn_eq]
  exact List.mem_flatMap.2 ⟨v, hv, hn⟩

/-- Writing a value is a program about the objects in it. -/
theorem program_writePart (hΓ : Γ.Programs types) (p : Part) (v : Value) (hv : v.About types) :
    Writer.Program types (Γ.writePart p v) := by
  have hlayout := Γ.layout p v
  generalize Γ.writePart p v = x at hlayout
  cases hlayout with
  | refused _ _ e => exact .throw e
  | codec _ hcodec =>
      cases p with
      | whole t => exact hΓ.values _ _ hcodec v hv
      | fields t => cases hcodec
      | rule path t => exact hΓ.rules path _ hcodec v hv
  | scalar d _ => exact .atomic (.scalar _ d)
  | errorCode code _ => exact .errorCode code
  | @array t n ps vs _ =>
      refine (Writer.Program.atomic (.arrayHeader n)).bind fun _ =>
        program_writeParts (fun w hw p => ?_) ps
      have hsize := List.sizeOf_lt_of_mem hw
      exact program_writePart hΓ p w (about_of_mem hv hw)
  | map vs _ _ =>
      refine (Writer.Program.atomic (.mapHeader _)).bind fun _ =>
        program_writeEntries (fun w hw p => ?_) _
      have hsize := List.sizeOf_lt_of_mem hw
      exact program_writePart hΓ p w (about_of_mem hv hw)
  | fields vs _ =>
      refine program_writeParts (fun w hw p => ?_) _
      have hsize := List.sizeOf_lt_of_mem hw
      exact program_writePart hΓ p w (about_of_mem hv hw)
  | absent _ => exact .atomic (.absent _)
  | @present t inner w _ =>
      have hw := program_writePart hΓ (.whole inner) w hv
      exact .ite ((Writer.Program.atomic (.arrayHeader 1)).bind fun _ => hw) hw
  | discriminant _ _ d _ _ => exact .atomic (.int _)
  | variant vs _ _ _ =>
      refine (Writer.Program.atomic (.arrayHeader _)).bind fun _ =>
        (Writer.Program.atomic (.uint _)).bind fun _ =>
        program_writeParts (fun w hw p => ?_) _
      have hsize := List.sizeOf_lt_of_mem hw
      exact program_writePart hΓ p w (about_of_mem hv hw)
  | @shared t pointee type id body _ _ =>
      have hbody : body.About types := fun n hn => hv n (List.mem_cons_of_mem _ hn)
      have htype : types id = type := hv ⟨id, type, body⟩ List.mem_cons_self
      rw [← htype]
      exact .shared id (program_writePart hΓ _ body hbody)
  | unique body _ _ => exact .unique _ (program_writePart hΓ _ body hv)
termination_by sizeOf v

theorem Programs.of_derived {types : List (String × Declaration)}
    {order : Ty → KeyOrder}
    (h : ∀ q ∈ types, ∃ item, q.2 = .derived item) (objects : Identity → Ty) :
    Schema.Programs ⟨types, [], order⟩ objects where
  values := by
    intro t codec hcodec
    rw [codec?_of_derived h t] at hcodec
    cases hcodec
  rules := nofun

end Schema

namespace WriteOp

def About (types : Identity → Ty) : WriteOp → Prop
  | .value _ v | .fields _ v => v.About types
  | _ => True

variable {Γ : Schema} {types : Identity → Ty}

theorem program_run (hΓ : Γ.Programs types) {op : WriteOp} (h : op.About types) :
    Writer.Program types (op.run Γ) := by
  rcases op.does Γ with ⟨hx, hrun⟩ | ⟨t, v, rfl⟩ | ⟨t, v, rfl⟩ | hback
  · rw [hrun]
    exact (Writer.Program.atomic hx).bind fun _ => .pure _
  · exact (Schema.program_writePart hΓ (.whole t) v h).bind fun _ => .pure _
  · exact (Schema.program_writePart hΓ (.fields t) v h).bind fun _ => .pure _
  · cases op with
    | backTo pos => exact (Writer.Program.backTo pos).bind fun _ => .pure _
    | clear => exact Writer.Program.clear.bind fun _ => .pure _
    | handOver => exact Writer.Program.handOver.bind fun _ => .pure _
    | _ => cases hback

end WriteOp

/-! ## Histories -/

namespace OutStream

/-- The states of a stream, those in the middle of a write included, with the types of the objects
that there are. An identity that the table does not hold may come to stand for another object, since
nothing keeps alive the one that it stood for. -/
inductive Arises : (Identity → Ty) → OutStream → Prop
  | start (types : Identity → Ty) (order : ByteOrder) (dedup : Bool) (steps : List Registry.Step)
      (categories : CategoryIndex) (sink : ByteSink) (journal : Journal) :
      Arises types (.ofSink ⟨order, dedup, .afterAll .empty steps, categories⟩ sink journal)
  | pass {types : Identity → Ty} {α : Type} {x : Writer α} {s t : OutStream} :
      Arises types s → Writer.Visits types x s t → Arises types t
  | reuse {types types' : Identity → Ty} {s : OutStream} : Arises types s →
      (∀ table, s.shared = some table → ∀ o ∈ table.written, types' o.id = types o.id) →
      Arises types' s

namespace Arises

variable {types : Identity → Ty} {s : OutStream}

theorem holds (h : Arises types s) : s.Holds types := by
  induction h with
  | start types order dedup steps categories sink journal =>
      exact .ofSink (Registry.Logs.empty.afterAll steps).reflects.ne_nullTag sink journal
  | pass _ hvisits ih => exact hvisits.holds ih
  | reuse _ htypes ih => exact ih.congr htypes

/-- In every state of a stream the two halves of the table are about the same objects, all of them
held, with serials by place and the tags of their types, and in the order of their starts. So what
is written for an object that the table knows is a serial in use and the tag of an object that is
still held. Every operation leads to such a state again, whether it succeeds or fails. -/
theorem represents (h : Arises types s) :
    (∀ table, s.shared = some table →
      table.Represents s.context.registry types s.size ∧
      (∀ id, (table.find? id).isSome ↔ ∃ o ∈ table.written, o.id = id) ∧
      ∀ id tag serial, table.find? id = some (tag, serial) →
        serial < table.written.size ∧ (∃ o ∈ table.written, o.id = id) ∧
        ∀ body, Writer.shared id (types id) body s =
          Writer.reference tag serial (s.noted (.backReference tag serial))) ∧
    ∀ (Γ : Schema) (op : WriteOp), Γ.Programs types → op.About types →
      Arises types (op.after Γ s) := by
  refine ⟨fun table htable => ⟨h.holds.table table htable, fun id => ?_, ?_⟩, ?_⟩
  · have hrepresents := h.holds.table table htable
    constructor
    · intro hsome
      obtain ⟨found, hfound⟩ := Option.isSome_iff_exists.1 hsome
      obtain ⟨i, o, ho, hid⟩ := hrepresents.held id found hfound
      exact ⟨o, Array.mem_of_getElem? ho, hid⟩
    · rintro ⟨o, ho, rfl⟩
      obtain ⟨i, hi⟩ := Array.mem_iff_getElem?.1 ho
      obtain ⟨tag, -, -, hfind⟩ := hrepresents.saved i o hi
      rw [hfind]
      rfl
  · intro id tag serial hfind
    obtain ⟨hlt, htag, hheld⟩ := (h.holds.table table htable).serial_lt hfind
    refine ⟨hlt, hheld, fun body => ?_⟩
    rw [Writer.shared_run, Registry.requireTag, htag]
    simp only [htable, hfind]
  · intro Γ op hΓ hop
    rw [WriteOp.after_eq]
    exact h.pass (.finish s (WriteOp.program_run hΓ hop))

end Arises

end OutStream

/-- One node is written, and the next one does not fit: it is held all the same, with its body
begun. -/
theorem exists_represents_begun :
    ∃ s table, OutStream.Arises (fun _ => Sample.node) s ∧ s.shared = some table ∧
      s.size = 12 ∧ table.written.toList.map WrittenObject.start = [0, 7] ∧
      table.Represents s.context.registry (fun _ => Sample.node) s.size := by
  have hΓ : Sample.links.Programs fun _ => Sample.node := .of_derived Sample.derived_graphs _
  have hlast : Sample.lastNode.About fun _ => Sample.node := by
    unfold Value.About
    decide
  have hfirst : Sample.firstNode.About fun _ => Sample.node := by
    unfold Value.About
    decide
  have hstart : OutStream.Arises (fun _ => Sample.node)
      (.ofSink Sample.tracked (.bounded 12) none) :=
    .start _ .bigEndian true [.assign Sample.node 7] .standard _ none
  have hone := hstart.represents.2 _ (.value (.shared Sample.node) Sample.lastNode) hΓ hlast
  have htwo := hone.represents.2 _ (.value (.shared Sample.node) Sample.firstNode) hΓ hfirst
  obtain ⟨table, htable⟩ := Option.isSome_iff_exists.1 (by decide +kernel : Option.isSome
    (WriteOp.afterAll Sample.links [.value (.shared Sample.node) Sample.lastNode,
      .value (.shared Sample.node) Sample.firstNode]
      (.ofSink Sample.tracked (.bounded 12) none)).shared = true)
  refine ⟨_, table, htwo, htable, by decide +kernel, ?_, (htwo.represents.1 table htable).1⟩
  have hstarts : Option.map (fun table : WrittenTable => table.written.toList.map (·.start))
      (WriteOp.afterAll Sample.links [.value (.shared Sample.node) Sample.lastNode,
        .value (.shared Sample.node) Sample.firstNode]
        (.ofSink Sample.tracked (.bounded 12) none)).shared = some [0, 7] := by decide +kernel
  rw [htable] at hstarts
  exact Option.some.inj hstarts

end ObjectStream
