import ObjectStream.Proofs.Composed
import ObjectStream.Proofs.Still

/-!
# Going back to an earlier position

A stream that goes back to a position it was at is as it was then, whatever was
written since, and however much of it failed. What appends enters objects that
the table did not have, and none of them in front of the position; an object of
the table at that time starts in front of it, since every object that was written
with success has its framing behind its start. So exactly the new objects are
dropped, from the last one on.

Nothing depends on what an observer has seen, so the stream goes on as if the
abandoned writes had never happened.
-/

namespace ObjectStream

/-! ## The table -/

namespace WrittenTable

variable {t t' u : WrittenTable} {low high pos start : Nat} {id : Identity} {tag : TypeTag}

/-- Objects are entered that the table does not have, none of them in front of an offset. -/
inductive Grows (low : Nat) (t : WrittenTable) : WrittenTable → Prop
  | refl : Grows low t t
  | enter {t' : WrittenTable} {id : Identity} {start : Nat} (tag : TypeTag) :
      Grows low t t' → low ≤ start → t'.find? id = none → Grows low t (t'.enter id tag start)

theorem Grows.mono (h : Grows high t u) (hle : low ≤ high) : Grows low t u := by
  induction h with
  | refl => exact .refl
  | enter tag _ hstart hnew ih => exact .enter tag ih (Nat.le_trans hle hstart) hnew

theorem Grows.trans (h : Grows low t t') (h' : Grows low t' u) : Grows low t u := by
  induction h' with
  | refl => exact h
  | enter tag _ hstart hnew ih => exact .enter tag ih hstart hnew

/-- An object that was entered last is dropped first. -/
theorem dropFrom_enter (hnew : t.find? id = none) (hstart : pos ≤ start) (n : Nat) :
    (t.enter id tag start).dropFrom pos (n + 1) = t.dropFrom pos n := by
  have hsaved : (t.saved.insert id (tag, t.nextSerial)).erase id = t.saved := by
    apply Std.ExtTreeMap.ext_getElem?
    intro other
    rw [Std.ExtTreeMap.getElem?_erase, Std.ExtTreeMap.getElem?_insert]
    by_cases heq : compare id other = .eq
    · rw [if_pos heq, ← Std.LawfulEqOrd.eq_of_compare heq]
      exact hnew.symm
    · rw [if_neg heq, if_neg heq]
  rw [dropFrom]
  simp only [enter, Array.back?_push, if_neg (Nat.not_lt.2 hstart), Array.pop_push, hsaved]

theorem dropFrom_of_lt (h : ∀ o ∈ t.written, o.start < pos) (n : Nat) : t.dropFrom pos n = t := by
  cases n with
  | zero => rfl
  | succ n =>
      rw [dropFrom]
      cases hback : t.written.back? with
      | none => rfl
      | some last =>
          dsimp only
          rw [if_pos (h last (Array.mem_of_back? hback))]

/-- What was entered since is dropped, and nothing else. -/
theorem Grows.truncate (h : Grows low t u) (hbelow : ∀ o ∈ t.written, o.start < low) :
    u.truncate low = t := by
  induction h with
  | refl => exact dropFrom_of_lt hbelow _
  | @enter t' id start tag _ hstart hnew ih =>
      have hsize : (t'.enter id tag start).written.size = t'.written.size + 1 := by
        simp [WrittenTable.enter]
      rw [WrittenTable.truncate, hsize, dropFrom_enter hnew hstart]
      exact ih

structure Within (t : WrittenTable) (n : Nat) : Prop where
  sorted : t.written.toList.Pairwise fun a b => a.start ≤ b.start
  below : ∀ o ∈ t.written, o.start < n

theorem Within.mono {m n : Nat} (h : t.Within m) (hle : m ≤ n) : t.Within n :=
  ⟨h.sorted, fun o ho => Nat.lt_of_lt_of_le (h.below o ho) hle⟩

theorem Within.enter (h : t.Within start) (id : Identity) (tag : TypeTag) :
    (t.enter id tag start).Within (start + 1) := by
  constructor
  · simp only [WrittenTable.enter, Array.toList_push, List.pairwise_append, h.sorted,
      List.pairwise_singleton, List.mem_singleton, true_and]
    rintro a ha b rfl
    exact Nat.le_of_lt (h.below a (Array.mem_toList_iff.1 ha))
  · intro o ho
    simp only [WrittenTable.enter, Array.mem_push] at ho
    rcases ho with ho | rfl
    · exact Nat.lt_succ_of_lt (h.below o ho)
    · exact Nat.lt_succ_self _

theorem Within.empty (n : Nat) : WrittenTable.empty.Within n := by
  constructor
  · exact List.Pairwise.nil
  · simp [WrittenTable.empty]

theorem within_dropFrom (pos : Nat) {n : Nat} (hsize : t.written.size = n)
    (hsorted : t.written.toList.Pairwise fun a b => a.start ≤ b.start) :
    (t.dropFrom pos n).Within pos := by
  induction n generalizing t with
  | zero =>
      refine ⟨hsorted, fun o ho => ?_⟩
      rw [dropFrom, Array.eq_empty_of_size_eq_zero hsize] at ho
      simp at ho
  | succ n ih =>
      obtain ⟨init, last, hlast⟩ : ∃ init last, t.written = Array.push init last :=
        Array.eq_push_of_size_ne_zero (by omega)
      rw [dropFrom, hlast, Array.back?_push]
      dsimp only
      by_cases hlt : last.start < pos
      · rw [if_pos hlt]
        refine ⟨hsorted, fun o ho => ?_⟩
        rw [hlast, Array.toList_push, List.pairwise_append] at hsorted
        rw [hlast, Array.mem_push] at ho
        rcases ho with ho | rfl
        · have hle := hsorted.2.2 o (Array.mem_toList_iff.2 ho) last List.mem_cons_self
          exact Nat.lt_of_le_of_lt hle hlt
        · exact hlt
      · rw [if_neg hlt, Array.pop_push]
        apply ih
        · rw [hlast, Array.size_push] at hsize
          exact Nat.succ.inj hsize
        · rw [hlast, Array.toList_push, List.pairwise_append] at hsorted
          exact hsorted.1

/-- Behind a position no object is left. -/
theorem Within.truncate {n : Nat} (h : t.Within n) (pos : Nat) : (t.truncate pos).Within pos :=
  within_dropFrom pos rfl h.sorted

end WrittenTable

/-! ## What writing does to a stream -/

namespace OutStream

variable {s t u : OutStream}

/-- All that happened to the stream is that bytes and objects were added to it. -/
structure Appended (s t : OutStream) : Prop where
  context : t.context = s.context
  sink : ∃ bytes, t.sink = s.sink.append bytes
  shared : Option.Rel (WrittenTable.Grows s.size) s.shared t.shared

/-- The objects of the table are in the order of their starts, and each starts in front of the
position. -/
def Settled (s : OutStream) : Prop := ∀ table, s.shared = some table → table.Within s.size

theorem grows_refl {low : Nat} (table : Option WrittenTable) :
    Option.Rel (WrittenTable.Grows low) table table := by
  cases table with
  | none => exact .none
  | some table => exact .some .refl

theorem grows_trans {low high : Nat} {a b c : Option WrittenTable} (hle : low ≤ high)
    (h : Option.Rel (WrittenTable.Grows low) a b)
    (h' : Option.Rel (WrittenTable.Grows high) b c) :
    Option.Rel (WrittenTable.Grows low) a c := by
  cases h with
  | none =>
      cases h'
      exact .none
  | some hab =>
      cases h' with
      | some hbc => exact .some (hab.trans (hbc.mono hle))

namespace Appended

theorem refl (s : OutStream) : s.Appended s where
  context := rfl
  sink := ⟨packed [], by
    have happend := s.append_nil
    rw [OutStream.append] at happend
    exact congrArg OutStream.sink happend.symm⟩
  shared := grows_refl _

theorem append (s : OutStream) (bytes : List UInt8) : s.Appended (s.append bytes) where
  context := rfl
  sink := ⟨packed bytes, rfl⟩
  shared := grows_refl _

theorem noted (s : OutStream) (event : Event) : s.Appended (s.noted event) where
  context := rfl
  sink := (refl s).sink
  shared := grows_refl _

theorem enter {table : WrittenTable} {id : Identity} (hshared : s.shared = some table)
    (hnew : table.find? id = none) (tag : TypeTag) : s.Appended (s.enter table id tag) where
  context := rfl
  sink := (refl s).sink
  shared := by
    rw [hshared]
    exact .some (.enter tag .refl (Nat.le_refl _) hnew)

theorem size_le (h : s.Appended t) : s.size ≤ t.size := by
  obtain ⟨bytes, hbytes⟩ := h.sink
  rw [size, size, hbytes, ByteSink.size_append]
  exact Nat.le_add_right _ _

theorem trans (h : s.Appended t) (h' : t.Appended u) : s.Appended u where
  context := h'.context.trans h.context
  sink := by
    obtain ⟨a, ha⟩ := h.sink
    obtain ⟨b, hb⟩ := h'.sink
    exact ⟨a ++ b, by rw [hb, ha, ByteSink.append_append]⟩
  shared := grows_trans h.size_le h.shared h'.shared

/-- Going back restores the stream, but for what an observer has seen. -/
theorem backTo (h : s.Appended t) (hs : s.Settled) :
    Writer.backTo s.size t = .ok () { s with journal := t.journal } := by
  obtain ⟨bytes, hbytes⟩ := h.sink
  have hsink : t.sink.truncate s.size = s.sink := by
    rw [hbytes]
    exact s.sink.truncate_append bytes
  have htable : t.shared.map (·.truncate s.size) = s.shared := by
    have hgrows := h.shared
    rw [Settled] at hs
    generalize s.shared = a, t.shared = b at hgrows hs
    cases hgrows with
    | none => rfl
    | some hgrows => rw [Option.map_some, hgrows.truncate (hs _ rfl).below]
  rw [Writer.backTo, if_neg (Nat.not_lt.2 h.size_le), hsink, htable, h.context]

end Appended

end OutStream

namespace Writer

variable {α β : Type}

/-- Whether it succeeds or fails, a composed writer adds to the stream. -/
theorem Composed.appended {x : Writer α} (hx : x.Composed) (s : OutStream) :
    s.Appended (stateAfter x s) := by
  refine hx.kept ?_ s (.refl s)
  constructor
  · exact fun t bytes _ ht => ht.trans (.append t bytes)
  · exact fun t event ht => ht.trans (.noted t event)
  · exact fun t table id tag hshared hnew ht => ht.trans (.enter hshared hnew tag)

def Settles (x : Writer α) : Prop := ∀ s a t, s.Settled → x s = .ok a t → t.Settled

namespace Settles

theorem bind {x : Writer α} {f : α → Writer β} (hx : Settles x) (hf : ∀ a, Settles (f a)) :
    Settles (x >>= f) := by
  intro s b u hs h
  obtain ⟨a, t, hxs, hft⟩ := bind_ok h
  exact hf a t b u (hx s a t hs hxs) hft

theorem still {x : Writer α} (hx : ∀ s a t, x s = .ok a t → t = s) : Settles x := by
  intro s a t hs h
  rw [hx s a t h]
  exact hs

theorem spell (f : Form) : Settles (Writer.spell f) := by
  intro s a t hs h
  rw [spell_ok h]
  intro table htable
  exact (hs table htable).mono (OutStream.Appended.append s _).size_le

theorem checkBody (type : Ty) (start : Nat) : Settles (Writer.checkBody type start) := by
  refine still fun s a t h => ?_
  rcases checkBody_cases type start s with h' | ⟨e, h'⟩
  · rw [h'] at h
    cases h
    rfl
  · rw [h'] at h
    cases h

theorem position : Settles Writer.position := still fun _ _ _ h => by cases h; rfl

/-- The first byte of its framing settles an object that was just entered. -/
theorem firstBody {s t : OutStream} {table : WrittenTable} {id : Identity} {type : Ty}
    {tag : TypeTag} {body : Writer Unit} (hbody : Settles body) (hs : s.Settled)
    (hshared : s.shared = some table)
    (h : Writer.firstBody type tag body (s.enter table id tag) = .ok () t) : t.Settled := by
  have hbehind : Settles (do
      Writer.spell (.uint tag)
      let start ← Writer.position
      body
      Writer.checkBody type start) :=
    (spell _).bind fun _ => position.bind fun start => hbody.bind fun _ => checkBody type start
  obtain ⟨_, u, hheader, hrest⟩ := bind_ok h
  apply hbehind u () t ?_ hrest
  rw [spell_ok hheader]
  intro table' htable'
  cases htable'
  refine ((hs table hshared).enter id tag).mono ?_
  have hlen : 0 < (Form.array 2 (s.enter table id tag).context.byteOrder).length := by
    rw [Form.length_array]
    decide
  simp only [OutStream.size, OutStream.append, ByteSink.size_append, size_packed]
  exact Nat.add_le_add_left hlen _

end Settles

theorem Composed.settles {x : Writer α} (hx : x.Composed) : x.Settles := by
  refine of_pieces (M := Settles) ?_ hx
  constructor
  case pure => exact fun a => .still fun _ _ _ h => by cases h; rfl
  case throw => exact fun e => .still fun _ _ _ h => by cases h
  case bind => exact Settles.bind
  case context => exact .still fun _ _ _ h => by cases h; rfl
  case position => exact .position
  case spell => exact .spell
  case oversized => exact fun n e => .still fun s a t h => absurd h (throw_behind_ne_ok n e s t)
  case checkBody => exact .checkBody
  case shared =>
    intro id type body hbody hpair hreference _ s a t hs hrun
    rcases shared_cases id type body s with
      ⟨e, h⟩ | ⟨tag, -, h⟩ | ⟨tag, serial, h⟩ | ⟨table, tag, hshared, -, h⟩
    · rw [h] at hrun
      cases hrun
    · rw [h] at hrun
      exact hpair tag s a t hs hrun
    · rw [h] at hrun
      exact hreference tag serial (s.noted (.backReference tag serial)) a t hs hrun
    · rw [h] at hrun
      exact Settles.firstBody hbody hs hshared hrun

end Writer

/-! ## Observers -/

def OutStream.unobserved (s : OutStream) : OutStream := { s with journal := none }

namespace Writer

variable {α β : Type}

/-- What a run shows to one who is no observer: the answer, and the stream after it. -/
def shown (x : Writer α) (s : OutStream) : Except StreamError α × OutStream :=
  match x s with
  | .ok a t => (.ok a, t.unobserved)
  | .error e t => (.error e, t.unobserved)

def Blind (x : Writer α) : Prop :=
  ∀ s t : OutStream, s.unobserved = t.unobserved → x.shown s = x.shown t

theorem shown_bind (x : Writer α) (f : α → Writer β) (s : OutStream) :
    (x >>= f).shown s =
      match x s with
      | .ok a t => (f a).shown t
      | .error e t => (.error e, t.unobserved) := by
  simp only [shown, Bind.bind, EStateM.bind]
  cases x s <;> rfl

namespace Blind

theorem bind {x : Writer α} {f : α → Writer β} (hx : Blind x) (hf : ∀ a, Blind (f a)) :
    Blind (x >>= f) := by
  intro s t hst
  have hshown := hx s t hst
  rw [shown_bind, shown_bind]
  rw [shown, shown] at hshown
  cases hs : x s with
  | error e s' =>
      cases ht : x t with
      | error e' t' => simpa [hs, ht] using hshown
      | ok b t' => simp [hs, ht] at hshown
  | ok a s' =>
      cases ht : x t with
      | error e' t' => simp [hs, ht] at hshown
      | ok b t' =>
          simp only [hs, ht, Prod.mk.injEq, Except.ok.injEq] at hshown
          obtain ⟨rfl, hst'⟩ := hshown
          exact hf a s' t' hst'

/-- A writer that does the same on the stream without an observer. -/
theorem of_unobserved {x : Writer α} (h : ∀ s, x.shown s = x.shown s.unobserved) : Blind x := by
  intro s t hst
  rw [h s, h t, hst]

theorem spell (f : Form) : Blind (Writer.spell f) := by
  refine of_unobserved fun s => ?_
  simp only [shown, Writer.spell, Writer.raw, OutStream.unobserved]
  cases s.sink.refusal? (packed (f s.context.byteOrder)).size <;> rfl

theorem checkBody (type : Ty) (start : Nat) : Blind (Writer.checkBody type start) := by
  refine of_unobserved fun s => ?_
  simp only [shown, Writer.checkBody, Bind.bind, EStateM.bind, byteAt?, OutStream.unobserved]
  cases s.sink.data[start]? with
  | none => rfl
  | some code => cases hinteger : (Format.family code).isInteger <;> simp [hinteger] <;> rfl

/-- Only the run counts. -/
theorem shown_congr {x y : Writer α} {s t : OutStream} (h : x s = y t) :
    x.shown s = y.shown t := by
  rw [shown, shown, h]

theorem shared {id : Identity} {type : Ty} {body : Writer Unit}
    (hpair : ∀ tag, Blind (taggedBody tag body))
    (hreference : ∀ tag serial, Blind (reference tag serial))
    (hfirst : ∀ tag, Blind (firstBody type tag body)) : Blind (Writer.shared id type body) := by
  refine of_unobserved fun s => ?_
  have hrun := shared_run id type body s
  have hrun' := shared_run id type body s.unobserved
  rw [show s.unobserved.context = s.context from rfl,
    show s.unobserved.shared = s.shared from rfl] at hrun'
  cases htag : s.context.registry.requireTag type with
  | error e =>
      simp only [htag] at hrun hrun'
      rw [shown, shown, hrun, hrun']
      rfl
  | ok tag =>
      cases hshared : s.shared with
      | none =>
          simp only [htag, hshared] at hrun hrun'
          rw [shown_congr hrun, shown_congr hrun']
          exact hpair tag s s.unobserved rfl
      | some table =>
          cases hfind : table.find? id with
          | some found =>
              simp only [htag, hshared, hfind] at hrun hrun'
              rw [shown_congr hrun, shown_congr hrun']
              exact hreference _ _ _ _ rfl
          | none =>
              simp only [htag, hshared, hfind] at hrun hrun'
              rw [shown_congr hrun, shown_congr hrun']
              exact hfirst _ _ _ rfl

end Blind

theorem pieces_blind : Pieces Blind where
  pure _ := .of_unobserved fun _ => rfl
  throw _ := .of_unobserved fun _ => rfl
  bind := Blind.bind
  context := .of_unobserved fun _ => rfl
  position := .of_unobserved fun _ => rfl
  spell := .spell
  oversized n e := by
    refine .of_unobserved fun s => ?_
    simp only [shown, Bind.bind, EStateM.bind, ensureRoom, OutStream.unobserved]
    cases s.sink.refusal? n <;> rfl
  checkBody := .checkBody
  shared _ _ _ _ := .shared

theorem Composed.blind {x : Writer α} (hx : x.Composed) : x.Blind := of_pieces pieces_blind hx

end Writer

/-! ## Histories -/

def Schema.Blind (Γ : Schema) : Prop :=
  ∀ p codec, Γ.partCodec? p = some codec → ∀ v, (codec.write v).Blind

theorem Schema.Composed.blind {Γ : Schema} (hΓ : Γ.Composed) : Γ.Blind :=
  fun _ _ hcodec v => (hΓ.part hcodec v).blind

namespace WriteOp

variable {Γ : Schema}

theorem blind_run (hΓ : Γ.Blind) (op : WriteOp) : (op.run Γ).Blind := by
  cases op with
  | backTo pos =>
      refine .bind (.of_unobserved fun s => ?_) fun _ => .of_unobserved fun _ => rfl
      simp only [Writer.shown, Writer.backTo, OutStream.size, OutStream.unobserved]
      by_cases hlt : s.sink.size < pos <;> simp [hlt]
  | clear => exact .of_unobserved fun _ => rfl
  | handOver => exact .of_unobserved fun _ => rfl
  | _ => exact closed_run Writer.pieces_blind.closed hΓ rfl

def shows (Γ : Schema) :
    List WriteOp → OutStream → List (Except StreamError WriteAnswer × ByteArray)
  | [], _ => []
  | op :: ops, s =>
      (((op.run Γ).shown s).1, (op.after Γ s).sink.data) :: shows Γ ops (op.after Γ s)

theorem unobserved_after (op : WriteOp) (s : OutStream) :
    (op.after Γ s).unobserved = ((op.run Γ).shown s).2 := by
  rw [after, Writer.shown]
  cases op.run Γ s <;> rfl

/-- An observer changes nothing that a caller sees. -/
theorem shows_congr (hΓ : Γ.Blind) (ops : List WriteOp) {s t : OutStream}
    (h : s.unobserved = t.unobserved) : shows Γ ops s = shows Γ ops t := by
  induction ops generalizing s t with
  | nil => rfl
  | cons op ops ih =>
      have hshown := blind_run hΓ op s t h
      have hafter : (op.after Γ s).unobserved = (op.after Γ t).unobserved := by
        rw [unobserved_after, unobserved_after, hshown]
      have hdata : (op.after Γ s).sink.data = (op.after Γ t).sink.data :=
        congrArg (fun u => u.sink.data) hafter
      rw [shows, shows, hshown, hdata, ih hafter]

theorem appended_afterAll (hΓ : Γ.Composed) {ops : List WriteOp}
    (h : ∀ op ∈ ops, op.appends = true) (s : OutStream) : s.Appended (afterAll Γ ops s) := by
  induction ops generalizing s with
  | nil => exact .refl s
  | cons op ops ih =>
      rw [List.forall_mem_cons] at h
      have hfirst : s.Appended (op.after Γ s) := by
        rw [after_eq]
        exact (composed_run hΓ h.1).appended s
      exact hfirst.trans (ih h.2 (op.after Γ s))

end WriteOp

namespace OutStream

variable {Γ : Schema}

/-- The states of streams of a schema: from a new stream by operations that succeed. -/
inductive Reached (Γ : Schema) : OutStream → Prop
  | start (c : Context) (sink : ByteSink) (journal : Journal) : Reached Γ (.ofSink c sink journal)
  | step {s t : OutStream} {op : WriteOp} {answer : WriteAnswer} :
      Reached Γ s → op.run Γ s = .ok answer t → Reached Γ t

theorem settled_empty {s : OutStream} (h : ∀ table, s.shared = some table → table = .empty) :
    s.Settled := by
  intro table htable
  rw [h table htable]
  exact .empty _

theorem Reached.settled (hΓ : Γ.Composed) {s : OutStream} (h : Reached Γ s) : s.Settled := by
  induction h with
  | start c sink journal =>
      refine settled_empty fun table htable => ?_
      cases hdedup : c.dedup <;> simp [ofSink, hdedup] at htable
      exact htable.symm
  | @step s t op answer _ hrun ih =>
      cases op with
      | backTo pos =>
          obtain ⟨_, u, hback, hanswer⟩ := bind_ok hrun
          cases hanswer
          rw [Writer.backTo] at hback
          by_cases hlt : s.size < pos
          · rw [if_pos hlt] at hback
            cases hback
          · rw [if_neg hlt] at hback
            cases hback
            intro table htable
            obtain ⟨before, hbefore, rfl⟩ := Option.map_eq_some_iff.1 htable
            have hsize : (s.sink.truncate pos).size = pos := by
              have hle : pos ≤ s.sink.data.size := Nat.le_of_not_lt hlt
              simp [ByteSink.truncate, ByteSink.size, hle]
            have hwithin := (ih before hbefore).truncate pos
            rw [size, hsize]
            exact hwithin
      | clear | handOver =>
          cases hrun
          refine settled_empty fun table htable => ?_
          obtain ⟨_, _, rfl⟩ := Option.map_eq_some_iff.1 htable
          rfl
      | _ => exact (WriteOp.composed_run hΓ rfl).settles _ _ _ ih hrun

/-- Going back to a position drops all that was written since, and the stream goes on as if
nothing of it had been. -/
theorem Reached.exists_backTo (hΓ : Γ.Composed) {s : OutStream} (hs : Reached Γ s)
    {ops : List WriteOp} (hops : ∀ op ∈ ops, op.appends = true) :
    ∃ journal, Writer.backTo s.size (WriteOp.afterAll Γ ops s) = .ok () { s with journal } ∧
      ∀ later, WriteOp.shows Γ later { s with journal } = WriteOp.shows Γ later s := by
  have happended := WriteOp.appended_afterAll hΓ hops s
  exact ⟨_, happended.backTo (hs.settled hΓ), fun later => WriteOp.shows_congr hΓ.blind later rfl⟩

end OutStream

/-- A node whose link does not fit, an object of a type without a tag, and the null pointer. -/
def Sample.abandoned : List WriteOp :=
  [.value (.shared node) firstNode, .value (.shared .u8) (.shared 2 .u8 (.scalar (.int 5))),
    .nullPointer]

/-- All three fail, the first of them with an object entered and its body begun. -/
theorem exists_backTo_abandoned :
    ∃ answer s t, (WriteOp.value (.shared Sample.node) Sample.lastNode).run Sample.links
        (.ofSink Sample.tracked (.bounded 12) none) = .ok answer s ∧
      WriteOp.afterAll Sample.links Sample.abandoned s = t ∧ s.size = 7 ∧ t.size = 12 ∧
      (WriteOp.shows Sample.links Sample.abandoned s).all (fun shown => !shown.1.isOk) = true ∧
      ∃ journal, Writer.backTo s.size t = .ok () { s with journal } ∧
        ∀ later, WriteOp.shows Sample.links later { s with journal } =
          WriteOp.shows Sample.links later s := by
  obtain ⟨answer, hs⟩ := ok_of_succeeds
    (x := (WriteOp.value (.shared Sample.node) Sample.lastNode).run Sample.links)
    (s := .ofSink Sample.tracked (.bounded 12) none) (by decide +kernel)
  have hreached := OutStream.Reached.step (.start Sample.tracked (.bounded 12) none) hs
  have happends : ∀ op ∈ Sample.abandoned, op.appends = true := by decide
  obtain ⟨journal, hback, hlater⟩ := hreached.exists_backTo Sample.composed_links happends
  refine ⟨answer, _, _, hs, rfl, ?_, ?_, ?_, journal, hback, hlater⟩
  all_goals decide +kernel

end ObjectStream
