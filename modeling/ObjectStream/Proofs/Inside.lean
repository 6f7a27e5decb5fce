import ObjectStream.Proofs.Unforged

/-!
# Inside the bytes

A cursor subtracts its position from the number of bytes, looks up the byte at its
position, and cuts a run of bytes off there. All of this is sound as long as the
position is not past the end, and whatever is done with a stream, it never is: an
action that is refused has not moved the cursor past the end, and the way back leads
to a position that was inside of the same bytes. So no subtraction falls below zero,
and no index and no slice is out of range, whatever the bytes are.
-/

namespace ObjectStream

namespace ByteCursor

def remaining? (c : ByteCursor) : Option Nat :=
  if c.pos ≤ c.size then some (c.size - c.pos) else none

def window? (c : ByteCursor) (n : Nat) : Option ByteArray :=
  if c.pos + n ≤ c.size then some (c.data.extract c.pos (c.pos + n)) else none

/-- An access to `n` bytes that is refused if they are not there. It breaks off if the number of
bytes left is none, or if the access does. -/
def guarded? {α : Type} (c : ByteCursor) (n : Nat) (access : Option α) :
    Option (Except StreamError α) := do
  let left ← c.remaining?
  if left < n then pure (.error (.outOfRange n left)) else .ok <$> access

def peek? (c : ByteCursor) : Option (Except StreamError UInt8) := c.guarded? 1 c.data[c.pos]?

def advance? (c : ByteCursor) (n : Nat) : Option (Except StreamError ByteCursor) :=
  c.guarded? n (some { c with pos := c.pos + n })

def take? (c : ByteCursor) (n : Nat) : Option (Except StreamError (ByteArray × ByteCursor)) :=
  c.guarded? n ((c.window? n).map fun bytes => (bytes, { c with pos := c.pos + n }))

def takeNumber? (c : ByteCursor) (kind : NumberKind) (order : ByteOrder) :
    Option (Except StreamError (Int × ByteCursor)) :=
  (c.take? kind.width).map fun read =>
    read.map fun (bytes, c) => (kind.ofBytes order (unpacked bytes), c)

/-- The cursor is inside of its bytes or right behind them, and nothing that it does breaks off. The
way back to where it is is open. -/
structure Sound (c : ByteCursor) : Prop where
  inside : c.pos ≤ c.size
  remaining : c.remaining? = some c.remaining
  peek : c.peek? = some c.peek
  advance : ∀ n, c.advance? n = some (c.advance n)
  take : ∀ n, c.take? n = some (c.take n)
  takeNumber : ∀ kind order, c.takeNumber? kind order = some (c.takeNumber kind order)
  back : c.seek c.pos = .ok c

section Sound

variable {α : Type} {c : ByteCursor} {n : Nat}

theorem remaining?_of_inside (h : c.pos ≤ c.size) : c.remaining? = some c.remaining := if_pos h

theorem guarded?_of_short (h : c.pos ≤ c.size) (hn : c.remaining < n) (access : Option α) :
    c.guarded? n access = some (.error (.outOfRange n c.remaining)) := by
  rw [guarded?, remaining?_of_inside h, Option.bind_eq_bind, Option.bind_some, if_pos hn]
  rfl

theorem guarded?_of_enough (h : c.pos ≤ c.size) (hn : n ≤ c.remaining) (a : α) :
    c.guarded? n (some a) = some (.ok a) := by
  rw [guarded?, remaining?_of_inside h, Option.bind_eq_bind, Option.bind_some,
    if_neg (Nat.not_lt.2 hn)]
  rfl

theorem window?_of_enough (h : c.pos ≤ c.size) (hn : n ≤ c.remaining) :
    c.window? n = some (c.window n) := by
  rw [ByteCursor.remaining] at hn
  exact if_pos (by omega)

theorem peek?_eq (h : c.pos ≤ c.size) : c.peek? = some c.peek := by
  cases hbyte : c.data[c.pos]? with
  | some byte =>
      have hlt : c.pos < c.size := (getElem?_eq_some_iff.1 hbyte).1
      have henough : 1 ≤ c.remaining := by
        rw [ByteCursor.remaining]
        omega
      rw [peek?, ByteCursor.peek, hbyte, guarded?_of_enough h henough]
  | none =>
      have hend : c.size ≤ c.pos := by simpa [size, getElem?_def] using hbyte
      have hshort : c.remaining < 1 := by
        rw [ByteCursor.remaining]
        omega
      rw [peek?, ByteCursor.peek, hbyte, guarded?_of_short h hshort]

theorem advance?_eq (h : c.pos ≤ c.size) (n : Nat) : c.advance? n = some (c.advance n) := by
  by_cases hn : c.remaining < n
  · rw [advance?, guarded?_of_short h hn, ByteCursor.advance, shortage?, if_pos hn]
  · have hshortage := c.shortage?_eq_none_iff n |>.2 (Nat.not_lt.1 hn)
    rw [advance?, guarded?_of_enough h (Nat.not_lt.1 hn), ByteCursor.advance, hshortage]
    rfl

theorem take?_eq (h : c.pos ≤ c.size) (n : Nat) : c.take? n = some (c.take n) := by
  by_cases hn : c.remaining < n
  · rw [take?, guarded?_of_short h hn, ByteCursor.take, shortage?, if_pos hn]
  · have henough := Nat.not_lt.1 hn
    rw [take?, window?_of_enough h henough, Option.map_some, guarded?_of_enough h henough,
      ByteCursor.take, (c.shortage?_eq_none_iff n).2 henough]
    rfl

theorem sound_of_inside (h : c.pos ≤ c.size) : c.Sound where
  inside := h
  remaining := remaining?_of_inside h
  peek := peek?_eq h
  advance := advance?_eq h
  take := take?_eq h
  takeNumber kind order := by
    rw [takeNumber?, take?_eq h, Option.map_some]
    rfl
  back := if_neg (Nat.not_lt.2 h)

end Sound

end ByteCursor

def InStream.Inside (r : InStream) : Prop := r.cursor.pos ≤ r.cursor.size

namespace Reader

variable {α β : Type} {x : Reader α}

/-- Whether it succeeds or fails, the action does not take the cursor past the end. -/
def StaysInside (x : Reader α) : Prop := ∀ r : InStream, r.Inside → (stateAfter x r).Inside

namespace StaysInside

/-- What is put together from two actions. -/
theorem bind {f : α → Reader β} (hx : StaysInside x) (hf : ∀ a, StaysInside (f a)) :
    StaysInside (x >>= f) := by
  intro r hr
  rcases stateAfter_bind_cases x f r with hend | ⟨a, hend⟩
  · rw [hend]
    exact hx r hr
  · rw [hend]
    exact hf a _ (hx r hr)

/-- What goes on after an error. -/
theorem tryCatch {f : StreamError → Reader α} (hx : StaysInside x)
    (hf : ∀ e, StaysInside (f e)) : StaysInside (tryCatch x f) := by
  intro r hr
  rcases stateAfter_tryCatch_cases x f r with hend | ⟨e, hend⟩
  · rw [hend]
    exact hx r hr
  · rw [hend]
    exact hf e _ (hx r hr)

/-- What leaves the cursor alone. -/
theorem of_cursor (h : ∀ r, (stateAfter x r).cursor = r.cursor) : StaysInside x := by
  intro r hr
  rw [InStream.Inside, h r]
  exact hr

/-- Where an action fails, the way back leads to where the cursor was, in the same bytes. -/
theorem orRestore (hstill : Still x) (hx : StaysInside x) : StaysInside (Reader.orRestore x) := by
  intro r hr
  obtain ⟨pos, hpos⟩ := hstill r
  have hfirst := hx r hr
  unfold stateAfter Reader.orRestore at *
  cases hres : x r with
  | ok a r' =>
      rw [hres] at hfirst
      exact hfirst
  | error e r' =>
      rw [hres] at hpos
      dsimp only at hpos
      subst hpos
      exact hr

theorem advance (n : Nat) : StaysInside (Reader.advance n) := by
  intro r hr
  unfold stateAfter Reader.advance ByteCursor.advance
  cases hshort : r.cursor.shortage? n with
  | some e => exact hr
  | none =>
      have hn := (r.cursor.shortage?_eq_none_iff n).1 hshort
      show r.cursor.pos + n ≤ r.cursor.size
      rw [InStream.Inside] at hr
      rw [ByteCursor.remaining] at hn
      omega

/-- A read of some bytes goes as far as a move over them. -/
theorem of_advance {n : Nat} (h : ∀ r, stateAfter x r = stateAfter (Reader.advance n) r) :
    StaysInside x := by
  intro r hr
  rw [h r]
  exact advance n r hr

theorem raw (n : Nat) : StaysInside (Reader.raw n) := by
  refine of_advance (n := n) fun r => ?_
  unfold stateAfter Reader.raw Reader.advance ByteCursor.take ByteCursor.advance
  cases r.cursor.shortage? n <;> rfl

theorem number (kind : NumberKind) : StaysInside (Reader.number kind) := by
  refine of_advance (n := kind.width) fun r => ?_
  unfold stateAfter Reader.number Reader.advance ByteCursor.takeNumber ByteCursor.take
    ByteCursor.advance
  cases r.cursor.shortage? kind.width <;> rfl

theorem peek : StaysInside Reader.peek := by
  refine of_cursor fun r => ?_
  unfold stateAfter Reader.peek
  cases r.cursor.peek <;> rfl

/-- Positions past the end are refused. -/
theorem seek (pos : Nat) : StaysInside (Reader.seek pos) := by
  intro r hr
  unfold stateAfter Reader.seek ByteCursor.seek
  by_cases hsize : r.cursor.size < pos
  · rw [if_pos hsize]
    exact hr
  · rw [if_neg hsize]
    exact Nat.not_lt.1 hsize

end StaysInside

theorem rudiments_staysInside : Rudiments fun x => Still x ∧ StaysInside x where
  pure a := ⟨.pure a, .of_cursor fun _ => rfl⟩
  throw e := ⟨.throw e, .of_cursor fun _ => rfl⟩
  bind hx hf := ⟨hx.1.bind fun a => (hf a).1, hx.2.bind fun a => (hf a).2⟩
  orRestore hx := ⟨hx.1.orRestore, .orRestore hx.1 hx.2⟩
  peek := ⟨.peek, .peek⟩
  advance n := ⟨.advance n, .advance n⟩
  number kind := ⟨.number kind, .number kind⟩
  raw n := ⟨.raw n, .raw n⟩

theorem Primitive.staysInside (h : Primitive x) : StaysInside x := by
  have hidle {β : Type} {y : Reader β} (hy : ∀ r, stateAfter y r = r) : Still y ∧ StaysInside y :=
    ⟨fun r => ⟨r.cursor.pos, hy r⟩, .of_cursor fun r => congrArg _ (hy r)⟩
  refine (h.of_rudiments rudiments_staysInside ⟨.skip, fun r hr => ?_⟩
    (fun pos => ⟨.seek pos, .seek pos⟩) (hidle fun _ => rfl) (hidle fun _ => rfl)
    (hidle fun _ => rfl)).2
  exact (rudiments_staysInside.skipMany (r.cursor.remaining + 1) 1).2 r hr

/-! ## All that can be done with a stream -/

/-- An action that is put together from what a stream offers: to read headers, scalars and bytes, to
skip, to go to another place, to go on after an error, to look up, to enter and to forget shared
objects, and to hand over the bytes. -/
inductive Composed : {α : Type} → Reader α → Prop
  | primitive {α : Type} {x : Reader α} : Primitive x → Composed x
  | advance (n : Nat) : Composed (Reader.advance n)
  | bind {α β : Type} {x : Reader α} {f : α → Reader β} :
      Composed x → (∀ a, Composed (f a)) → Composed (x >>= f)
  | tryCatch {α : Type} {x : Reader α} {f : StreamError → Reader α} :
      Composed x → (∀ e, Composed (f e)) → Composed (tryCatch x f)
  | note (event : Event) : Composed (Reader.note event)
  | slot? (serial : Nat) : Composed (Reader.slot? serial)
  | openSlot (tag : TypeTag) : Composed (Reader.openSlot tag)
  | newObject (target type : Ty) (body : Value) : Composed (Reader.newObject target type body)
  | fillSlot (tag : TypeTag) (serial : Nat) (object : Shared) :
      Composed (Reader.fillSlot tag serial object)
  | rewind : Composed Reader.rewind
  | handOver : Composed Reader.handOver

namespace Composed

/-- Nothing that can be done with a stream takes the cursor past the end. -/
theorem staysInside (h : Composed x) : StaysInside x := by
  induction h with
  | primitive hx => exact hx.staysInside
  | advance n => exact .advance n
  | bind _ _ ihx ihf => exact ihx.bind ihf
  | tryCatch _ _ ihx ihf => exact ihx.tryCatch ihf
  | openSlot tag =>
      refine .of_cursor fun r => ?_
      rw [stateAfter_of_ok (openSlot_eq tag r), InStream.opened]
  | fillSlot tag serial object =>
      refine .of_cursor fun r => ?_
      rcases fillSlot_cases tag serial object r with ⟨-, hfill⟩ | ⟨slot, -, hfill⟩ | ⟨-, -, hfill⟩
      · rw [stateAfter_of_ok hfill]
      · rw [stateAfter_of_ok hfill]
        rfl
      · rw [stateAfter_of_error hfill]
        rfl
  | note | slot? | newObject => exact .of_cursor fun _ => rfl
  | rewind | handOver => exact fun r _ => Nat.zero_le _

theorem ite {P : Prop} [Decidable P] {y : Reader α} (hx : Composed x) (hy : Composed y) :
    Composed (if P then x else y) := by
  split
  · exact hx
  · exact hy

theorem pure (a : α) : Composed (Pure.pure a) := primitive (.pure a)

theorem throw (e : StreamError) : Composed (MonadExcept.throw e : Reader α) := primitive (.throw e)

theorem head (hx : Head x) : Composed x := primitive (.head hx)

theorem nilOr {x : Reader Value} (hx : Composed x) : Composed (Reader.nilOr x) :=
  (primitive .peek).bind fun _ =>
    ite ((head .nil).bind fun _ => pure _) (hx.bind fun _ => pure _)

theorem follow (tag : TypeTag) (serial : Nat) (target : Ty) :
    Composed (Reader.follow tag serial target) := by
  refine (slot? serial).bind fun slot => ?_
  cases slot with
  | none => exact throw _
  | some slot =>
      refine ite ?_ ((throw _).bind fun _ => ?_)
      all_goals
        cases slot.object with
        | none => exact throw _
        | some object => exact (note _).bind fun _ => ite (pure _) (throw _)

theorem sharedBehind (tag : TypeTag) (target : Ty) {read : Ty → Reader Value}
    (h : ∀ t, Composed (read t)) : Composed (Reader.sharedBehind tag target read) := by
  have hbuild (c : Context) : Composed (Reader.build c.registry tag target read) := by
    unfold Reader.build
    split
    · exact throw _
    · exact (note _).bind fun _ => (h _).bind fun _ => pure _
  have hmake : Composed (Reader.makeShared tag target read) :=
    (primitive .context).bind fun c => (hbuild c).bind fun p => newObject _ _ _
  refine (primitive .tracking).bind fun _ => ite ((primitive .peek).bind fun _ => ite ?_ ?_) hmake
  · exact (head (.unsigned .w32)).bind fun _ => follow _ _ _
  · exact (openSlot tag).bind fun _ => hmake.bind fun _ => (fillSlot _ _ _).bind fun _ => pure _

end Composed

theorem pieces_composed : Pieces Composed where
  pure := .pure
  throw := .throw
  bind := .bind
  head := .head
  context := .primitive .context
  note := .note
  nilOr := .nilOr
  sharedBehind := .sharedBehind

end Reader

open Reader

variable {Γ : Schema} {r : InStream}

/-- The operations on a stream are put together from what it offers if the readers that come with
types and fields are. -/
theorem ReadOp.composed_run (hΓ : ∀ x, Γ.Foreign x → Composed x) (op : ReadOp) :
    Composed (op.run Γ) := by
  have hvalue := pieces_composed.decodeWithin hΓ
  cases op.does Γ with
  | primitive hx hrun _ =>
      rw [hrun]
      exact (Composed.primitive hx).bind fun _ => .pure _
  | value t hop =>
      subst hop
      exact ((Composed.primitive .remaining).bind fun _ => hvalue _ t).bind fun _ => .pure _
  | fields t hop =>
      subst hop
      exact ((Composed.primitive .remaining).bind fun _ =>
        pieces_composed.of_shape hΓ (Shape.decodeFieldList _ t) (hvalue _)).bind fun _ => .pure _
  | forgets hop =>
      rcases hop with rfl | rfl
      · exact Composed.rewind.bind fun _ => .pure _
      · exact Composed.handOver.bind fun _ => .pure _

/-- The states that a stream comes to: new streams over any bytes, the states after operations, and
the states on the way, after any part of what an operation does. -/
inductive InStream.Reached (Γ : Schema) : InStream → Prop
  | start (c : Context) (bytes : ByteArray) (next : Identity) (journal : Journal) :
      Reached Γ (.ofBytes c bytes next journal)
  | after {r : InStream} (op : ReadOp) : Reached Γ r → Reached Γ (op.after Γ r)
  | amid {α : Type} {r : InStream} {x : Reader α} : Composed x → Reached Γ r →
      Reached Γ (stateAfter x r)

namespace InStream.Reached

/-- In no state that a stream comes to is the cursor past the end. -/
theorem inside (hΓ : ∀ x, Γ.Foreign x → Composed x) (h : r.Reached Γ) : r.Inside := by
  induction h with
  | start c bytes next journal => exact Nat.zero_le _
  | after op _ ih =>
      rw [ReadOp.after_eq]
      exact (op.composed_run hΓ).staysInside _ ih
  | amid hx _ ih => exact hx.staysInside _ ih

theorem afterAll (ops : List ReadOp) (h : r.Reached Γ) : (ReadOp.afterAll Γ ops r).Reached Γ := by
  induction ops generalizing r with
  | nil => exact h
  | cons op ops ih => exact ih (h.after op)

end InStream.Reached

end ObjectStream
