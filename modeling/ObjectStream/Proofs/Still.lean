import ObjectStream.Proofs.Rudiments

/-!
# Readers that leave the table alone

Headers, scalars and skipped values are read without a look at the table of
shared objects. Whether it succeeds or fails, such an action moves nothing but
the cursor.
-/

namespace ObjectStream

/-- The state after an action, whether it succeeded or not. -/
def stateAfter {α σ : Type} (x : EStateM StreamError σ α) (s : σ) : σ :=
  match x s with
  | .ok _ s' => s'
  | .error _ s' => s'

section StateAfter

variable {α β σ : Type} {x : EStateM StreamError σ α} {f : α → EStateM StreamError σ β} {s s' : σ}

theorem bind_of_ok {a : α} (hx : x s = .ok a s') : (x >>= f) s = f a s' := by
  simp only [Bind.bind, EStateM.bind, hx]

theorem bind_failed {e : StreamError} (hx : x s = .error e s') : (x >>= f) s = .error e s' := by
  simp only [Bind.bind, EStateM.bind, hx]

theorem stateAfter_of_ok {a : α} (hx : x s = .ok a s') : stateAfter x s = s' := by
  rw [stateAfter, hx]

theorem stateAfter_of_error {e : StreamError} (hx : x s = .error e s') : stateAfter x s = s' := by
  rw [stateAfter, hx]

theorem stateAfter_bind {a : α} (hx : x s = .ok a s') :
    stateAfter (x >>= f) s = stateAfter (f a) s' := by
  simp only [stateAfter, Bind.bind, EStateM.bind, hx]

theorem stateAfter_failed {e : StreamError} (hx : x s = .error e s') :
    stateAfter (x >>= f) s = s' := by
  simp only [stateAfter, Bind.bind, EStateM.bind, hx]

/-- What is put together from two actions ends where the first of them does, or goes on there. -/
theorem stateAfter_bind_cases (x : EStateM StreamError σ α) (f : α → EStateM StreamError σ β)
    (s : σ) : stateAfter (x >>= f) s = stateAfter x s ∨
      ∃ a, stateAfter (x >>= f) s = stateAfter (f a) (stateAfter x s) := by
  cases hx : x s with
  | error e s' =>
      left
      rw [stateAfter_failed hx, stateAfter_of_error hx]
  | ok a s' =>
      refine .inr ⟨a, ?_⟩
      rw [stateAfter_bind hx, stateAfter_of_ok hx]

theorem tryCatch_ok {g : StreamError → EStateM StreamError σ α} {a : α} (hx : x s = .ok a s') :
    tryCatch x g s = .ok a s' := by
  change EStateM.tryCatch x g s = _
  delta EStateM.tryCatch
  dsimp only
  rw [hx]

theorem tryCatch_error {g : StreamError → EStateM StreamError σ α} {e : StreamError}
    (hx : x s = .error e s') : tryCatch x g s = g e s' := by
  change EStateM.tryCatch x g s = _
  delta EStateM.tryCatch
  dsimp only
  rw [hx]
  rfl

/-- Where errors are caught, the action ends as it does by itself, or the handler goes on there. -/
theorem stateAfter_tryCatch_cases (x : EStateM StreamError σ α)
    (f : StreamError → EStateM StreamError σ α) (s : σ) :
    stateAfter (tryCatch x f) s = stateAfter x s ∨
      ∃ e, stateAfter (tryCatch x f) s = stateAfter (f e) (stateAfter x s) := by
  cases hx : x s with
  | ok a s' =>
      left
      rw [stateAfter_of_ok (tryCatch_ok hx), stateAfter_of_ok hx]
  | error e s' =>
      refine .inr ⟨e, ?_⟩
      rw [stateAfter, tryCatch_error hx, ← stateAfter, stateAfter_of_error hx]

end StateAfter

def succeeds {α σ : Type} (x : EStateM StreamError σ α) (s : σ) : Bool :=
  match x s with
  | .ok _ _ => true
  | .error _ _ => false

theorem ok_of_succeeds {α σ : Type} {x : EStateM StreamError σ α} {s : σ}
    (h : succeeds x s = true) : ∃ a, x s = .ok a (stateAfter x s) := by
  unfold succeeds at h
  unfold stateAfter
  split at h
  · next a s' hx => exact ⟨a, by rw [hx]⟩
  · cases h

namespace Reader

/-- The action moves nothing but the cursor. -/
def Still {α : Type} (x : Reader α) : Prop :=
  ∀ r, ∃ pos, stateAfter x r = { r with cursor := ⟨r.cursor.data, pos⟩ }

namespace Still

variable {α β : Type} {x y : Reader α}

theorem pure (a : α) : Still (Pure.pure a) := fun r => ⟨r.cursor.pos, rfl⟩

theorem throw (e : StreamError) : Still (MonadExcept.throw e : Reader α) :=
  fun r => ⟨r.cursor.pos, rfl⟩

theorem bind {f : α → Reader β} (hx : Still x) (hf : ∀ a, Still (f a)) : Still (x >>= f) := by
  intro r
  obtain ⟨pos, hpos⟩ := hx r
  rcases stateAfter_bind_cases x f r with hend | ⟨a, hend⟩
  · exact ⟨pos, hend.trans hpos⟩
  · obtain ⟨pos', hpos'⟩ := hf a (stateAfter x r)
    rw [hpos] at hend hpos'
    exact ⟨pos', hend.trans hpos'⟩

theorem orRestore (hx : Still x) : Still (Reader.orRestore x) := by
  intro r
  obtain ⟨pos, hpos⟩ := hx r
  simp only [stateAfter, Reader.orRestore] at hpos ⊢
  cases hres : x r with
  | error e r' =>
      rw [hres] at hpos
      dsimp only at hpos
      subst hpos
      exact ⟨r.pos, rfl⟩
  | ok a r' =>
      rw [hres] at hpos
      exact ⟨pos, hpos⟩

theorem peek : Still Reader.peek := by
  intro r
  refine ⟨r.cursor.pos, ?_⟩
  unfold stateAfter Reader.peek
  cases r.cursor.peek <;> rfl

theorem advance (n : Nat) : Still (Reader.advance n) := by
  intro r
  unfold stateAfter Reader.advance ByteCursor.advance
  cases r.cursor.shortage? n with
  | some e => exact ⟨r.cursor.pos, rfl⟩
  | none => exact ⟨r.cursor.pos + n, rfl⟩

theorem number (kind : NumberKind) : Still (Reader.number kind) := by
  intro r
  unfold stateAfter Reader.number ByteCursor.takeNumber ByteCursor.take
  cases r.cursor.shortage? kind.width with
  | some e => exact ⟨r.cursor.pos, rfl⟩
  | none => exact ⟨r.cursor.pos + kind.width, rfl⟩

theorem raw (n : Nat) : Still (Reader.raw n) := by
  intro r
  unfold stateAfter Reader.raw ByteCursor.take
  cases r.cursor.shortage? n with
  | some e => exact ⟨r.cursor.pos, rfl⟩
  | none => exact ⟨r.cursor.pos + n, rfl⟩

end Still

theorem rudiments_still : Rudiments Still where
  pure := .pure
  throw := .throw
  bind := .bind
  orRestore := .orRestore
  peek := .peek
  advance := .advance
  number := .number
  raw := .raw

namespace Still

/-- A value is skipped without a look at the table. -/
theorem skip : Still Reader.skip := by
  intro r
  exact rudiments_still.skipMany (r.cursor.remaining + 1) 1 r

theorem seek (pos : Nat) : Still (Reader.seek pos) := by
  intro r
  unfold stateAfter Reader.seek ByteCursor.seek
  by_cases hsize : r.cursor.size < pos
  · rw [if_pos hsize]
    exact ⟨r.cursor.pos, rfl⟩
  · rw [if_neg hsize]
    exact ⟨pos, rfl⟩

end Still

end Reader

end ObjectStream
