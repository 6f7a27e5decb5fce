import ObjectStream.Proofs.Local
import ObjectStream.Proofs.Sketch

/-!
# Values without shared objects

The table of a stream is there for pointers to shared objects. A value that has
none is written without a look at the table, and the table stays as it is. On
the way in the same holds of every reading that opens no place: it would have
gone the same way, and to the same end, with any other table.
-/

namespace ObjectStream

namespace OutStream

def withTable (s : OutStream) (table : Option WrittenTable) : OutStream :=
  { s with shared := table }

end OutStream

namespace InStream

def withTable (r : InStream) (table : Option (Array Slot)) : InStream := { r with shared := table }

theorem shared_of_slots {r : InStream} (htracks : r.tracks = true) (hslots : r.slots = []) :
    r.shared = some #[] := by
  unfold tracks at htracks
  unfold slots at hslots
  cases hshared : r.shared with
  | none => simp [hshared] at htracks
  | some table => simpa [hshared] using hslots

end InStream

/-! ## Writing -/

/-- Where it succeeds the writer goes the same way with every table, and leaves it. -/
def Writer.Aloof (c : Context) (x : Writer Unit) : Prop :=
  ∀ s s', s.context.untracked = c.untracked → x s = .ok () s' → ∀ table,
    x (s.withTable table) = .ok () (s'.withTable table)

/-- A run that goes the same way with its own table has not changed it. -/
theorem Writer.Aloof.shared {c : Context} {x : Writer Unit} (hx : Aloof c x) {s s' : OutStream}
    (hs : s.context.untracked = c.untracked) (h : x s = .ok () s') : s'.shared = s.shared := by
  have hsame := hx s s' hs h s.shared
  rw [show s.withTable s.shared = s from rfl, h] at hsame
  have hstate : s' = s'.withTable s.shared := (EStateM.Result.ok.inj hsame).2
  exact (congrArg OutStream.shared hstate).trans rfl

theorem Sketch.aloof {c : Context} {k : Sketch} (h : k.objects = []) :
    Writer.Aloof c k.run := by
  induction k with
  | done =>
      rintro s s' - hrun table
      cases hrun
      rfl
  | refused e =>
      rintro s s' - hrun
      cases hrun
  | oversized n e =>
      rintro s s' - hrun
      obtain ⟨_, _, _, hthrow⟩ := bind_ok hrun
      cases hthrow
  | form f rest ih =>
      intro s s' hs hrun table
      obtain ⟨_, t, hspell, hrest⟩ := bind_ok hrun
      obtain rfl := Writer.spell_ok hspell
      have hother : Writer.spell f (s.withTable table) =
          .ok () ((s.append (f s.context.byteOrder)).withTable table) := by
        unfold Writer.spell Writer.raw at hspell ⊢
        dsimp only [OutStream.withTable]
        cases hroom : s.sink.refusal? (packed (f s.context.byteOrder)).size with
        | some e =>
            rw [hroom] at hspell
            cases hspell
        | none => rfl
      simp only [Sketch.run, bind, EStateM.bind, hother]
      exact ih h (s.append (f s.context.byteOrder)) s' hs hrest table
  | object id type body rest => cases h

variable {Γ : Schema} {c : Context}

/-- A value without shared objects is written without a look at the table. -/
theorem Schema.aloof_writePart (hΓ : Γ.Drawn c) {p : Part} {v : Value} (hv : v.nodes = []) :
    Writer.Aloof c (Γ.writePart p v) := by
  obtain ⟨k, hk, hdepicts⟩ := Schema.draws_writePart (p := p) (.of_nodes hΓ hv)
  have hobjects : k.objects = [] := by
    refine List.eq_nil_iff_forall_not_mem.2 fun o ho => ?_
    obtain ⟨n, hn, -⟩ := hdepicts.sound o ho
    rw [hv] at hn
    cases hn
  intro s s' hs h table
  rw [hk s hs] at h
  rw [hk (s.withTable table) hs]
  exact k.aloof hobjects s s' hs h table

/-! ## Reading -/

theorem gathers_grows : Gathers fun (r r' : InStream) _ => r.Grows r' where
  refl r := .refl r
  trans h h' := h.trans h'
  drop h _ := h
  cursor _ _ := ⟨rfl, Nat.le_refl _⟩
  noted _ _ := ⟨rfl, Nat.le_refl _⟩
  opened r tag := .opened r tag
  made _ h := h
  put tag serial h := h.trans (.put _ tag serial _)
  held _ := ⟨rfl, Nat.le_refl _⟩
  converted _ h := h

namespace Reader

variable {α β : Type} {x : Reader α}

/-- Where it succeeds without a place opened in an empty table, the reader goes the same way with
every table, and leaves it. Places are never closed. -/
structure Aloof (x : Reader α) : Prop where
  grows : ∀ r : InStream, r.Grows (stateAfter x r)
  passes : ∀ r a r', x r = .ok a r' → r.shared = some #[] → r'.shared = some #[] →
    ∀ table, x (r.withTable table) = .ok a (r'.withTable table)

theorem gives_of_grows (h : ∀ r : InStream, r.Grows (stateAfter x r)) (ns : List Node)
    (view : α → List Node) : Gives (fun (r r' : InStream) _ => r.Grows r') ns x view := by
  intro r₀ r hr
  have hx := hr.trans (h r)
  unfold stateAfter at hx
  cases hres : x r with
  | ok a r' =>
      rw [hres] at hx
      exact hx
  | error e r' =>
      rw [hres] at hx
      exact hx

theorem grows_of_gives {ns : List Node} {view : α → List Node}
    (h : Gives (fun (r r' : InStream) _ => r.Grows r') ns x view) (r : InStream) :
    r.Grows (stateAfter x r) := by
  have hx := h r r (gathers_grows.refl r)
  unfold stateAfter
  cases hres : x r with
  | ok a r' =>
      rw [hres] at hx
      exact hx
  | error e r' =>
      rw [hres] at hx
      exact hx

namespace Aloof

/-- A state between two states with empty tables has an empty table. -/
theorem empty_between {r r' : InStream} {y : Reader β} (hgrows : r.Grows r')
    (hy : r'.Grows (stateAfter y r')) (hr : r.shared = some #[])
    (hend : (stateAfter y r').shared = some #[]) : r'.shared = some #[] := by
  have hslots : (stateAfter y r').slots.length = 0 := by
    rw [InStream.slots, hend]
    rfl
  have htracks : r.tracks = true := by
    rw [InStream.tracks, hr]
    rfl
  have hle := hy.2
  exact InStream.shared_of_slots (hgrows.1.trans htracks)
    (List.eq_nil_of_length_eq_zero (by omega))

theorem pure (a : α) : Aloof (Pure.pure a) where
  grows r := ⟨rfl, Nat.le_refl _⟩
  passes r b r' h _ _ table := by
    cases h
    rfl

theorem throw (e : StreamError) : Aloof (MonadExcept.throw e : Reader α) where
  grows r := ⟨rfl, Nat.le_refl _⟩
  passes r a r' h := by cases h

theorem bind {f : α → Reader β} (hx : Aloof x) (hf : ∀ a, Aloof (f a)) : Aloof (x >>= f) where
  grows := by
    have hgives : Gives (fun (r r' : InStream) _ => r.Grows r') [] (x >>= f) fun _ => [] :=
      (gives_of_grows hx.grows [] fun _ => []).bind fun a => gives_of_grows (hf a).grows _ _
    exact grows_of_gives hgives
  passes r b r' h hr hr' table := by
    obtain ⟨a, t, hxr, hft⟩ := bind_ok h
    have hgrows := hx.grows r
    have hlater := (hf a).grows t
    rw [stateAfter_of_ok hxr] at hgrows
    have ht : t.shared = some #[] :=
      empty_between hgrows hlater hr (by rwa [stateAfter_of_ok hft])
    simp only [Bind.bind, EStateM.bind, hx.passes r a t hxr hr ht table]
    exact (hf a).passes t b r' hft ht hr' table

/-- A reader that takes the bytes that it takes wherever they stand. -/
theorem of_local (hlocal : Local x) (hstill : Still x) : Aloof x where
  grows r := by
    obtain ⟨pos, hpos⟩ := hstill r
    rw [hpos]
    exact ⟨rfl, Nat.le_refl _⟩
  passes r a r' h _ _ table := by
    obtain ⟨bytes, tail, hrest, rfl, htakes⟩ := hlocal r a r' h
    exact htakes (r.withTable table) tail rfl hrest

theorem head (hx : Head x) : Aloof x :=
  of_local (fun r a r' h => by
    obtain ⟨bytes, tail, hrest, hr', htakes, -⟩ := hx.bites r a r' h
    exact ⟨bytes, tail, hrest, hr', htakes⟩) hx.still

theorem context : Aloof Reader.context where
  grows r := ⟨rfl, Nat.le_refl _⟩
  passes r c r' h _ _ table := by
    cases h
    rfl

theorem note (event : Event) : Aloof (Reader.note event) where
  grows r := ⟨rfl, Nat.le_refl _⟩
  passes r a r' h _ _ table := by
    cases h
    rfl

/-- A look at the next byte. -/
theorem peek : Aloof Reader.peek where
  grows r := by
    obtain ⟨pos, hpos⟩ := Still.peek r
    rw [hpos]
    exact ⟨rfl, Nat.le_refl _⟩
  passes r code r' h _ _ table := by
    obtain ⟨rfl, tail, hrest⟩ := peek_ok h
    exact peek_of_rest (r := r'.withTable table) hrest

theorem ite {P : Prop} [Decidable P] {y : Reader α} (hx : Aloof x) (hy : Aloof y) :
    Aloof (if P then x else y) := by
  split
  · exact hx
  · exact hy

theorem nilOr {x : Reader Value} (hx : Aloof x) : Aloof (Reader.nilOr x) :=
  peek.bind fun _ => ite ((head .nil).bind fun _ => pure _) (hx.bind fun _ => pure _)

/-- An object is read into a new place, and a reference leads nowhere in an empty table. -/
theorem sharedBehind (tag : TypeTag) (target : Ty) {read : Ty → Reader Value}
    (h : ∀ t, Aloof (read t)) : Aloof (Reader.sharedBehind tag target read) where
  grows := grows_of_gives <| Gives.sharedBehind gathers_grows
    (fun t => gives_of_grows (h t).grows _ _) tag target
  passes r object r' hread hr hr' := by
    have htracks : r.tracks = true := by
      rw [InStream.tracks, hr]
      rfl
    have hempty {t : InStream} (ht : t.shared = some #[]) : t.slots = [] := by
      rw [InStream.slots, ht]
    obtain ⟨tracked, _, htracking, hbehind⟩ := bind_ok hread
    rw [tracking, ← InStream.tracks, htracks] at htracking
    cases htracking
    rw [if_pos rfl] at hbehind
    obtain ⟨code, t, hpeek, hseen⟩ := bind_ok hbehind
    obtain rfl : t = r := (peek_ok hpeek).1
    split at hseen
    · obtain ⟨serial, u, hserial, hfollow⟩ := bind_ok hseen
      obtain ⟨pos, hpos⟩ := (Head.unsigned .w32).still t
      rw [stateAfter_of_ok hserial] at hpos
      have hslots : u.slots = [] := by
        rw [hpos]
        exact hempty hr
      rw [follow_eq, hslots] at hfollow
      cases hfollow
    · obtain ⟨serial, u, hopen, hmade⟩ := bind_ok hseen
      obtain ⟨made, u', hmake, hfill⟩ := bind_ok hmade
      rw [openSlot_eq] at hopen
      cases hopen
      have hlength := (grows_of_gives (Gives.makeShared gathers_grows
        (fun t => gives_of_grows (h t).grows _ _) tag target) (t.opened tag)).2
      rw [stateAfter_of_ok hmake, InStream.slots_opened htracks, List.length_append] at hlength
      have hfilled := (grows_of_gives
        (Gives.fillSlot gathers_grows tag t.slots.length made) u').2
      obtain ⟨_, t', hput, hdone⟩ := bind_ok hfill
      cases hdone
      rw [stateAfter_of_ok hput, hempty hr'] at hfilled
      exact absurd (Nat.le_trans hlength hfilled) (by simp)

end Aloof

end Reader

theorem Reader.Aloof.pieces : Reader.Pieces fun x => Reader.Aloof x where
  pure := .pure
  throw := .throw
  bind := .bind
  head := .head
  context := .context
  note := .note
  nilOr := .nilOr
  sharedBehind := .sharedBehind

namespace Schema

/-- The readers that come with types and fields go the same way with every table if they open no
place. -/
def Aloof (Γ : Schema) : Prop := ∀ x, Γ.Foreign x → Reader.Aloof x

theorem Aloof.of_derived {types : List (String × Declaration)}
    {order : Ty → KeyOrder}
    (h : ∀ q ∈ types, ∃ item, q.2 = .derived item) : Aloof ⟨types, [], order⟩ :=
  fun x hx => absurd hx (not_foreign_of_derived h x)

/-- The reading of all values goes the same way with every table if it opens no place. -/
theorem Aloof.decode (hΓ : Γ.Aloof) (t : Ty) : Reader.Aloof (decode Γ t) where
  grows r := (Reader.Aloof.pieces.decodeWithin hΓ (depthBound r.cursor.remaining) t).grows r
  passes r := (Reader.Aloof.pieces.decodeWithin hΓ (depthBound r.cursor.remaining) t).passes r

end Schema

end ObjectStream
