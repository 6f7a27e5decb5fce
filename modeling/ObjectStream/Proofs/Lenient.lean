import ObjectStream.Proofs.Answers
import ObjectStream.Proofs.Atoms
import ObjectStream.Proofs.Depth
import ObjectStream.Proofs.OneValue

/-!
# Reading whatever the spelling

A value is read from every spelling of its atoms, whatever follows. The readers of
headers and scalars go by what is spelled, the two decisions that are made by a
first byte are the same for all forms of an atom, and the rest of the reading does
not look at the bytes. The bound on the depth is one for the number of bytes, which
may be smaller in another spelling; but there is an atom for every level of
nesting, and the bound is large enough for the number of atoms.
-/

namespace ObjectStream

theorem ByteCursor.skip_skip (c : ByteCursor) (m n : Nat) : (c.skip m).skip n = c.skip (m + n) := by
  simp only [skip, Nat.add_assoc]

namespace InStream

def withCursor (r : InStream) (cursor : ByteCursor) : InStream := { r with cursor }

@[simp] theorem context_withCursor (r : InStream) (cursor : ByteCursor) :
    (r.withCursor cursor).context = r.context := rfl

@[simp] theorem skip_withCursor (r : InStream) (cursor : ByteCursor) (n : Nat) :
    (r.withCursor cursor).skip n = r.withCursor (cursor.skip n) := rfl

theorem rest_withCursor_skip {r t : InStream} {cursor : ByteCursor} {p tail : List UInt8}
    (h : (r.withCursor cursor).rest = p ++ tail) :
    (t.withCursor (cursor.skip p.length)).rest = tail :=
  rest_skip_append (r := r.withCursor cursor) h

end InStream

namespace Reader

variable {α β : Type} {n : Nat}

/-- On streams of `n` atoms the first reader takes some of the atoms where it succeeds, and the
second one takes every other spelling of these for the same, whatever follows. -/
def Respells (n : Nat) (x y : Reader α) : Prop :=
  ∀ (r : InStream) (a : α) (r' : InStream) (atoms : List Atom), atoms.length = n →
    Spells r.context.byteOrder atoms r.rest → x r = .ok a r' →
    r'.context = r.context ∧ ∃ taken left, atoms = taken ++ left ∧
      Spells r.context.byteOrder left r'.rest ∧
      ∀ (cursor : ByteCursor) (p q suffix : List UInt8), Spells r.context.byteOrder taken p →
        Spells r.context.byteOrder left q →
        (r.withCursor cursor).rest = p ++ (q ++ suffix) →
        y (r.withCursor cursor) = .ok a (r'.withCursor (cursor.skip p.length))

def Lenient (x : Reader α) : Prop := ∀ n, Respells n x x

/-- The reader neither moves the cursor nor looks at the bytes. -/
def Blind (x : Reader α) : Prop :=
  ∀ r a r', x r = .ok a r' → r'.context = r.context ∧ r'.cursor = r.cursor ∧
    ∀ cursor, x (r.withCursor cursor) = .ok a (r'.withCursor cursor)

namespace Blind

theorem pure (a : α) : Blind (Pure.pure a) := by
  rintro r b r' h
  cases h
  exact ⟨rfl, rfl, fun _ => rfl⟩

theorem throw (e : StreamError) : Blind (MonadExcept.throw e : Reader α) := by
  intro r a r' h
  cases h

theorem bind {x : Reader α} {f : α → Reader β} (hx : Blind x) (hf : ∀ a, Blind (f a)) :
    Blind (x >>= f) := by
  intro r b r' h
  obtain ⟨a, t, hxr, hft⟩ := bind_ok h
  obtain ⟨htc, htcursor, ht⟩ := hx r a t hxr
  obtain ⟨hrc, hrcursor, hr⟩ := hf a t b r' hft
  refine ⟨hrc.trans htc, hrcursor.trans htcursor, fun cursor => ?_⟩
  simp only [Bind.bind, EStateM.bind, ht cursor]
  exact hr cursor

theorem context : Blind Reader.context := by
  rintro r c r' h
  cases h
  exact ⟨rfl, rfl, fun _ => rfl⟩

theorem note (event : Event) : Blind (Reader.note event) := by
  rintro r a r' h
  cases h
  exact ⟨rfl, rfl, fun _ => rfl⟩

theorem tracking : Blind Reader.tracking := by
  rintro r b r' h
  cases h
  exact ⟨rfl, rfl, fun _ => rfl⟩

theorem openSlot (tag : TypeTag) : Blind (Reader.openSlot tag) := by
  rintro ⟨context, _, shared, _, _⟩ serial r' h
  cases shared with
  | none =>
      cases h
      exact ⟨rfl, rfl, fun _ => rfl⟩
  | some table =>
      cases h
      exact ⟨rfl, rfl, fun _ => rfl⟩

theorem newObject (target type : Ty) (body : Value) :
    Blind (Reader.newObject target type body) := by
  rintro r object r' h
  cases h
  exact ⟨rfl, rfl, fun _ => rfl⟩

theorem fillSlot (tag : TypeTag) (serial : Nat) (object : Shared) :
    Blind (Reader.fillSlot tag serial object) := by
  intro r a r' h
  rcases fillSlot_cases tag serial object r with
    ⟨htracks, hfill⟩ | ⟨slot, hslot, hfill⟩ | ⟨-, -, hfill⟩
  all_goals
    rw [hfill] at h
    cases h
  · exact ⟨rfl, rfl, fun cursor =>
      fillSlot_of_not_tracks (r := r.withCursor cursor) tag object htracks⟩
  · exact ⟨rfl, rfl, fun cursor => fillSlot_of_place (r := r.withCursor cursor) tag object hslot⟩

theorem follow (tag : TypeTag) (serial : Nat) (target : Ty) :
    Blind (Reader.follow tag serial target) := by
  have hslot : Blind (Reader.slot? serial) := by
    rintro r slot? r' h
    cases h
    exact ⟨rfl, rfl, fun _ => rfl⟩
  refine hslot.bind fun slot? => ?_
  cases slot? with
  | none => exact throw _
  | some slot =>
      dsimp only
      split
      · cases slot.object with
        | none => exact throw _
        | some object =>
            refine (note _).bind fun _ => ?_
            split
            · exact pure _
            · exact throw _
      · exact throw _

end Blind

namespace Respells

theorem throw (e : StreamError) (y : Reader α) :
    Respells n (MonadExcept.throw e : Reader α) y := by
  intro r a r' _ _ _ h
  cases h

theorem blind {x : Reader α} (hx : Blind x) : Respells n x x := by
  intro r a r' atoms _ hspells h
  obtain ⟨hc, hcursor, hblind⟩ := hx r a r' h
  refine ⟨hc, [], atoms, rfl, ?_, fun cursor p q suffix hp _ _ => ?_⟩
  · rwa [InStream.rest, hcursor]
  · cases hp
    exact hblind cursor

theorem pure (a : α) : Respells n (Pure.pure a) (Pure.pure a) := blind (.pure a)

/-- What the second reader does under a lower bound, it does under a higher one. -/
theorem trans_extends {x y z : Reader α} (h : Respells n x y) (hyz : Extends y z) :
    Respells n x z := by
  intro r a r' atoms hn hspells hr
  obtain ⟨hc, taken, left, hatoms, hleft, hother⟩ := h r a r' atoms hn hspells hr
  exact ⟨hc, taken, left, hatoms, hleft, fun cursor p q suffix hp hq hrest =>
    hyz _ _ _ (hother cursor p q suffix hp hq hrest)⟩

theorem bind {x y : Reader α} {f g : α → Reader β} (hx : Respells n x y)
    (hf : ∀ a m, m ≤ n → Respells m (f a) (g a)) : Respells n (x >>= f) (y >>= g) := by
  intro r b r' atoms hn hspells h
  obtain ⟨a, t, hxr, hft⟩ := bind_ok h
  obtain ⟨htc, taken, left, rfl, hleft, hother⟩ := hx r a t atoms hn hspells hxr
  rw [List.length_append] at hn
  rw [← htc] at hleft
  obtain ⟨hrc, taken', left', rfl, hleft', hother'⟩ :=
    hf a left.length (by omega) t b r' left rfl hleft hft
  rw [htc] at hleft' hother'
  refine ⟨hrc.trans htc, taken ++ taken', left', (List.append_assoc _ _ _).symm, hleft', ?_⟩
  intro cursor p q suffix hp hq hrest
  obtain ⟨p₁, p₂, rfl, hp₁, hp₂⟩ := hp.split
  rw [List.append_assoc] at hrest
  have hfirst := hother cursor p₁ (p₂ ++ q) suffix hp₁ (hp₂.append hq) (by
    rw [hrest, List.append_assoc])
  have hsecond := hother' (cursor.skip p₁.length) p₂ q suffix hp₂ hq
    (InStream.rest_withCursor_skip hrest)
  simp only [Bind.bind, EStateM.bind, hfirst, hsecond, List.length_append, ByteCursor.skip_skip]

/-- A header or a scalar in front takes an atom. -/
theorem behind {x : Reader α} {f g : α → Reader β} (hx : Head x)
    (hf : ∀ a m, m < n → Respells m (f a) (g a)) : Respells n (x >>= f) (x >>= g) := by
  intro r b r' atoms hn hspells h
  obtain ⟨a, t, hxr, hft⟩ := bind_ok h
  obtain ⟨bytes, tail, hbytes, -, -, hne⟩ := hx.bites r a t hxr
  generalize hall : r.rest = all at hspells
  cases hspells with
  | nil =>
      rw [hall] at hbytes
      exact absurd (List.append_eq_nil_iff.1 hbytes.symm).1 hne
  | @cons atom form left rest hform hleft =>
      have htakes := hx.answers r a t atom form rest hform hall hxr
      have ht := htakes form hform r rest rfl hall
      rw [hxr] at ht
      cases ht
      rw [← InStream.rest_skip_append hall] at hleft
      rw [List.length_cons] at hn
      obtain ⟨hrc, taken, left, rfl, hleft', hother⟩ :=
        hf a left.length (by omega) _ b r' left rfl hleft hft
      refine ⟨hrc, atom :: taken, left, rfl, hleft', fun cursor p q suffix hp hq hrest => ?_⟩
      cases hp with
      | @cons _ form' _ p hform' hp =>
          rw [List.append_assoc] at hrest
          have hfirst := htakes form' hform' (r.withCursor cursor) _ rfl hrest
          have hsecond := hother (cursor.skip (form' r.context.byteOrder).length) p q suffix hp hq
            (InStream.rest_withCursor_skip hrest)
          simp only [Bind.bind, EStateM.bind, hfirst]
          refine hsecond.trans ?_
          rw [List.length_append, ByteCursor.skip_skip]

theorem head {x : Reader α} (hx : Head x) : Respells n x x := by
  have h := behind (n := n) (f := fun a => Pure.pure a) hx fun a m _ => pure a
  rwa [bind_pure] at h

/-- A decision by the first byte that is the same for all forms of an atom. -/
theorem look {P : UInt8 → Prop} [DecidablePred P] {x y x' y' : Reader α}
    (hP : ∀ (atom : Atom) code code', atom.Opens (Format.family code) →
      atom.Opens (Format.family code') → P code → P code')
    (h : Respells n x x') (h' : Respells n y y') :
    Respells n (Reader.peek >>= fun code => if P code then x else y)
      (Reader.peek >>= fun code => if P code then x' else y') := by
  intro r a r' atoms hn hspells hr
  obtain ⟨code, t, hpeek, hft⟩ := bind_ok hr
  obtain ⟨rfl, tail, hcode⟩ := peek_ok hpeek
  -- Another spelling of the same atoms starts with a code of the same atom.
  have hpeek' {bytes : List UInt8} (hbytes : Spells t.context.byteOrder atoms bytes)
      {cursor : ByteCursor} {suffix : List UInt8}
      (hrest : (t.withCursor cursor).rest = bytes ++ suffix) :
      ∃ code', Reader.peek (t.withCursor cursor) = .ok code' (t.withCursor cursor) ∧
        (P code ↔ P code') := by
    generalize hall : t.rest = all at hspells
    rw [hall] at hcode
    cases hspells with
    | nil => cases hcode
    | @cons atom form left rest hform hleft =>
        cases hbytes with
        | @cons _ form' _ rest' hform' _ =>
            obtain ⟨_, _, hhead, hopens⟩ := hform.opens t.context.byteOrder
            obtain ⟨code', _, hhead', hopens'⟩ := hform'.opens t.context.byteOrder
            rw [hhead, List.cons_append, List.cons.injEq] at hcode
            obtain ⟨rfl, -⟩ := hcode
            rw [hhead'] at hrest
            exact ⟨code', peek_of_rest hrest, hP atom _ _ hopens hopens',
              hP atom _ _ hopens' hopens⟩
  by_cases hcase : P code
  · rw [if_pos hcase] at hft
    obtain ⟨hrc, taken, left, rfl, hleft, hother⟩ := h t a r' atoms hn hspells hft
    refine ⟨hrc, taken, left, rfl, hleft, fun cursor p q suffix hp hq hrest => ?_⟩
    obtain ⟨code', hcode', hsame⟩ :=
      hpeek' (hp.append hq) (hrest.trans (List.append_assoc _ _ _).symm)
    simp only [Bind.bind, EStateM.bind, hcode', if_pos (hsame.1 hcase)]
    exact hother cursor p q suffix hp hq hrest
  · rw [if_neg hcase] at hft
    obtain ⟨hrc, taken, left, rfl, hleft, hother⟩ := h' t a r' atoms hn hspells hft
    refine ⟨hrc, taken, left, rfl, hleft, fun cursor p q suffix hp hq hrest => ?_⟩
    obtain ⟨code', hcode', hsame⟩ :=
      hpeek' (hp.append hq) (hrest.trans (List.append_assoc _ _ _).symm)
    simp only [Bind.bind, EStateM.bind, hcode', if_neg (hcase ∘ hsame.2)]
    exact hother cursor p q suffix hp hq hrest

/-- The code of nil is the only one of its family. -/
theorem eq_nil_of_family {code : UInt8} (h : Format.family code = .nil) : code = Format.nil := by
  unfold Format.family at h
  repeat' split at h
  all_goals first
    | rfl
    | cases h

/-- An absent value can be told by its first byte in every spelling. -/
theorem nilOr {x y : Reader Value} (h : Respells n x y) :
    Respells n (Reader.nilOr x) (Reader.nilOr y) := by
  refine look (fun atom code code' hopens hopens' hnil => ?_)
    (behind .nil fun _ _ _ => pure _) (h.bind fun v _ _ => pure _)
  subst hnil
  cases atom with
  | nil => exact eq_nil_of_family hopens'
  | _ => cases hopens

/-! ### Pointers -/

variable {value value' : Ty → Reader Value}

theorem build (h : ∀ t m, m ≤ n → Respells m (value t) (value' t)) (registry : Registry)
    (tag : TypeTag) (target : Ty) : Respells n (Reader.build registry tag target value)
      (Reader.build registry tag target value') := by
  unfold Reader.build
  split
  · exact throw _ _
  · refine (blind (.note _)).bind fun _ m hm => (h _ m hm).bind fun v _ _ => pure _

theorem makeShared (h : ∀ t m, m ≤ n → Respells m (value t) (value' t)) (tag : TypeTag)
    (target : Ty) : Respells n (Reader.makeShared tag target value)
      (Reader.makeShared tag target value') := by
  refine (blind .context).bind fun c m hm => ?_
  have h' (t : Ty) (l : Nat) (hl : l ≤ m) := h t l (Nat.le_trans hl hm)
  refine (build h' c.registry tag target).bind fun found _ _ => ?_
  exact blind (.newObject target found.1 found.2)

theorem makeTracked (h : ∀ t m, m ≤ n → Respells m (value t) (value' t)) (tag : TypeTag)
    (target : Ty) : Respells n (Reader.makeTracked tag target value)
      (Reader.makeTracked tag target value') := by
  refine (blind (.openSlot tag)).bind fun serial m hm => ?_
  have h' (t : Ty) (l : Nat) (hl : l ≤ m) := h t l (Nat.le_trans hl hm)
  refine (makeShared h' tag target).bind fun object _ _ => ?_
  exact (blind (.fillSlot tag serial object)).bind fun _ _ _ => pure _

theorem opens_integer (atom : Atom) (code code' : UInt8)
    (h : atom.Opens (Format.family code)) (h' : atom.Opens (Format.family code'))
    (hcode : (Format.family code).isInteger = true) :
    (Format.family code').isInteger = true := by
  obtain ⟨z, rfl⟩ := Answers.int_of_opens h hcode
  exact h'

/-- A reference can be told from an object by its first byte in every spelling. -/
theorem sharedBehind (h : ∀ t m, m ≤ n → Respells m (value t) (value' t)) (tag : TypeTag)
    (target : Ty) : Respells n (Reader.sharedBehind tag target value)
      (Reader.sharedBehind tag target value') := by
  refine (blind .tracking).bind fun tracked m hm => ?_
  have h' (t : Ty) (l : Nat) (hl : l ≤ m) := h t l (Nat.le_trans hl hm)
  cases tracked with
  | false => exact makeShared h' tag target
  | true =>
      refine look (P := fun code => (Format.family code).isInteger = true) opens_integer ?_
        (makeTracked h' tag target)
      exact behind (.unsigned .w32) fun serial _ _ => blind (.follow tag serial target)

end Respells

/-- What is put together from pieces takes every spelling if the readers of the values inside do,
on fewer atoms or, in front, on as many. -/
theorem Shape.respells {foreign : Reader Value → Prop} (hforeign : ∀ x, foreign x → Lenient x)
    {front : Ty → Prop} {X : (Ty → Reader Value) → Reader α} (hX : Shape foreign front X)
    {value value' : Ty → Reader Value}
    (h : ∀ m t, m < n ∨ m = n ∧ front t → Respells m (value t) (value' t)) :
    Respells n (X value) (X value') := by
  induction hX generalizing n with
  | pure a => exact .pure a
  | throw e => exact .throw e _
  | bind _ _ ihX ihF =>
      refine (ihX h).bind fun a m hm => ihF a fun l t hl => h l t ?_
      rcases hl with hl | ⟨rfl, ht⟩
      · exact .inl (by omega)
      · exact (Nat.lt_or_eq_of_le hm).imp id fun hn => ⟨hn, ht⟩
  | head hx => exact .head hx
  | behind hx _ ih => exact .behind hx fun a m hm => ih a fun l t hl => h l t (.inl (by omega))
  | context => exact .blind .context
  | note event => exact .blind (.note event)
  | foreign hx => exact hforeign _ hx n
  | value ht => exact h n _ (.inr ⟨rfl, ht⟩)
  | nilOr _ ih => exact .nilOr (ih h)
  | sharedBehind tag target =>
      refine .sharedBehind (fun t m hm => h m t ?_) tag target
      exact (Nat.lt_or_eq_of_le hm).imp id fun hn => ⟨hn, trivial⟩

end Reader

namespace Schema

/-- The readers that come with types and fields take every spelling of what they take. -/
def Lenient (Γ : Schema) : Prop := ∀ x, Γ.Foreign x → Reader.Lenient x

variable {Γ : Schema}

/-- What is read under any bound at all is read from every spelling under a bound for its number of
atoms. -/
theorem Lenient.decodeWithin (hΓ : Γ.Lenient) (n depth : Nat) (t : Ty) :
    Reader.Respells n (ObjectStream.decodeWithin Γ depth t)
      (ObjectStream.decodeWithin Γ (2 * n + 2) t) := by
  induction n using Nat.strongRecOn generalizing depth t with
  | ind n ih =>
      have hstep (depth : Nat) (t : Ty) (bound : Nat) (hbound : 2 * n ≤ bound)
          (hfront : ∀ u, t.Fronts u → ∀ depth, Reader.Respells n
            (ObjectStream.decodeWithin Γ depth u) (ObjectStream.decodeWithin Γ bound u)) :
          Reader.Respells n (ObjectStream.decodeWithin Γ depth t)
            (ObjectStream.decodeWithin Γ (bound + 1) t) := by
        cases depth with
        | zero => exact .throw _ _
        | succ depth =>
            refine (Reader.Shape.decodeStep t).respells hΓ fun m u hm => ?_
            rcases hm with hm | ⟨rfl, hu⟩
            · exact (ih m hm depth u).trans_extends (extends_decodeWithin Γ (by omega) u)
            · exact hfront u hu depth
      refine hstep depth t (2 * n + 1) (by omega) fun u hu depth => ?_
      refine hstep depth u (2 * n) (Nat.le_refl _) fun w hw => ?_
      -- The content of an option that stands without a header is no option again.
      obtain ⟨rfl, -⟩ := hw
      cases hu.2

/-- Raw bytes under their own rule are read in every spelling. -/
theorem lenient_blob : Reader.Lenient Codec.blob.read := fun _ =>
  (Reader.Respells.head .blob).bind fun _ _ _ => .pure _

/-- Codecs that take every spelling are enough. -/
theorem Lenient.of_codecs (htypes : ∀ t codec, Γ.codec? t = some codec → Reader.Lenient codec.read)
    (hrules : ∀ path codec, Γ.rule? path = some codec → Reader.Lenient codec.read) :
    Γ.Lenient := by
  intro x hx
  cases hx with
  | type hcodec => exact htypes _ _ hcodec
  | rule hrule => exact hrules _ _ hrule

variable {c : Context} {t : Ty}

/-- What is read from some bytes that it takes up is read from every spelling of their atoms. -/
theorem Lenient.decode (hΓ : Γ.Lenient) {r r' : InStream} {w : Value} {atoms : List Atom}
    (hspells : Spells r.context.byteOrder atoms r.rest)
    (hdecode : ObjectStream.decode Γ t r = .ok w r') (hrest' : r'.rest = [])
    {cursor : ByteCursor} {b suffix : List UInt8} (hb : Spells r.context.byteOrder atoms b)
    (hrest : (r.withCursor cursor).rest = b ++ suffix) :
    ObjectStream.decode Γ t (r.withCursor cursor) =
      .ok w (r'.withCursor (cursor.skip b.length)) := by
  obtain ⟨-, taken, left, rfl, hleft, hother⟩ :=
    hΓ.decodeWithin atoms.length _ t r w r' atoms rfl hspells hdecode
  rw [hrest'] at hleft
  obtain rfl := hleft.eq_nil
  rw [List.append_nil] at hb hother
  have hread := hother cursor b [] suffix hb .nil hrest
  refine extends_decodeWithin Γ ?_ t _ _ _ hread
  have hlength := congrArg List.length hrest
  rw [InStream.length_rest, List.length_append] at hlength
  have hatoms := hb.length_le
  rw [depthBound]
  change _ ≤ 2 * ((r.withCursor cursor).cursor.remaining + 1)
  omega

end Schema

/-- What a writer of a type has appended spells a sequence of atoms, and a value that is read from
these bytes is read in the same way from every other spelling of the atoms, whatever follows, up to
what follows. -/
theorem Schema.Lenient.reads_respelled {Γ : Schema} {c : Context} {t : Ty} (hΓ : Γ.Lenient)
    (ht : Γ.OneValued c (.whole t)) {v : Value} {s s' : OutStream} (hs : s.context = c)
    (hencode : encode Γ t v s = .ok () s') :
    ∃ atoms a, s'.sink = s.sink.append (packed a) ∧ Spells c.byteOrder atoms a ∧
      ∀ (r r' : InStream) (w : Value), r.context = c → r.rest = a →
        ObjectStream.decode Γ t r = .ok w r' →
        ∀ (b suffix : List UInt8) (cursor : ByteCursor), Respelled c.byteOrder a b →
          (r.withCursor cursor).rest = b ++ suffix →
          ∃ r₁, ObjectStream.decode Γ t (r.withCursor cursor) = .ok w r₁ ∧
            r₁ = r'.withCursor (cursor.skip b.length) ∧ r₁.rest = suffix := by
  have hcounts := counts_writePart v 0 ht trivial 0
  rw [Nat.zero_add] at hcounts
  obtain ⟨-, a, hsink, hpasses⟩ := hcounts s () s' hs hencode
  obtain ⟨atoms, hatoms⟩ := hpasses.exists_spells
  refine ⟨atoms, a, hsink, hatoms, fun r r' w hr hrest hdecode b suffix cursor hb hrest₁ => ?_⟩
  subst hr
  -- The bytes are one value for the writer and for the reader, so nothing of them is left.
  obtain ⟨-, a', tail, hall, hcursor, hpasses'⟩ := counts_decode ht r w r' rfl hdecode
  have hskip := Reader.Takes.skip_iff.2 hpasses r [] rfl (by rw [hrest, List.append_nil])
  have hskip' := Reader.Takes.skip_iff.2 hpasses' r tail rfl hall
  rw [hskip] at hskip'
  have hlength : a.length = a'.length := by
    have hpos := congrArg (fun t => t.cursor.pos) (EStateM.Result.ok.inj hskip').2
    simpa only [InStream.skip, ByteCursor.skip, Nat.add_left_cancel_iff] using hpos
  have hrest' : r'.rest = [] := by
    rw [InStream.rest, hcursor, ← hlength]
    have hall' : r.rest = a ++ [] := by rw [hrest, List.append_nil]
    exact InStream.rest_skip_append hall'
  obtain ⟨atoms', ha, hb⟩ := hb
  have hread := hΓ.decode (hrest.symm ▸ ha) hdecode hrest' hb hrest₁
  exact ⟨_, hread, rfl, InStream.rest_withCursor_skip hrest₁⟩

/-! ## Parcels in wide spellings -/

namespace Sample

def parcelPair : Ty := .tuple [.shared parcel, .shared parcel]

def twins : Value := .list [.shared 1 parcel lastParcel, .shared 1 parcel lastParcel]

/-- The atoms of such a pair, each in its shortest form and in a wider one. The second pointer is a
reference to the first. -/
def twinForms : List (Atom × Form × Form) := [
  (.array 2, .plain [0x92], .coded Format.array32 .u32 2),
  (.array 2, .plain [0x92], .coded Format.array16 .u16 2),
  (.int 7, .plain [7], .coded Format.int32 .i32 7),
  (.array 4, .plain [0x94], .coded Format.array16 .u16 4),
  (.int 2, .plain [2], .coded Format.uint8 .u8 2),
  (.int 0, .plain [0], .coded Format.int8 .i8 0),
  (.blob (packed [0xca, 0xfe]), .coded Format.bin8 .u8 2 ++ .plain [0xca, 0xfe],
    .coded Format.bin16 .u16 2 ++ .plain [0xca, 0xfe]),
  (.array 2, .plain [0x92], .coded Format.array16 .u16 2),
  (.int 0, .plain [0], .coded Format.uint16 .u16 0),
  (.nil, .nil, .nil),
  (.array 2, .plain [0x92], .coded Format.array32 .u32 2),
  (.int 7, .plain [7], .coded Format.uint64 .u64 7),
  (.int 0, .plain [0], .coded Format.int64 .i64 0)]

def plainTwins : List UInt8 := twinForms.flatMap fun q => q.2.1 .bigEndian

def wideTwins : List UInt8 := twinForms.flatMap fun q => q.2.2 .bigEndian

theorem spelled_twinForms : ∀ q ∈ twinForms, q.1.Spelled q.2.1 ∧ q.1.Spelled q.2.2 := by
  have hfixint (n : Nat) (h : n < 2 ^ 7) : (Atom.int n).Spelled (.plain [UInt8.ofNat n]) :=
    .fixint h
  simp only [twinForms, List.forall_mem_cons, List.not_mem_nil, false_implies, implies_true,
    and_true]
  refine ⟨⟨.array (.short rfl), .array (.field (by decide) ⟨by decide, by decide⟩)⟩,
    ⟨.array (.short rfl), .array (.field (by decide) ⟨by decide, by decide⟩)⟩,
    ⟨hfixint 7 (by decide), .int (by decide) ⟨by decide, by decide⟩⟩,
    ⟨.array (.short rfl), .array (.field (by decide) ⟨by decide, by decide⟩)⟩,
    ⟨hfixint 2 (by decide), .int (by decide) ⟨by decide, by decide⟩⟩,
    ⟨hfixint 0 (by decide), .int (by decide) ⟨by decide, by decide⟩⟩,
    ⟨.blob (.field (by decide) ⟨by decide, by decide⟩),
      .blob (.field (by decide) ⟨by decide, by decide⟩)⟩,
    ⟨.array (.short rfl), .array (.field (by decide) ⟨by decide, by decide⟩)⟩,
    ⟨hfixint 0 (by decide), .int (by decide) ⟨by decide, by decide⟩⟩, ⟨.nil, .nil⟩,
    ⟨.array (.short rfl), .array (.field (by decide) ⟨by decide, by decide⟩)⟩,
    ⟨hfixint 7 (by decide), .int (by decide) ⟨by decide, by decide⟩⟩,
    ⟨hfixint 0 (by decide), .int (by decide) ⟨by decide, by decide⟩⟩⟩

theorem respelled_twins : Respelled .bigEndian plainTwins wideTwins :=
  ⟨_, .of_forms fun q hq => (spelled_twinForms q hq).1,
    .of_forms fun q hq => (spelled_twinForms q hq).2⟩

theorem lenient_parcels : parcels.Lenient := by
  refine .of_codecs (fun t codec hcodec => ?_) fun path codec hrule => ?_
  · rw [Schema.codec?_of_derived derived_parcels] at hcodec
    cases hcodec
  · obtain rfl := Schema.eq_of_rule? (Γ := parcels) rfl hrule
    exact Schema.lenient_blob

end Sample

/-- Two pointers to a parcel are read from the wide spelling as from the bytes written, and a byte
that starts no value is left. -/
theorem reads_twins :
    ∃ s', encode Sample.parcels Sample.parcelPair Sample.twins
        (.ofSink Sample.parcelTracked .growable none) = .ok () s' ∧
      s'.sink.data = packed Sample.plainTwins ∧
      ∃ w r' r₁, decode Sample.parcels Sample.parcelPair
          (.ofBytes Sample.parcelTracked s'.sink.data 0 none) = .ok w r' ∧
        decode Sample.parcels Sample.parcelPair
          (.ofBytes Sample.parcelTracked (packed (Sample.wideTwins ++ [0xc1])) 0 none) = .ok w r₁ ∧
        r₁.rest = [0xc1] := by
  obtain ⟨_, hs⟩ := ok_of_succeeds (x := encode Sample.parcels Sample.parcelPair Sample.twins)
    (s := .ofSink Sample.parcelTracked .growable none) (by decide +kernel)
  have hdata : (stateAfter (encode Sample.parcels Sample.parcelPair Sample.twins)
      (.ofSink Sample.parcelTracked .growable none)).sink.data = packed Sample.plainTwins := by
    decide +kernel
  generalize stateAfter _ _ = s' at hs hdata
  obtain ⟨w, hr⟩ := ok_of_succeeds (x := decode Sample.parcels Sample.parcelPair)
    (s := .ofBytes Sample.parcelTracked (packed Sample.plainTwins) 0 none) (by decide +kernel)
  obtain ⟨atoms, a, hsink, -, hread⟩ := Schema.Lenient.reads_respelled Sample.lenient_parcels
    (Sample.oneValued_parcels Sample.parcelTracked (.whole Sample.parcelPair)) rfl hs
  have hbytes : packed a = packed Sample.plainTwins := by
    rw [← hdata, hsink]
    exact (ByteArray.empty_append).symm
  obtain rfl : a = Sample.plainTwins := congrArg unpacked hbytes
  obtain ⟨r₁, hr₁, -, hrest⟩ := hread
    (.ofBytes Sample.parcelTracked (packed Sample.plainTwins) 0 none) _ w rfl rfl hr
    Sample.wideTwins [0xc1] (.ofBytes (packed (Sample.wideTwins ++ [0xc1])))
    Sample.respelled_twins rfl
  exact ⟨s', hs, hdata, w, _, r₁, hdata ▸ hr, hr₁, hrest⟩

end ObjectStream
