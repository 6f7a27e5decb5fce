import Mathlib.Algebra.GroupWithZero.Nat
import ObjectStream.Proofs.Composed
import ObjectStream.Proofs.Skipping

/-!
# Counting values

Readers and writers as walks over whole values: with `m` values still to come in
front of an action, `n` of them are still to come behind it. A scalar takes one
from the number, a header takes one and adds what it announces, and what does not
touch the bytes leaves it alone. In a sequence the numbers meet in the middle, so
what a reader or a writer goes over is exactly one value if the number goes down
by one, whatever it was.
-/

namespace ObjectStream

variable {c : Context} {m n : Nat}

namespace Reader

variable {α β : Type}

/-- If the reader succeeds with `a`, it has gone over bytes on which the number of values to come
goes from `m` to `n a`, and the context is the same as before. -/
def Counts (c : Context) (m : Nat) (y : Reader α) (n : α → Nat) : Prop :=
  ∀ r a r', r.context = c → y r = .ok a r' → r'.context = c ∧
    ∃ bytes tail, r.rest = bytes ++ tail ∧ r'.cursor = r.cursor.skip bytes.length ∧
      Passes c m bytes (n a)

def Idle (y : Reader α) : Prop :=
  ∀ r a r', y r = .ok a r' → r'.context = r.context ∧ r'.cursor = r.cursor

theorem Stays.idle {y : Reader α} (h : Stays y) : Idle y := by
  intro r a r' hy
  rw [h r a r' hy]
  exact ⟨rfl, rfl⟩

namespace Counts

theorem idle {y : Reader α} (h : Idle y) : Counts c m y fun _ => m := by
  intro r a r' hc hy
  obtain ⟨hcontext, hcursor⟩ := h r a r' hy
  exact ⟨hcontext.trans hc, [], r.rest, rfl, hcursor, .refl m⟩

theorem pure (a : α) : Counts c m (Pure.pure a) fun _ => m := idle (Stays.pure a).idle

/-- A result that the number depends on. -/
theorem result {a : α} {n : α → Nat} (h : n a = m) : Counts c m (Pure.pure a) n := by
  rintro r b r' hc hr
  cases hr
  rw [h]
  exact ⟨hc, [], r.rest, rfl, rfl, .refl m⟩

theorem throw (e : StreamError) {n : α → Nat} :
    Counts c m (MonadExcept.throw e : Reader α) n := by
  intro r a r' _ hy
  cases hy

/-- Nothing comes behind a failure. -/
theorem raise (e : StreamError) {f : α → Reader β} {n : β → Nat} :
    Counts c m ((MonadExcept.throw e : Reader α) >>= f) n := by
  intro r b r' _ hy
  cases hy

theorem bind {y : Reader α} {f : α → Reader β} {k : α → Nat} {n : β → Nat}
    (hy : Counts c m y k) (hf : ∀ a, Counts c (k a) (f a) n) : Counts c m (y >>= f) n := by
  intro r b r' hc h
  obtain ⟨a, t, hyr, hft⟩ := bind_ok h
  obtain ⟨htc, p, tail, hp, htcursor, hpasses⟩ := hy r a t hc hyr
  obtain ⟨hrc, q, tail', hq, hrcursor, hpasses'⟩ := hf a t b r' htc hft
  have htrest : t.rest = tail := by
    rw [InStream.rest, htcursor]
    exact InStream.rest_skip_append hp
  rw [htrest] at hq
  refine ⟨hrc, p ++ q, tail', ?_, ?_, hpasses.trans hpasses'⟩
  · rw [hp, hq, List.append_assoc]
  · rw [hrcursor, htcursor, List.length_append]
    simp only [ByteCursor.skip, Nat.add_assoc]

theorem map {y : Reader α} {n : Nat} (f : α → β) (h : Counts c m y fun _ => n) :
    Counts c m (f <$> y) fun _ => n := by
  rw [map_eq_pure_bind]
  exact h.bind fun a => pure (f a)

theorem ite {P : Prop} [Decidable P] {x y : Reader α} {n : α → Nat}
    (hx : P → Counts c m x n) (hy : ¬ P → Counts c m y n) :
    Counts c m (if P then x else y) n := by
  by_cases hp : P
  · rw [if_pos hp]
    exact hx hp
  · rw [if_neg hp]
    exact hy hp

/-- What depends on the context depends on a known one. -/
theorem context {f : Context → Reader α} {n : α → Nat} (h : Counts c m (f c) n) :
    Counts c m (Reader.context >>= f) n := by
  intro r a r' hc hy
  have hf : f r.context r = .ok a r' := hy
  rw [hc] at hf
  exact h r a r' hc hf

/-- A header or a scalar takes one from the number and adds what it announces. -/
theorem agrees {y : Reader α} {nested : α → Nat} (h : Agrees y nested) :
    Counts c (m + 1) y fun a => m + nested a := by
  intro r a r' hc hy
  obtain ⟨bytes, tail, hrest, rfl, htakes, -⟩ := Bites.stepOver r _ r' (h r a r' hy)
  rw [hc] at htakes
  exact ⟨hc, bytes, tail, hrest, rfl, .one htakes⟩

/-- What goes over one value by skipping it. -/
theorem skipped {y : Reader α}
    (h : ∀ r a r', r.context = c → y r = .ok a r' → r'.context = c ∧
      Reader.skip r = .ok () { r with cursor := r'.cursor }) :
    Counts c (m + 1) y fun _ => m := by
  intro r a r' hc hy
  obtain ⟨hcontext, hskip⟩ := h r a r' hc hy
  obtain ⟨bytes, tail, hrest, hcursor, hpasses⟩ := skip_ok hskip
  rw [hc] at hpasses
  refine ⟨hcontext, bytes, tail, hrest, congrArg InStream.cursor hcursor, ?_⟩
  have hframe := hpasses.add m
  rwa [Nat.add_comm, Nat.zero_add] at hframe

/-- One thing after the other. -/
theorem each {read : α → Reader β} {count : α → Nat} {as : List α}
    (h : ∀ a ∈ as, ∀ m, Counts c (m + count a) (read a) fun _ => m) :
    Counts c (m + (as.map count).sum) (Reader.each read as) fun _ => m := by
  induction as with
  | nil => exact pure []
  | cons a as ih =>
      rw [List.forall_mem_cons] at h
      rw [List.map_cons, List.sum_cons, Nat.add_comm (count a), ← Nat.add_assoc]
      exact (h.1 _).bind fun b => (ih h.2).bind fun bs => pure (b :: bs)

/-- What was read is all there is to read if the number goes from one to none. -/
theorem skip {y : Reader α} (h : Counts c 1 y fun _ => 0) {r r' : InStream} {a : α}
    (hc : r.context = c) (hy : y r = .ok a r') :
    Reader.skip r = .ok () { r with cursor := r'.cursor } := by
  obtain ⟨-, bytes, tail, hrest, hcursor, hpasses⟩ := h r a r' hc hy
  rw [Takes.skip_iff.2 hpasses r tail hc hrest, hcursor]
  rfl

/-! ### Pointers -/

theorem pointerTag :
    Counts c (m + 1) Reader.pointerTag fun tag? => if tag?.isSome then m + 1 else m := by
  have hheader := agrees (c := c) (m := m) (Agrees.arrayHeaderOf 2)
  have htag := agrees (c := c) (m := m + 1) (Agrees.unsigned .w32)
  have hnil := agrees (c := c) (m := m) Agrees.nil
  refine hheader.bind fun _ => htag.bind fun tag => ite (fun _ => ?_) fun _ => ?_
  · exact hnil.bind fun _ => result rfl
  · exact result rfl

end Counts

namespace Idle

theorem note (event : Event) : Idle (Reader.note event) := by
  rintro r a r' h
  cases h
  exact ⟨rfl, rfl⟩

theorem follow (tag : TypeTag) (serial : Nat) (target : Ty) :
    Idle (Reader.follow tag serial target) := by
  intro r object r' h
  rcases Reader.follow_cases tag serial target r with ⟨_, _, _, hres⟩ | ⟨_, e, t, hres, _⟩
  · rw [hres] at h
    cases h
    exact ⟨rfl, rfl⟩
  · rw [hres] at h
    cases h

theorem openSlot (tag : TypeTag) : Idle (Reader.openSlot tag) := by
  intro r serial r' h
  rw [Reader.openSlot] at h
  split at h
  all_goals
    cases h
    exact ⟨rfl, rfl⟩

end Idle

namespace Counts

variable {tag : TypeTag} {target : Ty} {read : Ty → Reader Value}

/-- The object of a tag takes one value if the types that the tag can stand for do. -/
theorem build (h : ∀ upcast, c.registry.upcast? tag target = some upcast →
      Counts c (m + 1) (read upcast.source) fun _ => m) :
    Counts c (m + 1) (Reader.build c.registry tag target read) fun _ => m := by
  rw [Reader.build]
  cases hup : c.registry.upcast? tag target with
  | none => exact throw _
  | some upcast =>
      exact (idle (Idle.note _)).bind fun _ => (h upcast hup).bind fun v => pure _

theorem makeShared (h : ∀ upcast, c.registry.upcast? tag target = some upcast →
      Counts c (m + 1) (read upcast.source) fun _ => m) :
    Counts c (m + 1) (Reader.makeShared tag target read) fun _ => m := by
  have hnew (type : Ty) (body : Value) : Idle (Reader.newObject target type body) := by
    intro r object r' hr
    cases hr
    exact ⟨rfl, rfl⟩
  exact context ((build h).bind fun found => idle (hnew found.1 found.2))

/-- A reference is one value, and so is an object. -/
theorem sharedBehind (h : ∀ upcast, c.registry.upcast? tag target = some upcast →
      Counts c (m + 1) (read upcast.source) fun _ => m) :
    Counts c (m + 1) (Reader.sharedBehind tag target read) fun _ => m := by
  have htracking : Stays Reader.tracking := by
    intro r a r' hr
    cases hr
    rfl
  have hpeek : Stays Reader.peek := fun r code r' hr => (peek_ok hr).1
  have hserial := agrees (c := c) (m := m) (Agrees.unsigned .w32)
  have hfill (serial : Nat) (object : Shared) : Idle (Reader.fillSlot tag serial object) := by
    intro r a r' hr
    rcases fillSlot_cases tag serial object r with ⟨-, hfill⟩ | ⟨slot, -, hfill⟩ | ⟨-, -, hfill⟩
    all_goals
      rw [hfill] at hr
      cases hr
    · exact ⟨rfl, rfl⟩
    · exact ⟨rfl, rfl⟩
  have htracked : Counts c (m + 1) (Reader.makeTracked tag target read) fun _ => m :=
    (idle (Idle.openSlot tag)).bind fun serial => (makeShared h).bind fun object =>
      (idle (hfill serial object)).bind fun _ => pure object
  refine (idle htracking.idle).bind fun _ => ite (fun _ => ?_) fun _ => makeShared h
  refine (idle hpeek.idle).bind fun code => ite (fun _ => ?_) fun _ => htracked
  exact hserial.bind fun serial => idle (Idle.follow tag serial target)

theorem shared (h : ∀ tag upcast, c.registry.upcast? tag target = some upcast →
      ∀ m, Counts c (m + 1) (read upcast.source) fun _ => m) :
    Counts c (m + 1) (Reader.sharedValue target read) fun _ => m := by
  refine bind (pointerTag.bind fun tag? => ?_) fun object? => pure _
  cases tag? with
  | none => exact pure none
  | some tag => exact (sharedBehind fun upcast hup => h tag upcast hup m).map some

theorem unique (h : ∀ tag upcast, c.registry.upcast? tag target = some upcast →
      ∀ m, Counts c (m + 1) (read upcast.source) fun _ => m) :
    Counts c (m + 1) (Reader.uniqueValue target read) fun _ => m := by
  refine bind (pointerTag.bind fun tag? => ?_) fun object? => pure _
  cases tag? with
  | none => exact pure none
  | some tag => exact context ((build fun upcast hup => h tag upcast hup m).map some)

end Counts

end Reader

/-! ## Forms -/

namespace Passes

theorem agrees {α : Type} {y : Reader α} {nested : α → Nat} {bytes : List UInt8} {a : α}
    (hy : Reader.Agrees y nested) (h : Reader.Takes c y bytes a) :
    Passes c (m + 1) bytes (m + nested a) :=
  one fun r tail hc hrest => hy r a _ (h r tail hc hrest)

/-- A number of any value behind the code of an integer of its width. -/
theorem coded {code : UInt8} {kind : NumberKind} {value : Int}
    (hfamily : Format.family code = .uint ∨ Format.family code = .int)
    (hwidth : kind.width = 2 ^ (code.toNat % 4)) :
    Passes c (m + 1) (Form.coded code kind value c.byteOrder) m := by
  suffices hstep : Reader.Takes c Reader.stepOver (Form.coded code kind value c.byteOrder) 0 from
    one hstep
  intro r tail _ hrest
  have hlen : (Form.number kind value c.byteOrder).length = kind.width :=
    Form.length_number kind value c.byteOrder
  have hbehind : (r.skip 1).rest = Form.number kind value c.byteOrder ++ tail := by
    rw [InStream.rest_skip, hrest]
    rfl
  have hnumber := Reader.number_of_rest hbehind hlen
  rw [InStream.skip_skip, ← hlen] at hnumber
  rw [Form.length_coded, ← hlen]
  exact Reader.Agrees.integer hrest hnumber hfamily hwidth

theorem code {code : UInt8} (hfamily : Format.family code = .positiveFixint ∨
      Format.family code = .negativeFixint ∨ Format.family code = .nil ∨
      Format.family code = .bool) :
    Passes c (m + 1) [code] m := by
  have hstep : Reader.Takes c Reader.stepOver [code] 0 :=
    fun _ _ _ hrest => Reader.Agrees.code_alone hrest hfamily
  exact one hstep

theorem uint (n : Nat) : Passes c (m + 1) (Form.uint n c.byteOrder) m := by
  unfold Form.uint
  split
  · next h =>
      have hfamily : ∀ k < 128, Format.family (UInt8.ofNat k) = .positiveFixint := by decide
      exact code (.inl (hfamily n h))
  · repeat' split
    all_goals exact coded (.inl rfl) rfl

theorem int (value : Int) : Passes c (m + 1) (Form.int value c.byteOrder) m := by
  unfold Form.int
  split
  · exact uint _
  · next hneg =>
      split
      · next hlow =>
          have hfamily : ∀ k < 256, 224 ≤ k →
              Format.family (UInt8.ofNat k) = .negativeFixint := by decide +kernel
          rw [Form.number_fixint hlow (by omega)]
          exact code (.inr (.inl (hfamily _ (by omega) (by omega))))
      · repeat' split
        all_goals exact coded (.inr rfl) rfl

theorem array (hn : n < 2 ^ 32) : Passes c (m + 1) (Form.array n c.byteOrder) (m + n) :=
  agrees .arrayHeader (.arrayHeader hn)

theorem map (hn : n < 2 ^ 32) : Passes c (m + 1) (Form.map n c.byteOrder) (m + 2 * n) :=
  agrees .mapHeader (.mapHeader hn)

theorem nil : Passes c (m + 1) (Form.nil c.byteOrder) m := code (.inr (.inr (.inl rfl)))

theorem str {text : String} (h : text.toUTF8.size < 2 ^ 32) :
    Passes c (m + 1) (Form.str text c.byteOrder) m :=
  agrees .str (.str h)

theorem blob {bytes : ByteArray} (h : bytes.size < 2 ^ 32) :
    Passes c (m + 1) (Form.blob bytes c.byteOrder) m :=
  agrees .blob (.blob h)

/-- Every scalar is one value, a borrowed text as well. -/
theorem scalar {s : Scalar} {d : Datum} (hholds : s.holds d = true) (hfits : s.Fits d) :
    Passes c (m + 1) (Form.scalar s d c.byteOrder) m := by
  by_cases hs : s = .str
  · subst hs
    cases d <;> simp only [Scalar.holds, Bool.false_eq_true] at hholds
    exact str hfits
  · exact agrees (.scalar s) (.scalar hs hholds hfits)

end Passes

namespace Writer

variable {α β : Type}

/-- If the writer succeeds, it has appended bytes on which the number of values to come goes from
`m` to `n`, and the context is the same as before. -/
def Counts (c : Context) (m : Nat) (x : Writer α) (n : Nat) : Prop :=
  ∀ s a s', s.context = c → x s = .ok a s' → s'.context = c ∧
    ∃ bytes, s'.sink = s.sink.append (packed bytes) ∧ Passes c m bytes n

namespace Counts

theorem still {x : Writer α} (h : ∀ s a s', x s = .ok a s' → s' = s) : Counts c m x m := by
  intro s a s' hc hx
  rw [h s a s' hx]
  exact ⟨hc, [], s.sink.append_nil.symm, .refl m⟩

theorem throw (e : StreamError) : Counts c m (MonadExcept.throw e : Writer α) n := by
  intro s a s' _ hx
  cases hx

theorem bind {x : Writer α} {f : α → Writer β} {l : Nat} (hx : Counts c l x m)
    (hf : ∀ a, Counts c m (f a) n) : Counts c l (x >>= f) n := by
  intro s b s' hc h
  obtain ⟨a, t, hxs, hft⟩ := bind_ok h
  obtain ⟨htc, p, hp, hpasses⟩ := hx s a t hc hxs
  obtain ⟨hsc, q, hq, hpasses'⟩ := hf a t b s' htc hft
  refine ⟨hsc, p ++ q, ?_, hpasses.trans hpasses'⟩
  rw [hq, hp, ByteSink.append_packed]

theorem context {f : Context → Writer α} (h : Counts c m (f c) n) :
    Counts c m (Writer.context >>= f) n := by
  intro s a s' hc hx
  have hf : f s.context s = .ok a s' := hx
  rw [hc] at hf
  exact h s a s' hc hf

theorem spell {f : Form} (h : Passes c m (f c.byteOrder) n) : Counts c m (Writer.spell f) n := by
  intro s a s' hc hx
  rw [spell_ok hx, hc]
  exact ⟨hc, f c.byteOrder, rfl, h⟩

theorem arrayHeader (k : Nat) : Counts c (m + 1) (Writer.arrayHeader k) (m + k) := by
  intro s a s' hc hx
  obtain ⟨hk, hspell⟩ := arrayHeader_ok hx
  exact spell (.array hk) s a s' hc hspell

theorem mapHeader (k : Nat) : Counts c (m + 1) (Writer.mapHeader k) (m + 2 * k) := by
  intro s a s' hc hx
  obtain ⟨hk, hspell⟩ := mapHeader_ok hx
  exact spell (.map hk) s a s' hc hspell

theorem str (text : String) : Counts c (m + 1) (Writer.str text) m := by
  intro s a s' hc hx
  obtain ⟨hsize, hspell⟩ := str_ok hx
  exact spell (.str hsize) s a s' hc hspell

theorem blob (bytes : ByteArray) : Counts c (m + 1) (Writer.blob bytes) m := by
  intro s a s' hc hx
  obtain ⟨hsize, hspell⟩ := blob_ok hx
  exact spell (.blob hsize) s a s' hc hspell

theorem uint (value : Nat) : Counts c (m + 1) (Writer.uint value) m := by
  rw [uint_eq]
  exact spell (.uint value)

theorem int (value : Int) : Counts c (m + 1) (Writer.int value) m := by
  rw [int_eq]
  exact spell (.int value)

theorem scalar (t : Scalar) (d : Datum) : Counts c (m + 1) (Writer.scalar t d) m := by
  intro s a s' hc hx
  obtain ⟨hholds, hfits, hspell⟩ := scalar_ok hx
  exact spell (.scalar hholds hfits) s a s' hc hspell

theorem errorCode (code : ErrorCode) : Counts c (m + 1) (Writer.errorCode code) m := by
  refine context ?_
  split
  · exact throw _
  · exact (arrayHeader 2).bind fun _ => (uint _).bind fun _ => int _

theorem absent (t : Ty) : Counts c (m + 1) (encodeAbsent t) m := by
  rw [encodeAbsent]
  split
  · rw [nullPointer_eq]
    have hpair : Passes c (m + 1) (Form.array 2 c.byteOrder) (m + 2) := .array (by decide)
    exact spell ((hpair.trans (.uint nullTag)).trans .nil)
  · exact spell .nil

/-! ### Pointers -/

variable {id : Identity} {type : Ty} {tag : TypeTag} {body : Writer Unit}

theorem taggedBody (h : Counts c (m + 1) body m) :
    Counts c (m + 1) (Writer.taggedBody tag body) m :=
  (arrayHeader 2).bind fun _ => (uint tag).bind fun _ => h

theorem reference (serial : Nat) : Counts c (m + 1) (Writer.reference tag serial) m := by
  have hpair : Passes c (m + 1) (Form.array 2 c.byteOrder) (m + 2) := .array (by decide)
  exact (spell hpair).bind fun _ => (spell (.uint tag)).bind fun _ => spell (.uint serial)

theorem firstBody (h : Counts c (m + 1) body m) :
    Counts c (m + 1) (Writer.firstBody type tag body) m := by
  have hpair : Passes c (m + 1) (Form.array 2 c.byteOrder) (m + 2) := .array (by decide)
  have hposition : Counts c (m + 1) Writer.position (m + 1) := still fun s a s' hs => by
    cases hs
    rfl
  have hcheck (start : Nat) : Counts c m (Writer.checkBody type start) m := by
    refine still fun s a s' hs => ?_
    rcases checkBody_cases type start s with hok | ⟨e, herror⟩
    · rw [hok] at hs
      cases hs
      rfl
    · rw [herror] at hs
      cases hs
  exact (spell hpair).bind fun _ => (spell (.uint tag)).bind fun _ =>
    hposition.bind fun start => h.bind fun _ => hcheck start

/-- A pointer is one value if its body is, be it written or referred to. -/
theorem shared (h : ∀ tag, c.registry.requireTag type = .ok tag → Counts c (m + 1) body m) :
    Counts c (m + 1) (Writer.shared id type body) m := by
  intro s a s' hc hx
  rw [shared_run, hc] at hx
  cases htag : c.registry.requireTag type with
  | error e =>
      rw [htag] at hx
      cases hx
  | ok tag =>
      simp only [htag] at hx
      cases hshared : s.shared with
      | none =>
          simp only [hshared] at hx
          exact taggedBody (h tag htag) s a s' hc hx
      | some table =>
          simp only [hshared] at hx
          cases hfind : table.find? id with
          | some found =>
              simp only [hfind] at hx
              exact reference _ (s.noted _) a s' hc hx
          | none =>
              simp only [hfind] at hx
              exact firstBody (h tag htag) (s.enter table id tag) a s' hc hx

theorem unique (h : ∀ tag, c.registry.requireTag type = .ok tag → Counts c (m + 1) body m) :
    Counts c (m + 1) (Writer.unique type body) m := by
  intro s a s' hc hx
  obtain ⟨tag, t, htag, hbody⟩ := bind_ok hx
  rw [requireTag, hc] at htag
  cases hfound : c.registry.requireTag type with
  | error e =>
      rw [hfound] at htag
      cases htag
  | ok found =>
      rw [hfound] at htag
      cases htag
      exact taggedBody (h tag hfound) s a s' hc hbody

end Counts

end Writer

end ObjectStream
