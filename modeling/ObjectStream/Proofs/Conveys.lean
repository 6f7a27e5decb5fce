import ObjectStream.Proofs.Scalar
import ObjectStream.Reader.Pointer
import ObjectStream.Writer.Pointer

/-!
# What plain writers convey

A writer conveys a value to a reader if all it does is to append some bytes, and
the reader takes these bytes for the value. Headers, scalars and error codes do.
None of their forms starts with the code of nil, which is why an option can tell
an absent value by its first byte.
-/

namespace ObjectStream

namespace OutStream

def append (s : OutStream) (bytes : List UInt8) : OutStream :=
  { s with sink := s.sink.append (packed bytes) }

end OutStream

/-- A sequence of actions succeeds if its first does and then the rest. -/
theorem bind_ok {ε σ α β : Type} {x : EStateM ε σ α} {f : α → EStateM ε σ β} {s s' : σ} {b : β}
    (h : (x >>= f) s = .ok b s') : ∃ a t, x s = .ok a t ∧ f a t = .ok b s' := by
  simp only [bind, EStateM.bind] at h
  cases hx : x s with
  | ok a t =>
      rw [hx] at h
      exact ⟨a, t, rfl, h⟩
  | error e t =>
      rw [hx] at h
      cases h

theorem Writer.spell_ok {f : Form} {s s' : OutStream} (h : Writer.spell f s = .ok () s') :
    s' = s.append (f s.context.byteOrder) := by
  unfold Writer.spell Writer.raw at h
  split at h
  · cases h
  · cases h
    rfl

@[simp] theorem OutStream.append_nil (s : OutStream) : s.append [] = s := by
  rw [append, ByteSink.append_nil]

theorem OutStream.append_append (s : OutStream) (a b : List UInt8) :
    (s.append a).append b = s.append (a ++ b) := by
  simp only [append, ByteSink.append_packed]

theorem Writer.pointer_ok {tag : TypeTag} {s s' : OutStream}
    (h : (do Writer.arrayHeader 2; Writer.uint tag : Writer Unit) s = .ok () s') :
    s' = s.append (Form.pointer tag s.context.byteOrder) := by
  obtain ⟨_, t, harray, huint⟩ := bind_ok h
  rw [Writer.uint_eq] at huint
  have ht := Writer.spell_ok (Writer.arrayHeader_ok harray).2
  rw [Writer.spell_ok huint, ht, OutStream.append_append]
  rfl

/-- The bytes start with a code that meets a condition. -/
def StartsWith (p : UInt8 → Prop) (bytes : List UInt8) : Prop :=
  ∃ code tail, bytes = code :: tail ∧ p code

theorem StartsWith.append {p : UInt8 → Prop} {a : List UInt8} (h : StartsWith p a)
    (b : List UInt8) : StartsWith p (a ++ b) := by
  obtain ⟨code, tail, rfl, hcode⟩ := h
  exact ⟨code, tail ++ b, rfl, hcode⟩

theorem StartsWith.ne_nil {p : UInt8 → Prop} {a : List UInt8} (h : StartsWith p a) : a ≠ [] := by
  obtain ⟨code, tail, rfl, _⟩ := h
  exact List.cons_ne_nil code tail

/-- The bytes start with the code of something other than nil. -/
abbrev StartsValue (bytes : List UInt8) : Prop := StartsWith (· ≠ Format.nil) bytes

/-! ## First codes of forms -/

namespace Form

variable {order : ByteOrder}

theorem startsValue_coded {code : UInt8} (h : code ≠ Format.nil) (kind : NumberKind)
    (value : Int) : StartsValue (coded code kind value order) :=
  ⟨code, number kind value order, rfl, h⟩

theorem startsValue_wide (n : Nat) {code16 code32 : UInt8} (h16 : code16 ≠ Format.nil)
    (h32 : code32 ≠ Format.nil) : StartsValue (wide n code16 code32 order) := by
  unfold wide
  split
  · exact startsValue_coded h16 _ _
  · exact startsValue_coded h32 _ _

theorem startsValue_sized (n : Nat) {code8 code16 code32 : UInt8} (h8 : code8 ≠ Format.nil)
    (h16 : code16 ≠ Format.nil) (h32 : code32 ≠ Format.nil) :
    StartsValue (sized n code8 code16 code32 order) := by
  unfold sized
  split
  · exact startsValue_coded h8 _ _
  · exact startsValue_wide n h16 h32

theorem startsValue_array (n : Nat) : StartsValue (array n order) := by
  unfold array
  split
  · next h =>
      have hcode : ∀ m < 16, Writer.shortCode Format.fixarray m ≠ Format.nil := by decide
      exact ⟨_, [], rfl, hcode n (by omega)⟩
  · exact startsValue_wide n (by decide) (by decide)

theorem startsValue_map (n : Nat) : StartsValue (map n order) := by
  unfold map
  split
  · next h =>
      have hcode : ∀ m < 16, Writer.shortCode Format.fixmap m ≠ Format.nil := by decide
      exact ⟨_, [], rfl, hcode n (by omega)⟩
  · exact startsValue_wide n (by decide) (by decide)

theorem startsValue_str (text : String) : StartsValue (str text order) := by
  refine StartsWith.append ?_ _
  unfold strHeader
  split
  · next h =>
      have hcode : ∀ m < 32, Writer.shortCode Format.fixstr m ≠ Format.nil := by decide
      exact ⟨_, [], rfl, hcode _ (by omega)⟩
  · exact startsValue_sized _ (by decide) (by decide) (by decide)

theorem startsValue_blob (bytes : ByteArray) : StartsValue (blob bytes order) := by
  refine StartsWith.append ?_ _
  exact startsValue_sized _ (by decide) (by decide) (by decide)

theorem startsValue_ext (subtype : Int) (payload : ByteArray) :
    StartsValue (ext subtype payload order) := by
  refine StartsWith.append (StartsWith.append ?_ _) _
  unfold extLength
  cases hfix : Format.fixext? payload.size with
  | some code =>
      refine ⟨code, [], rfl, ?_⟩
      unfold Format.fixext? at hfix
      split at hfix <;> cases hfix <;> decide
  | none => exact startsValue_sized _ (by decide) (by decide) (by decide)

theorem startsValue_uint (n : Nat) : StartsValue (uint n order) := by
  unfold uint
  split
  · next h =>
      have hcode : ∀ m < 128, UInt8.ofNat m ≠ Format.nil := by decide
      exact ⟨_, [], rfl, hcode n h⟩
  · repeat' split
    all_goals exact startsValue_coded (by decide) _ _

/-- An integer starts with the code of one. -/
theorem startsInteger_uint (n : Nat) :
    StartsWith (fun code => (Format.family code).isInteger = true) (uint n order) := by
  unfold uint
  split
  · next h =>
      have hcode : ∀ m < 128, (Format.family (UInt8.ofNat m)).isInteger = true := by
        decide +kernel
      exact ⟨_, [], rfl, hcode n h⟩
  · repeat' split
    all_goals exact ⟨_, _, rfl, by decide⟩

theorem startsValue_pointer (tag : TypeTag) : StartsValue (pointer tag order) :=
  (startsValue_array 2).append _

theorem startsValue_reference (tag : TypeTag) (serial : Nat) :
    StartsValue (reference tag serial order) :=
  (startsValue_pointer tag).append _

theorem startsValue_int (value : Int) : StartsValue (int value order) := by
  unfold int
  split
  · exact startsValue_uint _
  · next hneg =>
      split
      · next hlow =>
          have hcode : ∀ m < 256, 224 ≤ m → UInt8.ofNat m ≠ Format.nil := by decide +kernel
          rw [number_fixint hlow (by omega)]
          exact ⟨_, [], rfl, hcode _ (by omega) (by omega)⟩
      · repeat' split
        all_goals exact startsValue_coded (by decide) _ _

theorem startsValue_scalar (s : Scalar) (d : Datum) : StartsValue (scalar s d order) := by
  unfold scalar
  split
  · exact startsValue_int _
  · exact startsValue_int _
  · exact startsValue_int _
  · exact startsValue_uint _
  · next b => cases b <;> exact ⟨_, [], rfl, by decide⟩
  · exact startsValue_coded (by decide) _ _
  · exact startsValue_coded (by decide) _ _
  · exact startsValue_str _
  · exact startsValue_ext _ _
  · exact startsValue_blob _

end Form

theorem Reader.Takes.pointerTag {c : Context} {tag : TypeTag} (hnull : tag ≠ nullTag)
    (htag : tag < 2 ^ 32) :
    Takes c Reader.pointerTag (Form.pointer tag c.byteOrder) (some tag) := by
  have hnumber := (unsigned (c := c) (IntWidth.holdsUnsigned_of_lt htag)).bind
    (f := fun tag => if tag = nullTag then do
        Reader.nil
        Pure.pure none
      else Pure.pure (some tag)) (q := []) (b := some tag) (by
        rw [if_neg hnull]
        exact Takes.pure (some tag))
  rw [List.append_nil] at hnumber
  exact (arrayHeaderOf (by decide)).bind hnumber

/-! ## Conveying -/

/-- All the writer does is to append bytes, which meet a condition, and which the reader takes for
a value. -/
def Conveys {α : Type} (c : Context) (x : Writer Unit) (lead : List UInt8 → Prop) (y : Reader α)
    (a : α) : Prop :=
  ∀ s s', s.context = c → x s = .ok () s' →
    ∃ bytes, s' = s.append bytes ∧ lead bytes ∧ Reader.Takes c y bytes a

namespace Conveys

variable {α : Type} {c : Context}

theorem spell {f : Form} {lead : List UInt8 → Prop} {y : Reader α} {a : α}
    (hlead : lead (f c.byteOrder)) (hread : Reader.Takes c y (f c.byteOrder) a) :
    Conveys c (Writer.spell f) lead y a := by
  intro s s' hc h
  have hs' := Writer.spell_ok h
  rw [hc] at hs'
  exact ⟨_, hs', hlead, hread⟩

theorem arrayHeader (n : Nat) :
    Conveys c (Writer.arrayHeader n) StartsValue Reader.arrayHeader n := by
  intro s s' hc h
  obtain ⟨hn, h⟩ := Writer.arrayHeader_ok h
  exact spell (Form.startsValue_array n) (Reader.Takes.arrayHeader hn) s s' hc h

theorem arrayHeaderOf (n : Nat) :
    Conveys c (Writer.arrayHeader n) StartsValue (Reader.arrayHeaderOf n) () := by
  intro s s' hc h
  obtain ⟨hn, h⟩ := Writer.arrayHeader_ok h
  exact spell (Form.startsValue_array n) (Reader.Takes.arrayHeaderOf hn) s s' hc h

theorem mapHeader (n : Nat) :
    Conveys c (Writer.mapHeader n) StartsValue Reader.mapHeader n := by
  intro s s' hc h
  obtain ⟨hn, h⟩ := Writer.mapHeader_ok h
  exact spell (Form.startsValue_map n) (Reader.Takes.mapHeader hn) s s' hc h

theorem str (text : String) : Conveys c (Writer.str text) StartsValue Reader.str text := by
  intro s s' hc h
  obtain ⟨hlen, h⟩ := Writer.str_ok h
  exact spell (Form.startsValue_str text) (Reader.Takes.str hlen) s s' hc h

theorem nil : Conveys c Writer.nil (· ≠ []) Reader.nil () :=
  spell (List.cons_ne_nil _ _) Reader.Takes.nil

theorem unsigned {width : IntWidth} {n : Nat} (h : width.holdsUnsigned n = true) :
    Conveys c (Writer.uint n) StartsValue (Reader.unsigned width) n := by
  rw [Writer.uint_eq]
  exact spell (Form.startsValue_uint n) (Reader.Takes.unsigned h)

theorem signed {width : IntWidth} {value : Int} (h : width.holdsSigned value = true) :
    Conveys c (Writer.int value) StartsValue (Reader.signed width) value := by
  rw [Writer.int_eq]
  exact spell (Form.startsValue_int value) (Reader.Takes.signed h)

theorem scalar {s : Scalar} (hs : s.Readable) (d : Datum) :
    Conveys c (Writer.scalar s d) StartsValue (Reader.scalar s) d := by
  intro st st' hc h
  obtain ⟨hholds, hfits, h⟩ := Writer.scalar_ok h
  exact spell (Form.startsValue_scalar s d) (Reader.Takes.scalar hs hholds hfits) st st' hc h

/-- No bytes, for a value that is known anyway. -/
theorem nothing (a : α) : Conveys c (pure ()) (· = []) (pure a) a := by
  intro s s' _ h
  cases h
  exact ⟨[], s.append_nil.symm, rfl, Reader.Takes.pure a⟩

/-- One writer behind another. -/
theorem seq {β : Type} {x₁ x₂ : Writer Unit} {lead₁ lead₂ lead : List UInt8 → Prop} {y : Reader α}
    {g : α → Reader β} {a : α} {b : β} (h₁ : Conveys c x₁ lead₁ y a)
    (h₂ : Conveys c x₂ lead₂ (g a) b) (hlead : ∀ p q, lead₁ p → lead₂ q → lead (p ++ q)) :
    Conveys c (do x₁; x₂) lead (y >>= g) b := by
  intro s s' hc h
  obtain ⟨_, t, hx₁, hx₂⟩ := bind_ok h
  obtain ⟨p, rfl, hp, htakes₁⟩ := h₁ s t hc hx₁
  obtain ⟨q, rfl, hq, htakes₂⟩ := h₂ (s.append p) s' hc hx₂
  exact ⟨p ++ q, s.append_append p q, hlead p q hp hq, htakes₁.bind htakes₂⟩

/-- An action behind that leaves the stream alone. -/
theorem settle {β : Type} {x : Writer Unit} {lead : List UInt8 → Prop} {y : Reader α}
    {g : α → Reader β} {a : α} {b : β} (h : Conveys c x lead y a)
    (hg : ∀ r, r.context = c → g a r = .ok b r) : Conveys c x lead (y >>= g) b := by
  intro s s' hs hx
  obtain ⟨bytes, rfl, hlead, htakes⟩ := h s s' hs hx
  refine ⟨bytes, rfl, hlead, fun r tail hr hrest => ?_⟩
  simp only [bind, EStateM.bind, htakes r tail hr hrest]
  exact hg _ hr

/-- The start of a pointer. -/
theorem pointerTag {tag : TypeTag} (hnull : tag ≠ nullTag) (htag : tag < 2 ^ 32) :
    Conveys c (do Writer.arrayHeader 2; Writer.uint tag) StartsValue Reader.pointerTag
      (some tag) := by
  intro s s' hc h
  have hs' := Writer.pointer_ok h
  rw [hc] at hs'
  exact ⟨_, hs', Form.startsValue_pointer tag, Reader.Takes.pointerTag hnull htag⟩

/-- The null pointer. -/
theorem nullPointer : Conveys c Writer.nullPointer StartsValue Reader.pointerTag none := by
  have hnil : Conveys c Writer.nil (fun _ => True) (Reader.nil >>= fun _ => pure none)
      (none : Option TypeTag) := by
    refine spell (f := Form.nil) trivial ?_
    have := (Reader.Takes.nil (c := c)).bind (f := fun _ => pure none)
      (Reader.Takes.pure (none : Option TypeTag))
    rwa [List.append_nil] at this
  have hwidth : IntWidth.w32.holdsUnsigned nullTag = true := by decide
  have htag : Conveys c (do Writer.uint nullTag; Writer.nil) (fun _ => True)
      (Reader.unsigned .w32 >>= fun tag =>
        if tag = nullTag then do
          Reader.nil
          pure none
        else pure (some tag)) none :=
    (unsigned hwidth).seq (g := fun tag => if tag = nullTag then do
        Reader.nil
        pure none
      else pure (some tag)) hnil fun _ _ _ _ => trivial
  have hpair : Conveys c _ StartsValue _ none :=
    (arrayHeaderOf 2).seq (g := fun _ => Reader.unsigned .w32 >>= fun tag =>
      if tag = nullTag then do
        Reader.nil
        pure none
      else pure (some tag)) htag fun p q hp _ => hp.append q
  intro s s' hc h
  obtain ⟨_, t, hroom, hpieces⟩ := bind_ok h
  have ht : t = s := by
    unfold Writer.ensureRoom at hroom
    split at hroom
    · cases hroom
    · cases hroom
      rfl
  subst ht
  exact hpair t s' hc hpieces

end Conveys

/-- An error code that is written has a category with a place. -/
theorem Writer.errorCode_ok {code : ErrorCode} {s s' : OutStream}
    (h : Writer.errorCode code s = .ok () s') :
    ∃ place, s.context.categories.placeOf? code.category.name = some place ∧
      s' = s.append (Form.errorCode place code.value s.context.byteOrder) := by
  obtain ⟨_, _, hcontext, h⟩ := bind_ok h
  cases hcontext
  cases hplace : s.context.categories.placeOf? code.category.name with
  | none =>
      rw [hplace] at h
      cases h
  | some place =>
      rw [hplace] at h
      obtain ⟨_, s₁, harray, h⟩ := bind_ok h
      obtain ⟨_, s₂, huint, h⟩ := bind_ok h
      rw [uint_eq] at huint
      rw [int_eq] at h
      have hs₁ := spell_ok (arrayHeader_ok harray).2
      have hs₂ := spell_ok huint
      refine ⟨place, rfl, ?_⟩
      rw [spell_ok h, hs₂, hs₁, OutStream.append_append, OutStream.append_append]
      rfl

/-- An error code is conveyed as one that is the same. -/
theorem Conveys.errorCode {c : Context} {code : ErrorCode} (hplaces : c.categories.size ≤ 2 ^ 32)
    (hvalue : IntWidth.w32.holdsSigned code.value = true) :
    ∃ code', code.same code' = true ∧
      Conveys c (Writer.errorCode code) StartsValue Reader.errorCode code' := by
  cases hplace : c.categories.placeOf? code.category.name with
  | none =>
      refine ⟨code, (ErrorCode.same_iff _ _).2 ⟨rfl, rfl⟩, fun s s' hc h => ?_⟩
      obtain ⟨place, hsome, -⟩ := Writer.errorCode_ok h
      rw [hc, hplace] at hsome
      cases hsome
  | some place =>
      have hfirst := CategoryIndex.before?_of_placeOf? hplaces hplace
      have hlt := CategoryIndex.before?_lt hfirst
      obtain ⟨code', hsame, hread⟩ := Reader.Takes.errorCode hfirst (by omega) hvalue
      refine ⟨code', hsame, fun s s' hc h => ?_⟩
      subst hc
      obtain ⟨place', hsome, hs'⟩ := Writer.errorCode_ok h
      obtain rfl := Option.some.inj (hplace.symm.trans hsome)
      exact ⟨_, hs', StartsWith.append (Form.startsValue_array 2) _, hread⟩

end ObjectStream
