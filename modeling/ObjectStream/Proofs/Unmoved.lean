import ObjectStream.Proofs.Standing

/-!
# Scalars that fail

A scalar that cannot be read leaves the stream as it was, so that another type can be
tried in the same place. Two checks come too late for that: a character looks at its
number, and a universal identifier at its length, when the reader that would have
gone back has returned. These are the only failures that move the cursor, and they
leave it behind the whole form.
-/

namespace ObjectStream

/-- A scalar is refused when its form has been read, and the stream stays behind it. -/
inductive Scalar.Overruns (r : InStream) : Scalar → StreamError → InStream → Prop
  | char {n : Nat} {bytes : List UInt8} : r.HoldsInteger n bytes → n < 2 ^ 32 →
      isScalarValue n = false →
      Overruns r .char (.type (.notScalarValue n)) (r.skip bytes.length)
  | uuid {payload : ByteArray} {bytes : List UInt8} : r.Holds (.ext uuidSubtype payload) bytes →
      payload.size ≠ 16 →
      Overruns r .uuid (.type (.uuidLength payload.size)) (r.skip bytes.length)

namespace Reader

variable {α β : Type} {r r' : InStream} {e : StreamError} {x : Reader α}

/-- A sequence fails in its first part or behind it. -/
theorem bind_error {g : α → Reader β} (h : (x >>= g) r = .error e r') :
    x r = .error e r' ∨ ∃ a t, x r = .ok a t ∧ g a t = .error e r' := by
  cases hx : x r with
  | error e' t =>
      rw [bind_failed hx] at h
      cases h
      exact .inl rfl
  | ok a t =>
      rw [bind_of_ok hx] at h
      exact .inr ⟨a, t, rfl, h⟩

theorem map_error_iff {f : α → β} : (f <$> x) r = .error e r' ↔ x r = .error e r' := by
  rw [map_eq_pure_bind]
  constructor
  · intro h
    rcases bind_error h with hx | ⟨a, t, -, hpure⟩
    · exact hx
    · cases hpure
  · exact bind_failed

theorem Head.extOf (subtype : Int) : Head (Reader.extOf subtype) := orRestore (check ext)

def Recovers (x : Reader α) : Prop := ∀ r e r', x r = .error e r' → r' = r

namespace Recovers

theorem throw (e : StreamError) : Recovers (MonadExcept.throw e : Reader α) := by
  intro r e' r' h
  cases h
  rfl

theorem map (f : α → β) (hx : Recovers x) : Recovers (f <$> x) :=
  fun r e r' h => hx r e r' (map_error_iff.1 h)

theorem ite {P : Prop} [Decidable P] {y : Reader α} (hx : Recovers x) (hy : Recovers y) :
    Recovers (if P then x else y) := by
  split
  · exact hx
  · exact hy

theorem orRestore (hx : Still (Reader.orRestore x)) : Recovers (Reader.orRestore x) := by
  intro r e r' h
  cases hres : x r with
  | ok a t =>
      rw [orRestore_ok.2 hres] at h
      cases h
  | error e' t =>
      rw [orRestore_failed hx hres] at h
      cases h
      rfl

theorem unsigned (width : IntWidth) : Recovers (Reader.unsigned width) :=
  orRestore (Head.unsigned width).still

theorem extOf (subtype : Int) : Recovers (Reader.extOf subtype) :=
  orRestore (Head.extOf subtype).still

theorem advance (n : Nat) : Recovers (Reader.advance n) := by
  intro r e r' h
  unfold Reader.advance at h
  split at h
  · cases h
  · cases h
    rfl

theorem peek : Recovers Reader.peek := by
  intro r e r' h
  unfold Reader.peek at h
  split at h
  · cases h
  · cases h
    rfl

/-- The byte that tells the two apart is looked at before it is taken. -/
theorem bool : Recovers Reader.bool := by
  have hflag (b : Bool) : Recovers (do Reader.advance 1; Pure.pure b) := by
    rw [← map_eq_pure_bind]
    exact (advance 1).map _
  intro r e r' h
  rcases bind_error h with hpeek | ⟨code, t, hpeek, hcode⟩
  · exact peek r e r' hpeek
  · obtain ⟨rfl, -⟩ := peek_ok hpeek
    exact ite (hflag true) (ite (hflag false) (throw _)) t e r' hcode

end Recovers

/-! ## The two late checks -/

/-- A check behind a reader that goes back is the only thing that can leave the cursor moved. -/
theorem check_error_iff (P : α → Prop) [DecidablePred P] (late : α → StreamError)
    (hx : Recovers x) (hbites : Bites x) :
    ((x >>= fun a => if P a then Pure.pure a else MonadExcept.throw (late a)) r = .error e r' ∧
      r' ≠ r) ↔ ∃ a, x r = .ok a r' ∧ ¬ P a ∧ e = late a := by
  constructor
  · rintro ⟨h, hmoved⟩
    rcases bind_error h with hfailed | ⟨a, t, ht, hcheck⟩
    · exact absurd (hx r e r' hfailed) hmoved
    · split at hcheck
      · cases hcheck
      · next hP =>
          cases hcheck
          exact ⟨a, ht, hP, rfl⟩
  · rintro ⟨a, ha, hP, rfl⟩
    constructor
    · rw [bind_of_ok ha, if_neg hP]
      rfl
    · obtain ⟨bytes, tail, -, rfl, -, hne⟩ := hbites r a r' ha
      exact fun hsame => hne (List.eq_nil_of_length_eq_zero (InStream.skip_inj hsame))

theorem char_error_iff : (char r = .error e r' ∧ r' ≠ r) ↔ Scalar.Overruns r .char e r' := by
  have hchar : (char r = .error e r' ∧ r' ≠ r) ↔ ∃ n : Nat, unsigned .w32 r = .ok n r' ∧
      ¬ isScalarValue n = true ∧ e = .type (.notScalarValue n) :=
    check_error_iff (fun n : Nat => isScalarValue n = true) (fun n => .type (.notScalarValue n))
      (.unsigned .w32) (Head.unsigned .w32).bites
  refine hchar.trans ⟨?_, ?_⟩
  · rintro ⟨n, hread, hscalar, rfl⟩
    obtain ⟨hn, bytes, hholds, rfl⟩ := unsigned_ok_iff.1 hread
    exact .char hholds hn (Bool.eq_false_iff.2 hscalar)
  · intro h
    cases h with
    | char hholds hn hscalar =>
        exact ⟨_, unsigned_ok_iff.2 ⟨hn, _, hholds, rfl⟩, Bool.eq_false_iff.1 hscalar, rfl⟩

theorem extOf_ok_iff {subtype : Int} {payload : ByteArray} :
    extOf subtype r = .ok payload r' ↔ ext r = .ok (subtype, payload) r' := by
  rw [extOf, orRestore_ok]
  constructor
  · intro h
    obtain ⟨⟨actual, content⟩, t, hext, hcheck⟩ := bind_ok h
    rcases ite_ok hcheck with ⟨rfl, hpure⟩ | hthrow
    · cases hpure
      exact hext
    · cases hthrow
  · intro h
    refine (bind_of_ok h).trans ?_
    dsimp only
    rw [if_pos rfl]
    rfl

theorem uuid_error_iff : (uuid r = .error e r' ∧ r' ≠ r) ↔ Scalar.Overruns r .uuid e r' := by
  have huuid : (uuid r = .error e r' ∧ r' ≠ r) ↔ ∃ payload, extOf uuidSubtype r = .ok payload r' ∧
      ¬ payload.size = 16 ∧ e = .type (.uuidLength payload.size) :=
    check_error_iff (fun payload : ByteArray => payload.size = 16)
      (fun payload => .type (.uuidLength payload.size))
      (.extOf uuidSubtype) (Head.extOf uuidSubtype).bites
  refine huuid.trans ⟨?_, ?_⟩
  · rintro ⟨payload, hread, hsize, rfl⟩
    obtain ⟨bytes, hholds, rfl⟩ := ext_ok_iff.1 (extOf_ok_iff.1 hread)
    exact .uuid hholds hsize
  · intro h
    cases h with
    | uuid hholds hsize =>
        exact ⟨_, extOf_ok_iff.2 (ext_ok_iff.2 ⟨_, hholds, rfl⟩), hsize, rfl⟩

/-- Every other scalar goes back. -/
theorem recovers_scalar {s : Scalar} (hchar : s ≠ .char) (huuid : s ≠ .uuid) :
    Recovers (scalar s) := by
  cases s with
  | bool => exact Recovers.bool.map _
  | unsigned width => exact (Recovers.unsigned width).map _
  | signed width => exact (Recovers.orRestore (Head.signed width).still).map _
  | char => exact absurd rfl hchar
  | float32 => exact (Recovers.orRestore Head.f32.still).map _
  | float64 => exact (Recovers.orRestore Head.f64.still).map _
  | string | smallString => exact (Recovers.orRestore Head.str.still).map _
  | str => exact Recovers.throw _
  | bytes | bytesMut => exact (Recovers.orRestore Head.blob.still).map _
  | duration | typeTag => exact (Recovers.unsigned _).map _
  | systemTime =>
      rw [scalar_systemTime]
      exact (Recovers.orRestore (Head.signed .w64).still).map _
  | dateTime => exact (Recovers.orRestore (Head.signed .w64).still).map _
  | uuid => exact absurd rfl huuid

/-- Which failures move the cursor. -/
theorem scalar_error_iff (s : Scalar) :
    (scalar s r = .error e r' ∧ r' ≠ r) ↔ s.Overruns r e r' := by
  by_cases hchar : s = .char
  · subst hchar
    rw [scalar, map_error_iff]
    exact char_error_iff
  by_cases huuid : s = .uuid
  · subst huuid
    rw [scalar, map_error_iff]
    exact uuid_error_iff
  constructor
  · rintro ⟨h, hmoved⟩
    exact absurd (recovers_scalar hchar huuid r e r' h) hmoved
  · intro h
    cases h with
    | char => exact absurd rfl hchar
    | uuid => exact absurd rfl huuid

end Reader

/-- Behind an atom the cursor is further. -/
theorem InStream.Holds.pos_lt {r : InStream} {atom : Atom} {bytes : List UInt8}
    (h : r.Holds atom bytes) : r.pos < (r.skip bytes.length).pos := by
  obtain ⟨f, tail, hf, rfl, -⟩ := h
  have hpos := List.length_pos_iff.2 (hf.opens r.context.byteOrder).ne_nil
  simp only [pos, skip, ByteCursor.skip]
  omega

/-- A scalar that fails leaves the stream as it was, but for the two checks that come too late,
which leave the cursor further on. -/
theorem Scalar.overruns_iff (Γ : Schema) (s : Scalar) (r r' : InStream) (e : StreamError) :
    (s.Overruns r e r' ↔ decode Γ (.scalar s) r = .error e r' ∧ r' ≠ r) ∧
      (s.Overruns r e r' → r.pos < r'.pos) := by
  have hdecode : decode Γ (.scalar s) = Value.scalar <$> Reader.scalar s := rfl
  constructor
  · rw [hdecode, Reader.map_error_iff]
    exact (Reader.scalar_error_iff s).symm
  · intro h
    cases h with
    | char hholds => exact InStream.Holds.pos_lt hholds
    | uuid hholds => exact hholds.pos_lt

/-- The number of a surrogate is read to its end and then refused. -/
example (Γ : Schema) :
    let r : InStream := .ofBytes .standard (packed [0xcd, 0xd8, 0x00]) 0 none
    decode Γ (.scalar .char) r = .error (.type (.notScalarValue 0xd800)) (r.skip 3) := by
  rfl

end ObjectStream
