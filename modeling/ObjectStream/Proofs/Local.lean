import ObjectStream.Proofs.Conveys
import ObjectStream.Reader.Skip

/-!
# Readers that go by the bytes alone

A reader is local if all it does when it succeeds is to take a run of bytes, and
it takes the same run wherever that stands: neither what follows nor the table
of shared objects makes a difference. Headers are local, and the step over a
header is. A run that is not empty can be told by its first byte, so a look at
that byte in front of it changes nothing.
-/

namespace ObjectStream

namespace InStream

theorem exists_rest_of_shortage {r : InStream} {n : Nat} (h : r.cursor.shortage? n = none) :
    ∃ bytes tail, r.rest = bytes ++ tail ∧ bytes.length = n := by
  have hle := (r.cursor.shortage?_eq_none_iff n).1 h
  rw [← r.length_rest] at hle
  exact ⟨r.rest.take n, r.rest.drop n, (List.take_append_drop n r.rest).symm,
    List.length_take_of_le hle⟩

end InStream

namespace Reader

variable {α β : Type}

theorem peek_ok {r r' : InStream} {code : UInt8} (h : peek r = .ok code r') :
    r' = r ∧ ∃ tail, r.rest = code :: tail := by
  cases hrest : r.rest with
  | nil =>
      have hnone : r.cursor.data[r.cursor.pos]? = none := by
        rw [InStream.rest, List.drop_eq_nil_iff, length_unpacked] at hrest
        simpa [getElem?_def] using hrest
      simp [peek, ByteCursor.peek, hnone] at h
  | cons code' tail =>
      rw [peek_of_rest hrest] at h
      cases h
      exact ⟨rfl, tail, rfl⟩

theorem byte_ok {r r' : InStream} {code : UInt8} (h : byte r = .ok code r') :
    r' = r.skip 1 ∧ ∃ tail, r.rest = code :: tail := by
  obtain ⟨code', t, hpeek, -⟩ := bind_ok h
  obtain ⟨-, tail, hrest⟩ := peek_ok hpeek
  rw [Takes.byte code' r tail rfl hrest] at h
  cases h
  exact ⟨rfl, tail, hrest⟩

theorem number_ok {kind : NumberKind} {r r' : InStream} {value : Int}
    (h : number kind r = .ok value r') :
    r' = r.skip kind.width ∧ ∃ bytes tail, r.rest = bytes ++ tail ∧
      bytes.length = kind.width ∧ value = kind.ofBytes r.context.byteOrder bytes := by
  cases hshort : r.cursor.shortage? kind.width with
  | some e =>
      simp only [number, ByteCursor.takeNumber, ByteCursor.take, hshort, Except.map] at h
      cases h
  | none =>
      obtain ⟨bytes, tail, hrest, hlen⟩ := InStream.exists_rest_of_shortage hshort
      rw [number_of_rest hrest hlen] at h
      cases h
      exact ⟨rfl, bytes, tail, hrest, hlen, rfl⟩

theorem advance_ok {n : Nat} {r r' : InStream} (h : advance n r = .ok () r') :
    ∃ bytes tail, r.rest = bytes ++ tail ∧ bytes.length = n ∧ r' = r.skip n := by
  cases hshort : r.cursor.shortage? n with
  | some e =>
      simp only [advance, ByteCursor.advance, hshort] at h
      cases h
  | none =>
      obtain ⟨bytes, tail, hrest, rfl⟩ := InStream.exists_rest_of_shortage hshort
      rw [advance_of_rest hrest] at h
      cases h
      exact ⟨bytes, tail, hrest, rfl, rfl⟩

theorem orRestore_ok {x : Reader α} {r r' : InStream} {a : α} :
    orRestore x r = .ok a r' ↔ x r = .ok a r' := by
  rw [orRestore]
  cases x r with
  | ok b t => rfl
  | error e t =>
      constructor
      · intro h
        cases h
      · intro h
        cases h

/-- All that the reader does when it succeeds is to take a run of bytes. -/
def Local (x : Reader α) : Prop :=
  ∀ r a r', x r = .ok a r' → ∃ bytes tail, r.rest = bytes ++ tail ∧ r' = r.skip bytes.length ∧
    Takes r.context x bytes a

def Bites (x : Reader α) : Prop :=
  ∀ r a r', x r = .ok a r' → ∃ bytes tail, r.rest = bytes ++ tail ∧ r' = r.skip bytes.length ∧
    Takes r.context x bytes a ∧ bytes ≠ []

namespace Local

theorem pure (a : α) : Local (Pure.pure a) := by
  rintro r b r' h
  cases h
  exact ⟨[], r.rest, rfl, rfl, .pure a⟩

theorem throw (e : StreamError) : Local (MonadExcept.throw e : Reader α) := by
  intro r a r' h
  cases h

theorem bind {x : Reader α} {f : α → Reader β} (hx : Local x) (hf : ∀ a, Local (f a)) :
    Local (x >>= f) := by
  intro r b r' h
  obtain ⟨a, t, hxr, hft⟩ := bind_ok h
  obtain ⟨p, tail, hp, rfl, htakes⟩ := hx r a t hxr
  obtain ⟨q, tail', hq, rfl, htakes'⟩ := hf a _ b r' hft
  rw [InStream.rest_skip_append hp] at hq
  refine ⟨p ++ q, tail', ?_, ?_, htakes.bind htakes'⟩
  · rw [hp, hq, List.append_assoc]
  · rw [InStream.skip_skip, List.length_append]

theorem ite {P : Prop} [Decidable P] {x y : Reader α} (hx : Local x) (hy : Local y) :
    Local (if P then x else y) := by
  split
  · exact hx
  · exact hy

theorem advance (n : Nat) : Local (Reader.advance n) := by
  intro r a r' h
  obtain ⟨bytes, tail, hrest, rfl, rfl⟩ := advance_ok h
  exact ⟨bytes, tail, hrest, rfl, fun _ _ _ hrest' => advance_of_rest hrest'⟩

theorem number (kind : NumberKind) : Local (Reader.number kind) := by
  intro r value r' h
  obtain ⟨rfl, bytes, tail, hrest, hlen, rfl⟩ := number_ok h
  refine ⟨bytes, tail, hrest, by rw [hlen], fun r₁ tail₁ hc hrest₁ => ?_⟩
  rw [number_of_rest hrest₁ hlen, hc, hlen]

theorem raw (n : Nat) : Local (Reader.raw n) := by
  intro r b r' h
  cases hshort : r.cursor.shortage? n with
  | some e =>
      simp only [Reader.raw, ByteCursor.take, hshort] at h
      cases h
  | none =>
      obtain ⟨bytes, tail, hrest, rfl⟩ := InStream.exists_rest_of_shortage hshort
      rw [raw_of_rest hrest] at h
      cases h
      exact ⟨bytes, tail, hrest, rfl, fun _ _ _ hrest' => raw_of_rest hrest'⟩

theorem length (kind : NumberKind) : Local (Reader.length kind) :=
  (number kind).bind fun _ => pure _

theorem intBody (code : UInt8) : Local (Reader.intBody code) :=
  ite (number _) (ite (number _) (ite (number _) (number _)))

theorem uintBody (code : UInt8) : Local (Reader.uintBody code) :=
  ite (length _) (ite (length _) (ite (length _) (length _)))

theorem textOf (bytes : ByteArray) : Local (Reader.textOf bytes) := by
  unfold Reader.textOf
  split
  · exact pure _
  · exact throw _

theorem refuse (expected : Expected) (code : UInt8) :
    Local (Reader.refuse expected code : Reader α) := throw _

theorem extLength (code : UInt8) : Local (Reader.extLength code) := by
  unfold Reader.extLength
  split
  · exact pure _
  · exact ite (length _) (ite (length _) (ite (length _) (refuse _ _)))

end Local

namespace Bites

theorem bind {x : Reader α} {f : α → Reader β} (hx : Bites x) (hf : ∀ a, Local (f a)) :
    Bites (x >>= f) := by
  intro r b r' h
  obtain ⟨a, t, hxr, hft⟩ := bind_ok h
  obtain ⟨p, tail, hp, rfl, htakes, hne⟩ := hx r a t hxr
  obtain ⟨q, tail', hq, rfl, htakes'⟩ := hf a _ b r' hft
  rw [InStream.rest_skip_append hp] at hq
  refine ⟨p ++ q, tail', ?_, ?_, htakes.bind htakes', List.append_ne_nil_of_left_ne_nil hne q⟩
  · rw [hp, hq, List.append_assoc]
  · rw [InStream.skip_skip, List.length_append]

theorem throw (e : StreamError) : Bites (MonadExcept.throw e : Reader α) := by
  intro r a r' h
  cases h

theorem ite {P : Prop} [Decidable P] {x y : Reader α} (hx : Bites x) (hy : Bites y) :
    Bites (if P then x else y) := by
  split
  · exact hx
  · exact hy

theorem orRestore {x : Reader α} (hx : Bites x) : Bites (Reader.orRestore x) := by
  intro r a r' h
  obtain ⟨bytes, tail, hrest, hr', htakes, hne⟩ := hx r a r' (orRestore_ok.1 h)
  exact ⟨bytes, tail, hrest, hr', htakes.orRestore, hne⟩

theorem byte : Bites Reader.byte := by
  intro r code r' h
  obtain ⟨rfl, tail, hrest⟩ := byte_ok h
  exact ⟨[code], tail, hrest, rfl, .byte code, List.cons_ne_nil _ _⟩

theorem advance {n : Nat} (hn : 0 < n) : Bites (Reader.advance n) := by
  intro r a r' h
  obtain ⟨bytes, tail, hrest, rfl, htakes⟩ := Local.advance n r a r' h
  refine ⟨bytes, tail, hrest, rfl, htakes, fun hnil => ?_⟩
  -- Over no bytes the reader would move nowhere.
  subst hnil
  have hsame := htakes r r.rest rfl rfl
  simp only [Reader.advance, ByteCursor.advance] at hsame
  cases hshort : r.cursor.shortage? n with
  | some e =>
      rw [hshort] at hsame
      cases hsame
  | none =>
      rw [hshort] at hsame
      have hpos := congrArg (fun t => t.cursor.pos) (EStateM.Result.ok.inj hsame).2
      simp only [ByteCursor.skip, InStream.skip_zero, List.length_nil] at hpos
      omega

/-- A look at the first byte of what is taken. -/
theorem peek {f : UInt8 → Reader α} (h : ∀ code, Bites (f code)) : Bites (Reader.peek >>= f) := by
  intro r a r' hr
  obtain ⟨code, t, hpeek, hft⟩ := bind_ok hr
  obtain ⟨rfl, tail, hrest⟩ := peek_ok hpeek
  obtain ⟨bytes, tail', hrest', hr', htakes, hne⟩ := h code t a r' hft
  refine ⟨bytes, tail', hrest', hr', fun r₁ tail₁ hc hrest₁ => ?_, hne⟩
  obtain ⟨code', bytes', rfl⟩ := List.exists_cons_of_ne_nil hne
  rw [hrest, List.cons_append, List.cons.injEq] at hrest'
  obtain ⟨rfl, -⟩ := hrest'
  have hpeek₁ := peek_of_rest hrest₁
  simp only [Bind.bind, EStateM.bind, hpeek₁]
  exact htakes r₁ tail₁ hc hrest₁

theorem mapHeader : Bites Reader.mapHeader :=
  orRestore (byte.bind fun _ =>
    .ite (.pure _) (.ite (.length _) (.ite (.length _) (.refuse _ _))))

theorem arrayHeader : Bites Reader.arrayHeader :=
  orRestore (byte.bind fun _ =>
    .ite (.pure _) (.ite (.length _) (.ite (.length _) (.refuse _ _))))

theorem blobHeader : Bites Reader.blobHeader :=
  orRestore (byte.bind fun _ =>
    .ite (.length _) (.ite (.length _) (.ite (.length _) (.refuse _ _))))

theorem strHeader : Bites Reader.strHeader :=
  orRestore (byte.bind fun _ =>
    .ite (.pure _) (.ite (.length _) (.ite (.length _) (.ite (.length _) (.refuse _ _)))))

theorem extHeader : Bites Reader.extHeader :=
  orRestore (byte.bind fun _ =>
    (Local.extLength _).bind fun _ => (Local.number _).bind fun _ => .pure _)

/-! ## Scalars -/

theorem nil : Bites Reader.nil := peek fun _ => ite (advance Nat.one_pos) (throw _)

theorem bool : Bites Reader.bool := by
  have hflag (b : Bool) : Bites (do Reader.advance 1; Pure.pure b) :=
    (advance Nat.one_pos).bind fun _ => .pure b
  exact peek fun _ => ite (hflag true) (ite (hflag false) (throw _))

theorem f32 : Bites Reader.f32 :=
  orRestore (byte.bind fun _ => .ite ((Local.length _).bind fun _ => .pure _) (.refuse _ _))

theorem f64 : Bites Reader.f64 :=
  orRestore (byte.bind fun _ => .ite ((Local.length _).bind fun _ => .pure _)
    (.ite ((Local.length _).bind fun _ => .pure _) (.refuse _ _)))

theorem uint : Bites Reader.uint := by
  refine orRestore (byte.bind fun code => ?_)
  split
  · exact .pure _
  · exact .uintBody code
  · exact (Local.intBody code).bind fun _ => .ite (.pure _) (.throw _)
  all_goals exact .throw _

theorem int : Bites Reader.int := by
  refine orRestore (byte.bind fun code => ?_)
  split
  · exact .pure _
  · exact .pure _
  · exact .intBody code
  · exact (Local.uintBody code).bind fun _ => .ite (.pure _) (.throw _)
  all_goals exact .throw _

theorem blob : Bites Reader.blob := orRestore (blobHeader.bind fun _ => .raw _)

theorem str : Bites Reader.str :=
  orRestore (strHeader.bind fun _ => (Local.raw _).bind fun _ => .textOf _)

theorem ext : Bites Reader.ext :=
  orRestore (extHeader.bind fun _ => (Local.raw _).bind fun _ => .pure _)

/-- The step over a header takes at least the header's code. -/
theorem stepOver : Bites Reader.stepOver := by
  refine peek fun code => ?_
  have hfixed (n : Nat) (hn : 0 < n) : Bites (do Reader.advance n; Pure.pure 0) :=
    (advance hn).bind fun _ => .pure 0
  have hover (n : Nat) : Local (do Reader.advance n; Pure.pure 0) :=
    (Local.advance n).bind fun _ => .pure 0
  split
  all_goals first
    | exact hfixed _ (by decide)
    | exact hfixed _ (Nat.add_pos_left Nat.one_pos _)
    | exact strHeader.bind fun n => hover n
    | exact blobHeader.bind fun n => hover n
    | exact extHeader.bind fun header => hover header.2
    | exact arrayHeader
    | exact mapHeader.bind fun n => .pure (2 * n)
    | exact throw _

end Bites

end Reader

end ObjectStream
