import ObjectStream.Proofs.Announced
import ObjectStream.Proofs.Discriminant

/-!
# Spans and instants as ticks

A span is written as its nanoseconds, and an instant as its nanoseconds since the
epoch, each in the shortest form. They are written if they fit 64 bits, without a sign
for a span and with one for an instant; otherwise they are refused in front of the
first byte. An instant of the clock is written by way of the span between it and the
epoch, on whichever side, and an instant of the calendar by its count, but the range
and the bytes are the same, so that each type reads what the other wrote. Every number
in range is the ticks of one span or instant, and comes back from each of its forms.
-/

namespace ObjectStream

def Time.Span.value (d : Time.Span) : Value := .scalar (.int d.total)

/-- The instant as a value, of the clock as of the calendar. -/
def Time.Instant.value (t : Time.Instant) : Value := .scalar (.int t.total)

def Scalar.IsInstant (s : Scalar) : Prop := s = .systemTime ∨ s = .dateTime

def IsTick (z : Int) : Prop := -2 ^ 63 ≤ z ∧ z < 2 ^ 63

variable {Γ : Schema} {s : Scalar} {z : Int} {r : InStream} {bytes : List UInt8}

/-! ## Writing -/

theorem encode_scalar (Γ : Schema) (s : Scalar) (d : Datum) :
    encode Γ (.scalar s) (.scalar d) = Writer.scalar s d :=
  Γ.writePart_scalar s d

/-- A number is written as its shortest form, or refused in front of the first byte. -/
def Writer.SpellsIf (p : Prop) (z : Int) (e : StreamError) (x : Writer Unit) : Prop :=
  (p → x = spell (.int z)) ∧ (¬ p → x = throw e)

namespace Writer.SpellsIf

variable {p : Prop} {e : StreamError} {x : Writer Unit}

theorem congr {q : Prop} (h : SpellsIf p z e x) (hiff : p ↔ q) : SpellsIf q z e x :=
  ⟨fun hq => h.1 (hiff.2 hq), fun hq => h.2 (mt hiff.1 hq)⟩

theorem of_ite [Decidable p] (h : x = if p then spell (.int z) else throw e) :
    SpellsIf p z e x :=
  ⟨fun hp => by rw [h, if_pos hp], fun hp => by rw [h, if_neg hp]⟩

/-- Without a limit there is no other reason to fail. -/
theorem ok_iff (h : SpellsIf p z e x) {s : OutStream} (hgrowing : s.sink.limit = none) :
    (∃ s', x s = .ok () s') ↔ p := by
  constructor
  · rintro ⟨s', hs⟩
    by_contra hp
    rw [h.2 hp] at hs
    cases hs
  · intro hp
    have hannounces : Announces x (Format.Size.int z) := h.1 hp ▸ .spell (Form.length_int z)
    obtain ⟨bytes, -, hok⟩ := hannounces.ok (s.sink.refusal?_growing hgrowing _)
    exact ⟨_, hok⟩

end Writer.SpellsIf

theorem spells_span (Γ : Schema) (d : Time.Span) :
    Writer.SpellsIf (d.total < 2 ^ 64) d.total (.invalidArgument (.timeRange .duration d.total))
      (encode Γ (.scalar .duration) d.value) := by
  have hholds : Scalar.duration.holds (.int d.total) = true :=
    decide_eq_true (Int.natCast_nonneg d.total)
  have hfits : IntWidth.w64.holdsUnsigned d.total = true ↔ d.total < 2 ^ 64 := by
    rw [IntWidth.holdsUnsigned_iff, IntWidth.bits]
    omega
  refine .congr (.of_ite ?_) hfits
  rw [Time.Span.value, encode_scalar, Writer.scalar, if_pos hholds]
  simp only [Int.toNat_natCast, Writer.uint_eq, Form.int, Int.natCast_nonneg, if_true]

theorem spells_instant (Γ : Schema) (hs : s.IsInstant) (t : Time.Instant) :
    Writer.SpellsIf (IsTick t.total) t.total (.invalidArgument (.timeRange s t.total))
      (encode Γ (.scalar s) t.value) := by
  have hfits : IntWidth.w64.holdsSigned t.total = true ↔ IsTick t.total :=
    IntWidth.holdsSigned_iff .w64 t.total
  refine .congr (.of_ite ?_) hfits
  rw [Time.Instant.value, encode_scalar, ← Writer.int_eq]
  rcases hs with rfl | rfl
  · exact Writer.clock_ofNanos t.total
  · rfl

/-! ## Reading -/

theorem decode_span (h : r.HoldsInteger z bytes) (hlow : 0 ≤ z) (hhigh : z < 2 ^ 64) :
    decode Γ (.scalar .duration) r =
      .ok (Time.Span.ofNanos z.toNat).value (r.skip bytes.length) := by
  have hread : (IntTy.unsigned .w64).read r = .ok z (r.skip bytes.length) :=
    IntTy.read_held h ⟨hlow, hhigh⟩
  have hscalar : Reader.scalar .duration = Datum.int <$> (IntTy.unsigned .w64).read := by
    rw [Reader.scalar, IntTy.read, Functor.map_map]
  rw [IntTy.decode_scalar, hscalar, Functor.map_map, Time.Span.value, Time.Span.total_ofNanos,
    Int.toNat_of_nonneg hlow]
  exact bind_of_ok hread

theorem decode_instant (hs : s.IsInstant) (h : r.HoldsInteger z bytes) (hz : IsTick z) :
    decode Γ (.scalar s) r = .ok (Time.Instant.ofNanos z).value (r.skip bytes.length) := by
  have hread : Reader.signed .w64 r = .ok z (r.skip bytes.length) :=
    IntTy.read_held (t := .signed .w64) h hz
  have hscalar : Reader.scalar s = Datum.int <$> Reader.signed .w64 := by
    rcases hs with rfl | rfl
    · exact Reader.scalar_systemTime
    · rfl
  rw [IntTy.decode_scalar, hscalar, Functor.map_map, Time.Instant.value,
    Time.Instant.total_ofNanos]
  exact bind_of_ok hread

/-- What is written for an instant stands for its ticks. -/
theorem holdsInteger_of_instant (hs : s.IsInstant) {t : Time.Instant} {o o' : OutStream}
    (h : encode Γ (.scalar s) t.value o = .ok () o') :
    IsTick t.total ∧ ∃ bytes, o' = o.append bytes ∧ ∀ (r : InStream) tail,
      r.context.byteOrder = o.context.byteOrder → r.rest = bytes ++ tail →
        r.HoldsInteger t.total bytes := by
  have hspells := spells_instant Γ hs t
  have htick : IsTick t.total := by
    by_contra hz
    rw [hspells.2 hz] at h
    cases h
  -- Whatever type wrote it, there is one form, and every reader of integers takes it.
  rw [hspells.1 htick] at h
  refine ⟨htick, _, Writer.spell_ok h, fun r tail horder hrest => ?_⟩
  have hhigh := htick.2
  exact ⟨.int t.total, tail, Form.spelled_int htick.1 (by omega), by rw [horder], hrest⟩

/-- Spans and instants stand on the wire as their ticks, one to one. -/
structure Ticking (Γ : Schema) : Prop where
  /-- Different spans are different values, and so are different instants. -/
  span_injective : Function.Injective Time.Span.value
  instant_injective : Function.Injective Time.Instant.value
  /-- A span is written in the shortest form if its ticks are an unsigned number of 64 bits. -/
  span_written : ∀ d : Time.Span, d.total < 2 ^ 64 →
    encode Γ (.scalar .duration) d.value = Writer.spell (.uint d.total) ∧
      (Atom.int d.total).Shortest (.uint d.total)
  span_refused : ∀ d : Time.Span, 2 ^ 64 ≤ d.total → ∀ o,
    encode Γ (.scalar .duration) d.value o =
      .error (.invalidArgument (.timeRange .duration d.total)) o
  span_ok_iff : ∀ (d : Time.Span) (o : OutStream), o.sink.limit = none →
    ((∃ o', encode Γ (.scalar .duration) d.value o = .ok () o') ↔ d.total < 2 ^ 64)
  /-- An instant of either type is written in the shortest form if its ticks are a signed number of
  64 bits. -/
  instant_written : ∀ s : Scalar, s.IsInstant → ∀ t : Time.Instant, IsTick t.total →
    encode Γ (.scalar s) t.value = Writer.spell (.int t.total) ∧
      (Atom.int t.total).Shortest (.int t.total)
  instant_refused : ∀ s : Scalar, s.IsInstant → ∀ t : Time.Instant, ¬ IsTick t.total → ∀ o,
    encode Γ (.scalar s) t.value o = .error (.invalidArgument (.timeRange s t.total)) o
  instant_ok_iff : ∀ s : Scalar, s.IsInstant → ∀ (t : Time.Instant) (o : OutStream),
    o.sink.limit = none →
      ((∃ o', encode Γ (.scalar s) t.value o = .ok () o') ↔ IsTick t.total)
  /-- What one type of instants wrote, the other reads as the same instant. -/
  instant_crossed : ∀ s s' : Scalar, s.IsInstant → s'.IsInstant → ∀ (t : Time.Instant) o o',
    encode Γ (.scalar s) t.value o = .ok () o' → ∃ bytes, o' = o.append bytes ∧
      ∀ (r : InStream) tail, r.context.byteOrder = o.context.byteOrder → r.rest = bytes ++ tail →
        decode Γ (.scalar s') r = .ok t.value (r.skip bytes.length)
  /-- Every form of an unsigned number of 64 bits is read as a span, which is written as that
  number. -/
  span_read : ∀ (r : InStream) z bytes, r.HoldsInteger z bytes → 0 ≤ z → z < 2 ^ 64 →
    ∃ d : Time.Span, d.total = z ∧
      decode Γ (.scalar .duration) r = .ok d.value (r.skip bytes.length) ∧
      encode Γ (.scalar .duration) d.value = Writer.spell (.int z)
  /-- Every form of a signed number of 64 bits is read as an instant, the least number too. -/
  instant_read : ∀ s : Scalar, s.IsInstant → ∀ (r : InStream) z bytes,
    r.HoldsInteger z bytes → IsTick z → ∃ t : Time.Instant, t.total = z ∧
      decode Γ (.scalar s) r = .ok t.value (r.skip bytes.length) ∧
      encode Γ (.scalar s) t.value = Writer.spell (.int z)

theorem ticking (Γ : Schema) : Ticking Γ where
  span_injective d e h := by
    injection h with hdatum
    injection hdatum with htotal
    exact Time.Span.total_inj.1 (Int.ofNat_inj.1 htotal)
  instant_injective t u h := by
    injection h with hdatum
    injection hdatum with htotal
    exact Time.Instant.total_inj.1 htotal
  span_written d hd := by
    have hform : Form.int d.total = .uint d.total := by
      rw [Form.int, if_pos (Int.natCast_nonneg _), Int.toNat_natCast]
    rw [← hform]
    exact ⟨(spells_span Γ d).1 hd, Form.shortest_int (by omega) (by omega)⟩
  span_refused d hd o := congrFun ((spells_span Γ d).2 (Nat.not_lt.2 hd)) o
  span_ok_iff d o hgrowing := (spells_span Γ d).ok_iff hgrowing
  instant_written s hs t ht := by
    have hhigh := ht.2
    exact ⟨(spells_instant Γ hs t).1 ht, Form.shortest_int ht.1 (by omega)⟩
  instant_refused s hs t ht o := congrFun ((spells_instant Γ hs t).2 ht) o
  instant_ok_iff s hs t o hgrowing := (spells_instant Γ hs t).ok_iff hgrowing
  instant_crossed s s' hs hs' t o o' h := by
    obtain ⟨htick, bytes, ho, hholds⟩ := holdsInteger_of_instant hs h
    refine ⟨bytes, ho, fun r tail horder hrest => ?_⟩
    rw [decode_instant hs' (hholds r tail horder hrest) htick]
    rw [Time.Instant.total_inj.1 (Time.Instant.total_ofNanos t.total)]
  span_read r z bytes h hlow hhigh := by
    have htotal : ((Time.Span.ofNanos z.toNat).total : Int) = z := by
      rw [Time.Span.total_ofNanos, Int.toNat_of_nonneg hlow]
    refine ⟨_, htotal, decode_span h hlow hhigh, ?_⟩
    rw [(spells_span Γ _).1 (by omega), htotal]
  instant_read s hs r z bytes h hz := by
    have htotal := Time.Instant.total_ofNanos z
    refine ⟨_, htotal, decode_instant hs h hz, ?_⟩
    rw [(spells_instant Γ hs _).1 (htotal.symm ▸ hz), htotal]

end ObjectStream
