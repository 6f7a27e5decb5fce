import ObjectStream.Proofs.Conveys
import ObjectStream.Writer.Operation

/-!
# Operations announce their size

Every operation that writes a header, a scalar or raw bytes has a size that is known
in front: that of the shortest form, and of the body behind it. The writer of a blob,
a text or an extension makes sure of room more than once, for the whole and then for
its parts, and each of these sizes is told by the widths of the code and its field.
All of them come down to one form, written in one piece, whose length is the size
announced. So such an operation takes exactly that many bytes, or refuses with that
very number and leaves the stream alone.
-/

namespace ObjectStream

namespace Writer

/-- The writer appends one form, of the same length in every byte order. -/
def Announces (x : Writer Unit) (n : Nat) : Prop :=
  ∃ f : Form, (∀ order, (f order).length = n) ∧ x = spell f

namespace Announces

variable {x : Writer Unit} {n : Nat}

theorem spell {f : Form} (h : ∀ order, (f order).length = n) : Announces (Writer.spell f) n :=
  ⟨f, h, rfl⟩

/-- A form with a length in it is appended if the length has 32 bits. -/
theorem ite {p : Prop} [Decidable p] {f : Form} {y : Writer Unit}
    (hx : x = if p then Writer.spell f else y) (hp : p) (h : ∀ order, (f order).length = n) :
    Announces x n := by
  rw [hx, if_pos hp]
  exact .spell h

theorem ok (h : x.Announces n) {s : OutStream} (hroom : s.sink.refusal? n = none) :
    ∃ bytes, bytes.length = n ∧ x s = .ok () (s.append bytes) := by
  obtain ⟨f, hf, rfl⟩ := h
  refine ⟨f s.context.byteOrder, hf _, ?_⟩
  simp only [Writer.spell, raw, size_packed, hf, hroom]
  rfl

theorem refuses (h : x.Announces n) {s : OutStream} {e : StreamError}
    (hroom : s.sink.refusal? n = some e) : x s = .error e s := by
  obtain ⟨f, hf, rfl⟩ := h
  simp only [Writer.spell, raw, size_packed, hf, hroom]

end Announces

end Writer

namespace WriteOp

/-- The size that an operation announces. Values and fields do not, and the last three operations
write nothing. -/
def announced? : WriteOp → Option Nat
  | .number kind _ => some kind.width
  | .raw bytes => some bytes.size
  | .mapHeader count => some (Format.Size.map count)
  | .arrayHeader count | .objectHeader count => some (Format.Size.array count)
  | .blobHeader length => some (Format.Size.blob length)
  | .blob bytes => some (Format.Size.blob bytes.size + bytes.size)
  | .str text => some (Format.Size.str text.toUTF8.size + text.toUTF8.size)
  | .extHeader _ length => some (Format.Size.ext length)
  | .ext _ payload => some (Format.Size.ext payload.size + payload.size)
  | .nil | .bool _ => some 1
  | .nullPointer => some 3
  | .uint n => some (Format.Size.uint n)
  | .int n => some (Format.Size.int n)
  | .f32 _ => some 5
  | .f64 _ => some 9
  | .value _ _ | .fields _ _ | .backTo _ | .clear | .handOver => none

/-- The lengths and counts of an operation are numbers of 32 bits. -/
def InRange : WriteOp → Prop
  | .mapHeader n | .arrayHeader n | .objectHeader n | .blobHeader n | .extHeader _ n => n < 2 ^ 32
  | .blob bytes | .ext _ bytes => bytes.size < 2 ^ 32
  | .str text => text.toUTF8.size < 2 ^ 32
  | _ => True

variable {Γ : Schema} {op : WriteOp} {n : Nat}

/-- The writer of an operation is one piece of the size announced. -/
theorem exists_announces (hn : op.announced? = some n) (hrange : op.InRange) :
    ∃ x : Writer Unit, x.Announces n ∧ op.run Γ = (do x; pure .done) := by
  -- The writer is one form by its equation, and the form is as long as announced by its length.
  open Writer Form in
  cases op <;> cases hn
  case number kind value => exact ⟨_, .spell (length_number kind value), rfl⟩
  case raw bytes => exact ⟨_, .spell fun _ => length_unpacked bytes, rfl⟩
  case mapHeader count => exact ⟨_, .ite (mapHeader_eq count) hrange (length_map count), rfl⟩
  case arrayHeader count => exact ⟨_, .ite (arrayHeader_eq count) hrange (length_array count), rfl⟩
  case objectHeader count =>
    exact ⟨_, .ite (arrayHeader_eq count) hrange (length_array count), rfl⟩
  case blobHeader length =>
    exact ⟨_, .ite (blobHeader_eq length) hrange (length_blobHeader length), rfl⟩
  case blob bytes => exact ⟨_, .ite (blob_eq bytes) hrange (length_blob bytes), rfl⟩
  case str text => exact ⟨_, .ite (str_eq text) hrange (length_str text), rfl⟩
  case extHeader subtype length =>
    exact ⟨_, .ite (extHeader_eq subtype length) hrange (length_extHeader subtype length), rfl⟩
  case ext subtype payload =>
    exact ⟨_, .ite (ext_eq subtype payload) hrange (length_ext subtype payload), rfl⟩
  case nil => exact ⟨_, nil_eq ▸ .spell fun _ => rfl, rfl⟩
  case bool b => exact ⟨_, bool_eq b ▸ .spell fun _ => rfl, rfl⟩
  case nullPointer => exact ⟨_, nullPointer_eq ▸ .spell length_nullPointer, rfl⟩
  case uint value => exact ⟨_, uint_eq value ▸ .spell (length_uint value), rfl⟩
  case int value => exact ⟨_, int_eq value ▸ .spell (length_int value), rfl⟩
  case f32 bits => exact ⟨_, f32_eq bits ▸ .spell (length_coded _ _ _), rfl⟩
  case f64 bits => exact ⟨_, f64_eq bits ▸ .spell (length_coded _ _ _), rfl⟩

/-- An operation either appends exactly as many bytes as it announces, or it finds fewer bytes left
in a bounded stream, says so and leaves the stream as it was. -/
theorem whole_or_refused (hn : op.announced? = some n) (hrange : op.InRange) (s : OutStream) :
    ((∀ room, s.sink.room? = some room → n ≤ room) →
      ∃ bytes, bytes.length = n ∧ op.run Γ s = .ok .done (s.append bytes)) ∧
    ∀ room, s.sink.room? = some room → room < n →
      op.run Γ s = .error (.overflow n room) s := by
  obtain ⟨x, hx, hrun⟩ := exists_announces (Γ := Γ) hn hrange
  rw [hrun]
  constructor
  · intro hroom
    obtain ⟨bytes, hlen, hok⟩ := hx.ok ((s.sink.refusal?_eq_none_iff n).2 hroom)
    exact ⟨bytes, hlen, by simp only [bind, EStateM.bind, hok]; rfl⟩
  · intro room hroom hlt
    have hrefusal : s.sink.refusal? n = some (.overflow n room) := by
      simp only [ByteSink.refusal?, hroom, if_pos hlt]
    simp only [bind, EStateM.bind, hx.refuses hrefusal]

/-- An extension of three bytes announces six: under a limit of six it is written, and under a limit
of five nothing is. -/
theorem whole_or_refused_ext :
    (∃ bytes, bytes.length = 6 ∧
      (WriteOp.ext 1 (packed [7, 8, 9])).run { types := [], rules := [] }
          (.ofSink .standard (.bounded 6) none) =
        .ok .done ((OutStream.ofSink .standard (.bounded 6) none).append bytes)) ∧
    (WriteOp.ext 1 (packed [7, 8, 9])).run { types := [], rules := [] }
        (.ofSink .standard (.bounded 5) none) =
      .error (.overflow 6 5) (.ofSink .standard (.bounded 5) none) := by
  have hn : (WriteOp.ext 1 (packed [7, 8, 9])).announced? = some 6 := rfl
  have hrange : (WriteOp.ext 1 (packed [7, 8, 9])).InRange := show 3 < 2 ^ 32 by decide
  refine ⟨(whole_or_refused hn hrange _).1 fun room hroom => ?_,
    (whole_or_refused hn hrange _).2 5 rfl (by decide)⟩
  cases hroom
  exact Nat.le_refl 6

def announcedBy : List WriteOp → Nat
  | [] => 0
  | op :: ops => op.announced?.getD 0 + announcedBy ops

/-- A stream with room for all that a history announces takes it whole. -/
theorem afterAll_of_room {ops : List WriteOp}
    (hops : ∀ op ∈ ops, ∃ n, op.announced? = some n ∧ op.InRange) {s : OutStream}
    (hroom : s.sink.refusal? (announcedBy ops) = none) :
    ∃ bytes, bytes.length = announcedBy ops ∧ afterAll Γ ops s = s.append bytes := by
  induction ops generalizing s with
  | nil => exact ⟨[], rfl, (OutStream.append_nil s).symm⟩
  | cons op ops ih =>
      obtain ⟨n, hn, hrange⟩ := hops op List.mem_cons_self
      have hsum : announcedBy (op :: ops) = n + announcedBy ops := by
        rw [announcedBy, hn, Option.getD_some]
      rw [hsum] at hroom ⊢
      obtain ⟨x, hx, hrun⟩ := exists_announces (Γ := Γ) hn hrange
      obtain ⟨p, hp, hok⟩ := hx.ok (s.sink.refusal?_of_le hroom (Nat.le_add_right _ _))
      have hafter : op.after Γ s = s.append p := by
        simp only [after, hrun, bind, EStateM.bind, hok]
        rfl
      have hbehind : (s.append p).sink.refusal? (announcedBy ops) = none :=
        s.sink.refusal?_append _ (by rwa [size_packed, hp])
      obtain ⟨q, hq, hall⟩ := ih (fun o ho => hops o (List.mem_cons_of_mem _ ho)) hbehind
      refine ⟨p ++ q, by rw [List.length_append, hp, hq], ?_⟩
      rw [afterAll, List.foldl_cons, hafter, ← OutStream.append_append]
      exact hall

end WriteOp

end ObjectStream
