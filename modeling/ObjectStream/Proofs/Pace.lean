import ObjectStream.Proofs.Failing
import ObjectStream.Proofs.Shape

/-!
# Readers that keep pace

Whether it succeeds or fails, a reader leaves the bytes and the context as they
are, moves the cursor forward and not past the end, and has taken a number of bytes
if it succeeds. Two readers are compared along the way, so that what the bound on
the depth of nesting leaves open can be shown to make no difference: behind each
header there are fewer bytes left, so what is read there has to be compared on
shorter streams only. On a stream without bytes left there is nothing to compare.
-/

namespace ObjectStream

/-- The stream `r'` has the bytes and the context of `r`, and its cursor stands at the same place
or between there and the end. -/
structure InStream.Onward (r r' : InStream) : Prop where
  context : r'.context = r.context
  data : r'.cursor.data = r.cursor.data
  forward : r.cursor.pos ≤ r'.cursor.pos
  inside : r'.cursor.pos ≤ r.cursor.size

namespace InStream.Onward

variable {r s t : InStream}

theorem refl (h : r.cursor.pos ≤ r.cursor.size) : r.Onward r := ⟨rfl, rfl, Nat.le_refl _, h⟩

theorem size_eq (h : r.Onward s) : s.cursor.size = r.cursor.size := by
  rw [ByteCursor.size, h.data, ByteCursor.size]

theorem trans (h : r.Onward s) (h' : s.Onward t) : r.Onward t where
  context := h'.context.trans h.context
  data := h'.data.trans h.data
  forward := Nat.le_trans h.forward h'.forward
  inside := h.size_eq ▸ h'.inside

end InStream.Onward

namespace Reader

variable {α β : Type} {c : Context} {n m k l : Nat}

/-- A result that keeps pace from `r` on: it comes with at least `k` bytes taken, or with an error
that does not come from the bound on nesting. -/
def Paced (k : Nat) (r : InStream) : EStateM.Result StreamError InStream α → Prop
  | .ok _ r' => r.Onward r' ∧ r.cursor.pos + k ≤ r'.cursor.pos
  | .error e r' => r.Onward r' ∧ e ≠ .tooDeep

/-- On streams of the context with fewer than `n` bytes left, both readers do the same and keep
pace. -/
def Keeps (c : Context) (n k : Nat) (x y : Reader α) : Prop :=
  ∀ r, r.context = c → r.cursor.pos ≤ r.cursor.size → r.cursor.remaining < n →
    x r = y r ∧ Paced k r (x r)

namespace Keeps

variable {x y : Reader α} {f g : α → Reader β}

theorem zero : Keeps c 0 k x y := fun _ _ _ h => (Nat.not_lt_zero _ h).elim

theorem symm (h : Keeps c n k x y) : Keeps c n k y x := by
  intro r hc hr hn
  obtain ⟨hsame, hpaced⟩ := h r hc hr hn
  exact ⟨hsame.symm, hsame ▸ hpaced⟩

theorem trans {z : Reader α} (h : Keeps c n k x y) (h' : Keeps c n k y z) : Keeps c n k x z := by
  intro r hc hr hn
  obtain ⟨hsame, hpaced⟩ := h r hc hr hn
  exact ⟨hsame.trans (h' r hc hr hn).1, hpaced⟩

theorem weaken (h : Keeps c n k x y) (hm : m ≤ n) (hl : l ≤ k) : Keeps c m l x y := by
  intro r hc hr hn
  obtain ⟨hsame, hpaced⟩ := h r hc hr (by omega)
  refine ⟨hsame, ?_⟩
  cases hx : x r with
  | ok a r' =>
      rw [hx] at hpaced
      exact ⟨hpaced.1, Nat.le_trans (Nat.add_le_add_left hl _) hpaced.2⟩
  | error e r' =>
      rw [hx] at hpaced
      exact hpaced

theorem pure (a : α) : Keeps c n 0 (Pure.pure a) (Pure.pure a) :=
  fun _ _ hr _ => ⟨rfl, .refl hr, Nat.le_refl _⟩

theorem throw {e : StreamError} (he : e ≠ .tooDeep) :
    Keeps c n k (MonadExcept.throw e : Reader α) (MonadExcept.throw e) :=
  fun _ _ hr _ => ⟨rfl, .refl hr, he⟩

/-- What follows is compared behind the bytes that were taken. -/
theorem bind (hx : Keeps c n k x y) (hf : ∀ a, Keeps c (n - k) l (f a) (g a)) :
    Keeps c n (k + l) (x >>= f) (y >>= g) := by
  intro r hc hr hn
  obtain ⟨hsame, hpaced⟩ := hx r hc hr hn
  cases hxr : x r with
  | error e t =>
      rw [hxr] at hpaced
      rw [bind_failed hxr, bind_failed (hsame ▸ hxr)]
      exact ⟨rfl, hpaced⟩
  | ok a t =>
      rw [hxr] at hpaced
      obtain ⟨honward, htaken⟩ := hpaced
      rw [bind_of_ok hxr, bind_of_ok (hsame ▸ hxr)]
      have hsize := honward.size_eq
      have hinside := honward.inside
      have hleft : t.cursor.remaining < n - k := by
        simp only [ByteCursor.remaining] at hn ⊢
        omega
      obtain ⟨hsame', hpaced'⟩ := hf a t (honward.context.trans hc) (by omega) hleft
      refine ⟨hsame', ?_⟩
      cases hft : f a t with
      | ok b s =>
          rw [hft] at hpaced'
          exact ⟨honward.trans hpaced'.1, by have := hpaced'.2; omega⟩
      | error e s =>
          rw [hft] at hpaced'
          exact ⟨honward.trans hpaced'.1, hpaced'.2⟩

/-- Nothing comes behind a failure. -/
theorem raise {e : StreamError} (he : e ≠ .tooDeep) :
    Keeps c n k ((MonadExcept.throw e : Reader α) >>= f) ((MonadExcept.throw e : Reader α) >>= g) :=
  fun _ _ hr _ => ⟨rfl, .refl hr, he⟩

theorem map (h : α → β) (hx : Keeps c n k x y) : Keeps c n k (h <$> x) (h <$> y) := by
  rw [map_eq_pure_bind, map_eq_pure_bind]
  exact hx.bind fun a => pure (h a)

theorem ite {P : Prop} [Decidable P] {x' y' : Reader α} (h : P → Keeps c n k x y)
    (h' : ¬ P → Keeps c n k x' y') : Keeps c n k (if P then x else x') (if P then y else y') := by
  split
  · next hp => exact h hp
  · next hp => exact h' hp

theorem orRestore (hx : Keeps c n k x y) :
    Keeps c n k (Reader.orRestore x) (Reader.orRestore y) := by
  intro r hc hr hn
  obtain ⟨hsame, hpaced⟩ := hx r hc hr hn
  rw [Reader.orRestore, Reader.orRestore, ← hsame]
  refine ⟨rfl, ?_⟩
  cases hxr : x r with
  | ok a t =>
      rw [hxr] at hpaced
      exact hpaced
  | error e t =>
      rw [hxr] at hpaced
      exact ⟨⟨hpaced.1.context, hpaced.1.data, Nat.le_refl _, hr⟩, hpaced.2⟩

/-- What depends on the context depends on a known one. -/
theorem context {f g : Context → Reader α} (h : Keeps c n k (f c) (g c)) :
    Keeps c n k (Reader.context >>= f) (Reader.context >>= g) := by
  intro r hc hr hn
  rw [bind_of_ok (x := Reader.context) rfl, bind_of_ok (x := Reader.context) rfl, hc]
  exact h r hc hr hn

/-! ## Headers and scalars -/

/-- What succeeds or fails without moving the cursor. -/
theorem idle {x : Reader α} (h : ∀ r, (∃ a r', x r = .ok a r' ∧ r'.context = r.context ∧
      r'.cursor = r.cursor) ∨ ∃ e, e ≠ .tooDeep ∧ x r = .error e r) : Keeps c n 0 x x := by
  intro r hc hr hn
  refine ⟨rfl, ?_⟩
  rcases h r with ⟨a, r', hx, hcontext, hcursor⟩ | ⟨e, he, hx⟩
  · rw [hx]
    have honward : r.Onward r' :=
      ⟨hcontext, congrArg _ hcursor, Nat.le_of_eq (congrArg _ hcursor.symm), hcursor ▸ hr⟩
    exact ⟨honward, honward.forward⟩
  · rw [hx]
    exact ⟨.refl hr, he⟩

theorem peek : Keeps c n 0 Reader.peek Reader.peek := by
  refine idle fun r => ?_
  cases hrest : r.rest with
  | nil => exact .inr ⟨.outOfRange 1 0, by simp, peek_failed hrest⟩
  | cons code tail => exact .inl ⟨code, r, peek_of_rest hrest, rfl, rfl⟩

/-- The cursor `n` bytes further is inside if so many bytes are left. -/
theorem onward_skip {r : InStream} {n : Nat} (hr : r.cursor.pos ≤ r.cursor.size)
    (hn : n ≤ r.rest.length) : r.Onward (r.skip n) where
  context := rfl
  data := rfl
  forward := Nat.le_add_right _ _
  inside := by
    rw [r.length_rest, ByteCursor.remaining] at hn
    show r.cursor.pos + n ≤ r.cursor.size
    omega

theorem advance (k : Nat) : Keeps c n k (Reader.advance k) (Reader.advance k) := by
  intro r hc hr hn
  refine ⟨rfl, ?_⟩
  by_cases hk : k ≤ r.rest.length
  · have hadvance := advance_of_rest (List.take_append_drop k r.rest).symm
    rw [List.length_take_of_le hk] at hadvance
    rw [hadvance]
    exact ⟨onward_skip hr hk, Nat.le_refl _⟩
  · rw [advance_failed (Nat.not_le.1 hk)]
    exact ⟨.refl hr, by simp⟩

theorem number (kind : NumberKind) :
    Keeps c n kind.width (Reader.number kind) (Reader.number kind) := by
  intro r hc hr hn
  refine ⟨rfl, ?_⟩
  by_cases hk : kind.width ≤ r.rest.length
  · rw [number_of_rest (List.take_append_drop kind.width r.rest).symm
      (List.length_take_of_le hk)]
    exact ⟨onward_skip hr hk, Nat.le_refl _⟩
  · rw [number_failed (Nat.not_le.1 hk)]
    exact ⟨.refl hr, by simp⟩

theorem raw (k : Nat) : Keeps c n k (Reader.raw k) (Reader.raw k) := by
  intro r hc hr hn
  refine ⟨rfl, ?_⟩
  by_cases hk : k ≤ r.rest.length
  · have hraw := raw_of_rest (List.take_append_drop k r.rest).symm
    rw [List.length_take_of_le hk] at hraw
    rw [hraw]
    exact ⟨onward_skip hr hk, Nat.le_refl _⟩
  · rw [raw_failed (Nat.not_le.1 hk)]
    exact ⟨.refl hr, by simp⟩

theorem byte : Keeps c n 1 Reader.byte Reader.byte :=
  (peek.bind fun _ => (advance 1).bind fun _ => pure _).weaken (Nat.le_refl n) (by omega)

/-- A number that may follow. -/
theorem field (kind : NumberKind) : Keeps c n 0 (Reader.number kind) (Reader.number kind) :=
  (number kind).weaken (Nat.le_refl n) (Nat.zero_le _)

theorem length (kind : NumberKind) : Keeps c n 0 (Reader.length kind) (Reader.length kind) :=
  (field kind).bind fun _ => pure _

theorem refuse (expected : Expected) (code : UInt8) :
    Keeps c n k (Reader.refuse expected code : Reader α) (Reader.refuse expected code) :=
  throw (by simp)

/-- What a code decides about. -/
theorem headed {f g : UInt8 → Reader α} (h : ∀ code, Keeps c (n - 1) 0 (f code) (g code)) :
    Keeps c n 1 (Reader.orRestore (Reader.byte >>= f)) (Reader.orRestore (Reader.byte >>= g)) :=
  orRestore (byte.bind h)

theorem mapHeader : Keeps c n 1 Reader.mapHeader Reader.mapHeader :=
  headed fun _ => ite (fun _ => pure _) fun _ => ite (fun _ => length _) fun _ =>
    ite (fun _ => length _) fun _ => refuse _ _

theorem arrayHeader : Keeps c n 1 Reader.arrayHeader Reader.arrayHeader :=
  headed fun _ => ite (fun _ => pure _) fun _ => ite (fun _ => length _) fun _ =>
    ite (fun _ => length _) fun _ => refuse _ _

theorem blobHeader : Keeps c n 1 Reader.blobHeader Reader.blobHeader :=
  headed fun _ => ite (fun _ => length _) fun _ => ite (fun _ => length _) fun _ =>
    ite (fun _ => length _) fun _ => refuse _ _

theorem strHeader : Keeps c n 1 Reader.strHeader Reader.strHeader :=
  headed fun _ => ite (fun _ => pure _) fun _ => ite (fun _ => length _) fun _ =>
    ite (fun _ => length _) fun _ => ite (fun _ => length _) fun _ => refuse _ _

theorem extLength (code : UInt8) :
    Keeps c n 0 (Reader.extLength code) (Reader.extLength code) := by
  unfold Reader.extLength
  split
  · exact pure _
  · exact ite (fun _ => length _) fun _ => ite (fun _ => length _) fun _ =>
      ite (fun _ => length _) fun _ => refuse _ _

theorem extHeader : Keeps c n 1 Reader.extHeader Reader.extHeader :=
  headed fun code => (extLength code).bind fun _ => (field _).bind fun _ => pure _

/-- A check of what was read. -/
theorem check {P : Prop} [Decidable P] {fault : TypeFault} (a : α) :
    Keeps c n 0 (if P then Pure.pure a else MonadExcept.throw (.type fault))
      (if P then Pure.pure a else MonadExcept.throw (.type fault)) :=
  ite (fun _ => pure a) fun _ => throw (by simp)

theorem textOf (bytes : ByteArray) : Keeps c n 0 (Reader.textOf bytes) (Reader.textOf bytes) := by
  unfold Reader.textOf
  split
  · exact pure _
  · exact throw (by simp)

/-- Bytes that may follow. -/
theorem body (k : Nat) : Keeps c n 0 (Reader.raw k) (Reader.raw k) :=
  (raw k).weaken (Nat.le_refl n) (Nat.zero_le k)

theorem str : Keeps c n 1 Reader.str Reader.str :=
  orRestore (strHeader.bind fun n => (body n).bind fun _ => textOf _)

theorem blob : Keeps c n 1 Reader.blob Reader.blob := orRestore (blobHeader.bind fun n => body n)

theorem ext : Keeps c n 1 Reader.ext Reader.ext :=
  orRestore (extHeader.bind fun header => (body header.2).bind fun _ => pure _)

theorem nil : Keeps c n 1 Reader.nil Reader.nil :=
  peek.bind fun _ => ite (fun _ => advance 1) fun _ => refuse _ _

theorem bool : Keeps c n 1 Reader.bool Reader.bool := by
  have hflag (b : Bool) : Keeps c n 1 (do Reader.advance 1; Pure.pure b)
      (do Reader.advance 1; Pure.pure b) := (advance 1).bind fun _ => pure b
  exact peek.bind fun _ => ite (fun _ => hflag true) fun _ => ite (fun _ => hflag false)
    fun _ => refuse _ _

theorem intBody (code : UInt8) : Keeps c n 0 (Reader.intBody code) (Reader.intBody code) :=
  ite (fun _ => field _) fun _ => ite (fun _ => field _) fun _ =>
    ite (fun _ => field _) fun _ => field _

theorem uintBody (code : UInt8) : Keeps c n 0 (Reader.uintBody code) (Reader.uintBody code) :=
  ite (fun _ => length _) fun _ => ite (fun _ => length _) fun _ =>
    ite (fun _ => length _) fun _ => length _

theorem uint : Keeps c n 1 Reader.uint Reader.uint := by
  refine headed fun code => ?_
  split
  · exact pure _
  · exact uintBody code
  · exact (intBody code).bind fun _ => check _
  · exact throw (by simp)
  · exact refuse _ _

theorem int : Keeps c n 1 Reader.int Reader.int := by
  refine headed fun code => ?_
  split
  · exact pure _
  · exact pure _
  · exact intBody code
  · exact (uintBody code).bind fun _ => check _
  · exact refuse _ _

theorem f32 : Keeps c n 1 Reader.f32 Reader.f32 :=
  headed fun _ => ite (fun _ => (length _).bind fun _ => pure _) fun _ => refuse _ _

theorem f64 : Keeps c n 1 Reader.f64 Reader.f64 :=
  headed fun _ => ite (fun _ => (length _).bind fun _ => pure _) fun _ =>
    ite (fun _ => (length _).bind fun _ => pure _) fun _ => refuse _ _

theorem unsigned (width : IntWidth) :
    Keeps c n 1 (Reader.unsigned width) (Reader.unsigned width) :=
  orRestore (uint.bind fun _ => check _)

theorem signed (width : IntWidth) : Keeps c n 1 (Reader.signed width) (Reader.signed width) :=
  orRestore (int.bind fun _ => check _)

theorem arrayHeaderOf (count : Nat) :
    Keeps c n 1 (Reader.arrayHeaderOf count) (Reader.arrayHeaderOf count) :=
  orRestore (arrayHeader.bind fun actual =>
    ite (fun _ => pure _) fun _ => throw (e := .countMismatch count actual) (by simp))

theorem char : Keeps c n 1 Reader.char Reader.char :=
  (unsigned .w32).bind fun _ => check _

theorem uuid : Keeps c n 1 Reader.uuid Reader.uuid :=
  (orRestore (ext.bind fun _ => check _)).bind fun _ => check _

theorem scalar (s : Scalar) : Keeps c n 1 (Reader.scalar s) (Reader.scalar s) := by
  cases s with
  | bool => exact bool.map _
  | unsigned width => exact (unsigned width).map _
  | signed width => exact (signed width).map _
  | char => exact char.map _
  | float32 => exact f32.map _
  | float64 => exact f64.map _
  | string | smallString => exact str.map _
  | str => exact throw (by simp)
  | bytes | bytesMut => exact blob.map _
  | duration | typeTag => exact (unsigned _).map _
  | systemTime =>
      rw [Reader.scalar_systemTime]
      exact (signed .w64).map _
  | dateTime => exact (signed .w64).map _
  | uuid => exact uuid.map _

theorem errorCode : Keeps c n 1 Reader.errorCode Reader.errorCode := by
  refine (arrayHeaderOf 2).bind (l := 0) fun _ => ?_
  refine ((unsigned .w32).weaken (Nat.le_refl _) (Nat.zero_le 1)).bind (l := 0) fun place => ?_
  refine ((signed .w32).weaken (Nat.le_refl _) (Nat.zero_le 1)).bind (l := 0) fun value => ?_
  refine context ?_
  split
  · exact pure _
  · exact throw (by simp)

end Keeps

end Reader

end ObjectStream
