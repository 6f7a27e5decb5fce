import ObjectStream.Proofs.Answers
import ObjectStream.Proofs.Atoms

/-!
# What reading costs and writing takes

A reader costs the bytes that it goes over, and a writer stays within a number of
bytes if it gets by with so much room. The two are compared without a look at the
bytes themselves: what a reader accepts bounds the number or the length that it
returns, and the size of the shortest form grows with these. A form that is not
the shortest is longer, because every code with a field behind it holds all
numbers that shorter codes hold.
-/

namespace ObjectStream

variable {c : Context} {m n : Nat}

/-! ## Writers -/

namespace Writer

/-- Wherever there is room for `n` bytes, the writer succeeds and appends at most `n` bytes. -/
def Within (c : Context) (n : Nat) (x : Writer Unit) : Prop :=
  ∀ s : OutStream, s.context = c → s.sink.refusal? n = none →
    ∃ bytes, bytes.length ≤ n ∧ x s = .ok () (s.append bytes)

namespace Within

variable {x y : Writer Unit}

theorem mono (h : Within c m x) (hmn : m ≤ n) : Within c n x := by
  intro s hc hroom
  obtain ⟨bytes, hlen, hx⟩ := h s hc (s.sink.refusal?_of_le hroom hmn)
  exact ⟨bytes, Nat.le_trans hlen hmn, hx⟩

/-- Nothing is written. -/
theorem nothing : Within c n (pure ()) := by
  intro s _ _
  exact ⟨[], Nat.zero_le n, by rw [OutStream.append_nil]; rfl⟩

theorem bind (hx : Within c m x) (hy : Within c n y) : Within c (m + n) (do x; y) := by
  intro s hc hroom
  obtain ⟨p, hp, hxs⟩ := hx s hc (s.sink.refusal?_of_le hroom (by omega))
  have hbehind : (s.append p).sink.refusal? n = none := by
    refine s.sink.refusal?_append _ (s.sink.refusal?_of_le hroom ?_)
    rw [size_packed]
    omega
  obtain ⟨q, hq, hys⟩ := hy (s.append p) hc hbehind
  refine ⟨p ++ q, by rw [List.length_append]; omega, ?_⟩
  simp only [Bind.bind, EStateM.bind, hxs, hys, OutStream.append_append]

theorem context {f : Context → Writer Unit} (h : Within c n (f c)) :
    Within c n (Writer.context >>= f) := by
  intro s hc hroom
  obtain ⟨bytes, hlen, hf⟩ := h s hc hroom
  exact ⟨bytes, hlen, by rw [← hf, ← hc]; rfl⟩

/-- A form is written whole where there is room for it. -/
theorem spell {f : Form} (h : (f c.byteOrder).length ≤ n) : Within c n (Writer.spell f) := by
  rintro s rfl hroom
  have hform : s.sink.refusal? (packed (f s.context.byteOrder)).size = none :=
    s.sink.refusal?_of_le hroom (by rwa [size_packed])
  refine ⟨f s.context.byteOrder, h, ?_⟩
  simp only [Writer.spell, Writer.raw, hform]
  rfl

theorem arrayHeader {count : Nat} (hcount : count < 2 ^ 32) (h : Format.Size.array count ≤ n) :
    Within c n (Writer.arrayHeader count) := by
  rw [arrayHeader_eq, if_pos hcount]
  exact spell (by rwa [Form.length_array])

theorem mapHeader {count : Nat} (hcount : count < 2 ^ 32) (h : Format.Size.map count ≤ n) :
    Within c n (Writer.mapHeader count) := by
  rw [mapHeader_eq, if_pos hcount]
  exact spell (by rwa [Form.length_map])

theorem blobHeader {length : Nat} (hlength : length < 2 ^ 32) (h : Format.Size.blob length ≤ n) :
    Within c n (Writer.blobHeader length) := by
  rw [blobHeader_eq, if_pos hlength]
  exact spell (by rwa [Form.length_blobHeader])

theorem blob {bytes : ByteArray} (hsize : bytes.size < 2 ^ 32)
    (h : Format.Size.blob bytes.size + bytes.size ≤ n) : Within c n (Writer.blob bytes) := by
  rw [blob_eq, if_pos hsize]
  exact spell (by rwa [Form.length_blob])

theorem str {text : String} (hsize : text.toUTF8.size < 2 ^ 32)
    (h : Format.Size.str text.toUTF8.size + text.toUTF8.size ≤ n) :
    Within c n (Writer.str text) := by
  rw [str_eq, if_pos hsize]
  exact spell (by rwa [Form.length_str])

theorem extHeader {subtype : Int} {length : Nat} (hlength : length < 2 ^ 32)
    (h : Format.Size.ext length ≤ n) : Within c n (Writer.extHeader subtype length) := by
  rw [extHeader_eq, if_pos hlength]
  exact spell (by rwa [Form.length_extHeader])

theorem ext {subtype : Int} {payload : ByteArray} (hsize : payload.size < 2 ^ 32)
    (h : Format.Size.ext payload.size + payload.size ≤ n) :
    Within c n (Writer.ext subtype payload) := by
  rw [ext_eq, if_pos hsize]
  exact spell (by rwa [Form.length_ext])

theorem uint {value : Nat} (h : Format.Size.uint value ≤ n) : Within c n (Writer.uint value) := by
  rw [uint_eq]
  exact spell (by rwa [Form.length_uint])

theorem int {value : Int} (h : Format.Size.int value ≤ n) : Within c n (Writer.int value) := by
  rw [int_eq]
  exact spell (by rwa [Form.length_int])

theorem nil (h : 1 ≤ n) : Within c n Writer.nil := by
  rw [nil_eq]
  exact spell h

theorem bool (b : Bool) (h : 1 ≤ n) : Within c n (Writer.bool b) := by
  rw [bool_eq]
  exact spell h

theorem f32 (bits : UInt32) (h : 5 ≤ n) : Within c n (Writer.f32 bits) := by
  rw [f32_eq]
  refine spell ?_
  rwa [Form.f32, Form.length_coded, NumberKind.width]

end Within

end Writer

/-! ## Sizes of accepted forms -/

theorem NumberKind.lt_modulus {kind : NumberKind} (hkind : kind.isSigned = false)
    (h : kind.Holds n) : n < kind.modulus := by
  simp only [Holds, hkind, Bool.false_eq_true, if_false] at h
  omega

namespace Heading

variable {h : Heading} {f : Form} {order : ByteOrder}

/-- It is enough to look at the codes that say a number by themselves, and at how much the fields
behind the others hold. -/
theorem Spells.size_le (size : Nat → Nat) (hf : h.Spells n f)
    (hshort : ∀ code, h.short? n = some code → n < 2 ^ 32 ∧ size n ≤ 1)
    (hfield : ∀ field ∈ h.fields, field.2.isSigned = false ∧
      (n < field.2.modulus → n < 2 ^ 32 ∧ size n ≤ 1 + field.2.width)) :
    n < 2 ^ 32 ∧ size n ≤ (f order).length := by
  cases hf with
  | short hcode => exact hshort _ hcode
  | field hmem hholds =>
      obtain ⟨hkind, hsize⟩ := hfield _ hmem
      rw [Form.length_coded]
      exact hsize (NumberKind.lt_modulus hkind hholds)

theorem Spells.array_le (hf : array.Spells n f) :
    n < 2 ^ 32 ∧ Format.Size.array n ≤ (f order).length := by
  refine hf.size_le _ (fun code hcode => ?_) ?_
  · obtain ⟨hn, -⟩ := inline_eq_some hcode
    rw [Format.Size.array, if_pos hn]
    omega
  · simp only [array, List.forall_mem_cons, NumberKind.isSigned, NumberKind.modulus,
      NumberKind.width, Format.Size.array]
    grind

theorem Spells.map_le (hf : map.Spells n f) :
    n < 2 ^ 32 ∧ Format.Size.map n ≤ (f order).length := by
  refine hf.size_le _ (fun code hcode => ?_) ?_
  · obtain ⟨hn, -⟩ := inline_eq_some hcode
    rw [Format.Size.map, Format.Size.array, if_pos hn]
    omega
  · simp only [map, List.forall_mem_cons, NumberKind.isSigned, NumberKind.modulus,
      NumberKind.width, Format.Size.map, Format.Size.array]
    grind

theorem Spells.str_le (hf : str.Spells n f) :
    n < 2 ^ 32 ∧ Format.Size.str n ≤ (f order).length := by
  refine hf.size_le _ (fun code hcode => ?_) ?_
  · obtain ⟨hn, -⟩ := inline_eq_some hcode
    rw [Format.Size.str, if_pos hn]
    omega
  · simp only [str, List.forall_mem_cons, NumberKind.isSigned, NumberKind.modulus,
      NumberKind.width, Format.Size.str, Format.Size.blob]
    grind

theorem Spells.blob_le (hf : blob.Spells n f) :
    n < 2 ^ 32 ∧ Format.Size.blob n ≤ (f order).length := by
  refine hf.size_le _ nofun ?_
  simp only [blob, List.forall_mem_cons, NumberKind.isSigned, NumberKind.modulus,
    NumberKind.width, Format.Size.blob]
  grind

/-- The subtype takes one more byte. -/
theorem Spells.ext_le (hf : ext.Spells n f) :
    n < 2 ^ 32 ∧ Format.Size.ext n ≤ (f order).length + 1 := by
  have hlength := Form.length_extLength n order
  have hcode : n < 2 ^ 32 ∧ Format.Size.ext n - 1 ≤ (f order).length := by
    refine hf.size_le (fun n => Format.Size.ext n - 1) (fun code hcode => ?_) ?_
    · have hcode : Format.fixext? n = some code := hcode
      rw [Format.Size.ext, hcode]
      unfold Format.fixext? at hcode
      grind
    · simp only [ext, List.forall_mem_cons, NumberKind.isSigned, NumberKind.modulus,
        NumberKind.width, Format.Size.ext, Format.Size.blob]
      grind
  omega

end Heading

theorem Format.Size.uint_mono (h : m ≤ n) : Format.Size.uint m ≤ Format.Size.uint n := by
  unfold Format.Size.uint
  grind

/-- An integer in any form is no shorter than in its shortest. -/
theorem Atom.Spelled.int_le {z : Int} {f : Form} (hf : (Atom.int z).Spelled f) (order : ByteOrder) :
    Format.Size.int z ≤ (f order).length := by
  cases hf with
  | @fixint n hn =>
      rw [Format.Size.int, if_pos (Int.natCast_nonneg n), Int.toNat_natCast, Format.Size.uint,
        if_pos hn]
      exact Nat.le_refl 1
  | negativeFixint hlow hneg =>
      rw [Format.Size.int, if_neg (by omega), if_pos hlow, Form.number_fixint hlow hneg]
      exact Nat.le_refl 1
  | @int code kind z hfield hholds =>
      have hkinds : kind ∈ [.u8, .u16, .u32, .u64, .i8, .i16, .i32, .i64] := by
        have hmem := List.mem_map_of_mem (f := Prod.snd) hfield
        exact hmem
      rw [Form.length_coded]
      simp only [List.mem_cons, List.not_mem_nil, or_false] at hkinds
      rcases hkinds with rfl | rfl | rfl | rfl | rfl | rfl | rfl | rfl
      all_goals
        simp only [NumberKind.Holds, NumberKind.isSigned, NumberKind.modulus, NumberKind.width] at *
        unfold Format.Size.int Format.Size.uint
        grind

/-! ## Readers -/

namespace Reader

variable {α β : Type}

/-- If the reader succeeds with `a`, it has gone over a number `k` of bytes with `P a k`, and the
context is the same as before. -/
def Costs (c : Context) (x : Reader α) (P : α → Nat → Prop) : Prop :=
  ∀ r a r', r.context = c → x r = .ok a r' →
    r'.context = c ∧ ∃ k, r'.cursor = r.cursor.skip k ∧ P a k

/-- What was read can be written in as much room as it was read from. -/
def Shortens (c : Context) (x : Reader α) (w : α → Writer Unit) : Prop :=
  Costs c x fun a k => Writer.Within c k (w a)

namespace Costs

variable {x : Reader α} {P : α → Nat → Prop} {Q : β → Nat → Prop}

theorem pure {a : α} (h : P a 0) : Costs c (Pure.pure a) P := by
  intro r a' r' hc hr
  cases hr
  exact ⟨hc, 0, rfl, h⟩

theorem throw (e : StreamError) : Costs c (MonadExcept.throw e) P := by
  intro r a r' _ hr
  cases hr

theorem imp {P' : α → Nat → Prop} (h : Costs c x P) (himp : ∀ a k, P a k → P' a k) :
    Costs c x P' := by
  intro r a r' hc hr
  obtain ⟨hc', k, hcursor, hk⟩ := h r a r' hc hr
  exact ⟨hc', k, hcursor, himp a k hk⟩

theorem bind {f : α → Reader β} (hx : Costs c x P)
    (hf : ∀ a m, P a m → Costs c (f a) fun b n => Q b (m + n)) : Costs c (x >>= f) Q := by
  intro r b r' hc hr
  obtain ⟨a, t, hxr, hft⟩ := bind_ok hr
  obtain ⟨htc, m, htcursor, hm⟩ := hx r a t hc hxr
  obtain ⟨hrc, n, hrcursor, hn⟩ := hf a m hm t b r' htc hft
  refine ⟨hrc, m + n, ?_, hn⟩
  rw [hrcursor, htcursor]
  simp only [ByteCursor.skip, Nat.add_assoc]

theorem map {f : α → β} (h : Costs c x fun a k => Q (f a) k) : Costs c (f <$> x) Q := by
  rw [map_eq_pure_bind]
  exact h.bind fun a m hm => pure hm

theorem orRestore (h : Costs c x P) : Costs c (Reader.orRestore x) P :=
  fun r a r' hc hr => h r a r' hc (orRestore_ok.1 hr)

theorem ite {p : Prop} [Decidable p] {y : Reader α} (hx : p → Costs c x P)
    (hy : ¬ p → Costs c y P) : Costs c (if p then x else y) P := by
  split
  · next hp => exact hx hp
  · next hp => exact hy hp

/-- What does not move costs nothing. -/
theorem stays (h : Stays x) (hP : ∀ r a r', x r = .ok a r' → P a 0) : Costs c x P := by
  intro r a r' hc hr
  obtain rfl := h r a r' hr
  exact ⟨hc, 0, rfl, hP _ _ _ hr⟩

theorem context {f : Context → Reader α} (h : Costs c (f c) P) :
    Costs c (Reader.context >>= f) P := by
  intro r a r' hc hr
  have hf : f r.context r = .ok a r' := hr
  rw [hc] at hf
  exact h r a r' hc hf

/-- One thing after the other, if the costs add up. -/
theorem each {read : α → Reader β} {P : α → β → Nat → Prop} {Q : List α → List β → Nat → Prop}
    (hnil : Q [] [] 0)
    (hcons : ∀ a as b bs m n, P a b m → Q as bs n → Q (a :: as) (b :: bs) (m + n)) {as : List α}
    (h : ∀ a ∈ as, Costs c (read a) (P a)) : Costs c (Reader.each read as) (Q as) := by
  induction as with
  | nil => exact pure hnil
  | cons a as ih =>
      rw [List.forall_mem_cons] at h
      exact h.1.bind fun b m hb => (ih h.2).bind fun bs n hbs => pure (hcons a as b bs m n hb hbs)

/-! ### Headers -/

theorem byte : Costs c Reader.byte fun _ k => k = 1 := by
  intro r code r' hc hr
  obtain ⟨rfl, -⟩ := byte_ok hr
  exact ⟨hc, 1, rfl, rfl⟩

theorem number (kind : NumberKind) : Costs c (Reader.number kind) fun _ k => k = kind.width := by
  intro r value r' hc hr
  obtain ⟨rfl, -⟩ := number_ok hr
  exact ⟨hc, kind.width, rfl, rfl⟩

theorem length (kind : NumberKind) : Costs c (Reader.length kind) fun _ k => k = kind.width :=
  (number kind).bind fun _ _ hm => pure hm

theorem raw (n : Nat) : Costs c (Reader.raw n) fun bytes k => bytes.size = n ∧ k = n := by
  intro r bytes r' hc hr
  obtain ⟨run, tail, hrest, rfl, -⟩ := advance_ok (Agrees.advance_of_raw hr)
  rw [raw_of_rest hrest] at hr
  cases hr
  exact ⟨hc, run.length, rfl, size_packed run, rfl⟩

/-- A header costs one of its forms. -/
theorem announced {x : Reader Nat} {h : Heading} {P : Nat → Nat → Prop}
    (hx : ∀ r n r', x r = .ok n r' → Announces h r n r')
    (hP : ∀ n f, h.Spells n f → P n (f c.byteOrder).length) : Costs c x P := by
  rintro r n r' rfl hr
  obtain ⟨f, tail, hf, -, rfl⟩ := hx r n r' hr
  exact ⟨rfl, _, rfl, hP n f hf⟩

theorem arrayHeader :
    Costs c Reader.arrayHeader fun n k => n < 2 ^ 32 ∧ Format.Size.array n ≤ k :=
  announced (fun _ _ _ => announces_array) fun _ _ hf => hf.array_le

theorem mapHeader : Costs c Reader.mapHeader fun n k => n < 2 ^ 32 ∧ Format.Size.map n ≤ k :=
  announced (fun _ _ _ => announces_map) fun _ _ hf => hf.map_le

theorem strHeader : Costs c Reader.strHeader fun n k => n < 2 ^ 32 ∧ Format.Size.str n ≤ k :=
  announced (fun _ _ _ => announces_str) fun _ _ hf => hf.str_le

theorem blobHeader : Costs c Reader.blobHeader fun n k => n < 2 ^ 32 ∧ Format.Size.blob n ≤ k :=
  announced (fun _ _ _ => announces_blob) fun _ _ hf => hf.blob_le

theorem extHeader :
    Costs c Reader.extHeader fun header k => header.2 < 2 ^ 32 ∧ Format.Size.ext header.2 ≤ k := by
  have hlength : Costs c (Reader.byte >>= Reader.extLength) fun n k =>
      n < 2 ^ 32 ∧ Format.Size.ext n ≤ k + 1 := by
    refine announced (fun r n r' hr => ?_) fun _ _ hf => hf.ext_le
    obtain ⟨code, t, hbyte, hcode⟩ := bind_ok hr
    obtain ⟨rfl, tail, hrest⟩ := byte_ok hbyte
    exact announces_ext hrest hcode
  refine orRestore ?_
  rw [← bind_assoc]
  refine hlength.bind fun n m hm => (number .i8).bind fun subtype w hw => pure ?_
  rw [hw]
  exact ⟨hm.1, hm.2⟩

theorem arrayHeaderOf (n : Nat) :
    Costs c (Reader.arrayHeaderOf n) fun _ k => n < 2 ^ 32 ∧ Format.Size.array n ≤ k := by
  refine orRestore (arrayHeader.bind fun count m hm => ?_)
  by_cases hcount : count = n
  · rw [if_pos hcount]
    exact pure (hcount ▸ hm)
  · rw [if_neg hcount]
    exact throw _

/-! ### Texts and raw bytes -/

theorem textOf (bytes : ByteArray) :
    Costs c (Reader.textOf bytes) fun text k => text.toUTF8 = bytes ∧ k = 0 := by
  unfold Reader.textOf
  cases htext : String.fromUTF8? bytes with
  | none => exact throw _
  | some text =>
      refine pure ⟨?_, rfl⟩
      rw [String.fromUTF8?] at htext
      split at htext
      · cases htext
        rfl
      · cases htext

theorem str : Costs c Reader.str fun text k => text.toUTF8.size < 2 ^ 32 ∧
    Format.Size.str text.toUTF8.size + text.toUTF8.size ≤ k := by
  refine orRestore (strHeader.bind fun n m hm => (raw n).bind fun bytes l hl =>
    (textOf bytes).imp fun text k hk => ?_)
  rw [hk.1, hl.1, hl.2]
  omega

theorem blob : Costs c Reader.blob fun bytes k =>
    bytes.size < 2 ^ 32 ∧ Format.Size.blob bytes.size + bytes.size ≤ k := by
  refine orRestore (blobHeader.bind fun n m hm => (raw n).imp fun bytes k hk => ?_)
  rw [hk.1, hk.2]
  omega

theorem ext : Costs c Reader.ext fun e k =>
    e.2.size < 2 ^ 32 ∧ Format.Size.ext e.2.size + e.2.size ≤ k := by
  refine orRestore (extHeader.bind fun header m hm => (raw header.2).bind fun bytes k hk =>
    pure ?_)
  rw [hk.1, hk.2]
  omega

/-! ### Integers -/

/-- What a reader of integers goes over is a form of an integer. -/
theorem integer {x : Reader α} (hx : Wants x (·.isInteger = true)) (hover : Agrees x fun _ => 0)
    (hP : ∀ r a r' z f tail, (Atom.int z).Spelled f → r.rest = f r.context.byteOrder ++ tail →
      x r = .ok a r' → P a (f r.context.byteOrder).length) : Costs c x P := by
  rintro r a r' rfl hr
  obtain ⟨atom, f, tail, hf, hrest, rfl⟩ := GoesOver.of_stepOver (hover r a r' hr)
  obtain ⟨family, hfamily, hopens⟩ := hx.opens hf hrest hr
  obtain ⟨z, rfl⟩ := Answers.int_of_opens hopens hfamily
  exact ⟨rfl, _, rfl, hP _ _ _ z f tail hf hrest hr⟩

theorem uint : Costs c Reader.uint fun n k => Format.Size.uint n ≤ k := by
  refine integer Wants.uint Agrees.uint fun r n r' z f tail hf hrest hr => ?_
  have hz := Answers.nonneg_of_uint hf hrest hr
  have hsame := Takes.uint_of_spelled (c := r.context) hf hz r tail rfl hrest
  rw [hr] at hsame
  cases hsame
  have hsize := hf.int_le r.context.byteOrder
  rwa [Format.Size.int, if_pos hz] at hsize

theorem int : Costs c Reader.int fun z k => Format.Size.int z ≤ k := by
  refine integer Wants.int Agrees.int fun r a r' z f tail hf hrest hr => ?_
  have hz := Answers.lt_of_int hf hrest hr
  have hsame := Takes.int_of_spelled (c := r.context) hf hz r tail rfl hrest
  rw [hr] at hsame
  cases hsame
  exact hf.int_le _

theorem unsigned (width : IntWidth) : Costs c (Reader.unsigned width) fun n k =>
    width.holdsUnsigned n = true ∧ Format.Size.uint n ≤ k :=
  orRestore (uint.bind fun _ _ hm => ite (fun hn => pure ⟨hn, hm⟩) fun _ => throw _)

theorem signed (width : IntWidth) : Costs c (Reader.signed width) fun z k =>
    width.holdsSigned z = true ∧ Format.Size.int z ≤ k :=
  orRestore (int.bind fun _ _ hm => ite (fun hz => pure ⟨hz, hm⟩) fun _ => throw _)

end Costs

/-! ## Scalars -/

namespace Costs

theorem peek : Costs c Reader.peek fun _ k => k = 0 :=
  stays (fun _ _ _ hr => (peek_ok hr).1) fun _ _ _ _ => rfl

theorem advance (n : Nat) : Costs c (Reader.advance n) fun _ k => k = n := by
  intro r a r' hc hr
  obtain ⟨-, -, -, -, rfl⟩ := advance_ok hr
  exact ⟨hc, n, rfl, rfl⟩

theorem nil : Costs c Reader.nil fun _ k => k = 1 :=
  peek.bind fun _ m hm => ite (fun _ => (advance 1).imp fun _ k hk => by omega) fun _ => throw _

theorem bool : Costs c Reader.bool fun _ k => k = 1 := by
  have hone (b : Bool) : Costs c (do Reader.advance 1; Pure.pure b) fun _ k => k = 1 :=
    (advance 1).bind fun _ m hm => pure hm
  refine peek.bind fun code m hm => ?_
  subst hm
  simp only [Nat.zero_add]
  exact ite (fun _ => hone true) fun _ => ite (fun _ => hone false) fun _ => throw _

theorem f32 : Costs c Reader.f32 fun _ k => k = 5 := by
  refine orRestore (byte.bind fun code m hm => ite (fun _ => ?_) fun _ => throw _)
  refine (length .f32).bind fun bits k hk => pure ?_
  rw [hm, hk, NumberKind.width]

theorem char : Costs c Reader.char fun n k => isScalarValue n = true ∧ Format.Size.uint n ≤ k :=
  (unsigned .w32).bind fun _ _ hm => ite (fun hn => pure ⟨hn, hm.2⟩) fun _ => throw _

theorem uuid : Costs c Reader.uuid fun payload k =>
    payload.size = 16 ∧ Format.Size.ext payload.size + payload.size ≤ k := by
  refine bind (P := fun payload k => Format.Size.ext payload.size + payload.size ≤ k) ?_
    fun payload m hm => ite (fun hsize => pure ⟨hsize, hm⟩) fun _ => throw _
  exact orRestore (ext.bind fun e m hm => ite (fun _ => pure hm.2) fun _ => throw _)

end Costs

namespace Shortens

theorem uint : Shortens c Reader.uint Writer.uint := Costs.uint.imp fun _ _ hk => .uint hk

theorem int : Shortens c Reader.int Writer.int := Costs.int.imp fun _ _ hk => .int hk

theorem arrayHeader : Shortens c Reader.arrayHeader Writer.arrayHeader :=
  Costs.arrayHeader.imp fun _ _ hk => .arrayHeader hk.1 hk.2

theorem mapHeader : Shortens c Reader.mapHeader Writer.mapHeader :=
  Costs.mapHeader.imp fun _ _ hk => .mapHeader hk.1 hk.2

theorem str : Shortens c Reader.str Writer.str := Costs.str.imp fun _ _ hk => .str hk.1 hk.2

theorem blobHeader : Shortens c Reader.blobHeader Writer.blobHeader :=
  Costs.blobHeader.imp fun _ _ hk => .blobHeader hk.1 hk.2

theorem blob : Shortens c Reader.blob Writer.blob := Costs.blob.imp fun _ _ hk => .blob hk.1 hk.2

theorem extHeader :
    Shortens c Reader.extHeader fun header => Writer.extHeader header.1 header.2 :=
  Costs.extHeader.imp fun _ _ hk => .extHeader hk.1 hk.2

theorem ext : Shortens c Reader.ext fun e => Writer.ext e.1 e.2 :=
  Costs.ext.imp fun _ _ hk => .ext hk.1 hk.2

/-- A datum of a scalar type, if what it takes to write it is known where it is one of its type. -/
theorem datum {α : Type} {x : Reader α} {f : α → Datum} {s : Scalar} {P : α → Nat → Prop}
    {w : α → Writer Unit} (hx : Costs c x P)
    (hw : ∀ a, Writer.scalar s (f a) =
      if s.holds (f a) then w a else throw (.illTyped (.scalar s)))
    (h : ∀ a k, P a k → s.holds (f a) = true ∧ Writer.Within c k (w a)) :
    Shortens c (f <$> x) (Writer.scalar s) := by
  refine Costs.map (hx.imp fun a k hk => ?_)
  obtain ⟨hholds, hwithin⟩ := h a k hk
  rwa [hw, if_pos hholds]

/-- A float of eight bytes may have been read from one of four, so it is left out. -/
theorem scalar {s : Scalar} (hs : s ≠ .float64) :
    Shortens c (Reader.scalar s) (Writer.scalar s) := by
  cases s with
  | bool =>
      exact datum Costs.bool (fun _ => rfl) fun b k hk => ⟨rfl, .bool b (Nat.le_of_eq hk.symm)⟩
  | unsigned width =>
      exact datum (Costs.unsigned width) (fun _ => rfl) fun n k hk => ⟨hk.1, .uint hk.2⟩
  | signed width =>
      exact datum (Costs.signed width) (fun _ => rfl) fun z k hk => ⟨hk.1, .int hk.2⟩
  | char => exact datum Costs.char (fun _ => rfl) fun n k hk => ⟨hk.1, .uint hk.2⟩
  | float32 =>
      exact datum Costs.f32 (fun _ => rfl) fun bits k hk =>
        ⟨rfl, .f32 bits (Nat.le_of_eq hk.symm)⟩
  | float64 => exact absurd rfl hs
  | string | smallString =>
      exact datum Costs.str (fun _ => rfl) fun text k hk => ⟨rfl, .str hk.1 hk.2⟩
  | str => exact Costs.throw _
  | bytes | bytesMut =>
      exact datum Costs.blob (fun _ => rfl) fun bytes k hk => ⟨rfl, .blob hk.1 hk.2⟩
  | duration =>
      refine datum (Costs.unsigned .w64) (fun _ => rfl) fun n k hk => ⟨?_, ?_⟩
      · exact decide_eq_true (Int.natCast_nonneg n)
      · dsimp only
        rw [if_pos hk.1]
        exact .uint hk.2
  | systemTime =>
      rw [Reader.scalar_systemTime]
      refine datum (Costs.signed .w64) (fun _ => rfl) fun z k hk => ⟨rfl, ?_⟩
      dsimp only
      rw [Writer.clock_ofNanos, Writer.instant, if_pos hk.1]
      exact .int hk.2
  | dateTime =>
      refine datum (Costs.signed .w64) (fun _ => rfl) fun z k hk => ⟨rfl, ?_⟩
      dsimp only
      rw [Writer.instant, if_pos hk.1]
      exact .int hk.2
  | uuid =>
      refine datum Costs.uuid (fun _ => rfl) fun payload k hk => ⟨beq_iff_eq.2 hk.1, ?_⟩
      exact .ext (by omega) hk.2
  | typeTag =>
      exact datum (Costs.unsigned .w32) (fun _ => rfl) fun n k hk => ⟨hk.1, .uint hk.2⟩

end Shortens

end Reader

/-! ## Error codes -/

/-- A category is named by the first place that has its name. -/
theorem CategoryIndex.exists_before? {index : CategoryIndex} {place : Nat}
    {category : ErrorCategory} (h : index.category? place = some category) :
    ∃ first ≤ place, index.before? category.name = some first := by
  obtain ⟨hlt, rfl⟩ := List.getElem?_eq_some_iff.1 h
  cases hfirst : index.before? index.categories[place].name with
  | none =>
      have hnone := List.findIdx?_eq_none_iff.1 hfirst _ (List.getElem_mem hlt)
      simp at hnone
  | some first =>
      obtain ⟨_, _, hbefore⟩ := List.findIdx?_eq_some_iff_getElem.1 hfirst
      refine ⟨first, Nat.le_of_not_lt fun hplace => ?_, rfl⟩
      exact hbefore place hplace (beq_self_eq_true _)

/-- An error code is written with the same category or with an earlier one of its name. -/
theorem Reader.Shortens.errorCode : Shortens c Reader.errorCode Writer.errorCode := by
  refine (Costs.arrayHeaderOf 2).bind fun _ m hm => (Costs.unsigned .w32).bind fun place l hl =>
    (Costs.signed .w32).bind fun value k hk => Costs.context ?_
  split
  · next category hcategory =>
      obtain ⟨first, hfirst, hplace⟩ := CategoryIndex.exists_before? hcategory
      have hnumber := Nat.le_trans (Nat.mod_le first (2 ^ 32)) hfirst
      have huint := Nat.le_trans (Format.Size.uint_mono hnumber) hl.2
      refine Costs.pure (Writer.Within.context ?_)
      simp only [CategoryIndex.placeOf?, hplace, Option.map_some]
      exact (Writer.Within.arrayHeader hm.1 hm.2).bind
        ((Writer.Within.uint huint).bind (.int hk.2))
  · exact Costs.throw _

end ObjectStream
