import ObjectStream.Proofs.Header

/-!
# Scalars read back

A scalar that is written is one of its type and fits its form, and what is
written is the form alone. Every form is taken for the scalar by the reader of
the same type.
-/

namespace ObjectStream

/-- Whether a scalar fits its form: lengths take at most 32 bits, and numbers of nanoseconds 64. -/
def Scalar.Fits : Scalar → Datum → Prop
  | .duration, .int n => IntWidth.w64.holdsUnsigned n = true
  | .systemTime, .int n | .dateTime, .int n => IntWidth.w64.holdsSigned n = true
  | _, .text t => t.toUTF8.size < 2 ^ 32
  | _, .bytes b => b.size < 2 ^ 32
  | _, _ => True

def Form.scalar : Scalar → Datum → Form
  | .signed _, .int n | .systemTime, .int n | .dateTime, .int n => int n
  | _, .int n => uint n.toNat
  | _, .bool b => bool b
  | _, .single bits => f32 bits
  | _, .double bits => f64 bits
  | _, .text t => str t
  | .uuid, .bytes b => ext uuidSubtype b
  | _, .bytes b => blob b

def Scalar.Readable (s : Scalar) : Prop := s ≠ .str

namespace Writer

theorem guard_ok {P : Prop} [Decidable P] {x y : Writer Unit} {s s' : OutStream}
    (hy : ∀ e, y s ≠ .ok () e) (h : (if P then x else y) s = .ok () s') : P ∧ x s = .ok () s' := by
  split at h
  · next hp => exact ⟨hp, h⟩
  · exact absurd h (hy s')

theorem arrayHeader_ok {count : Nat} {s s' : OutStream} (h : arrayHeader count s = .ok () s') :
    count < 2 ^ 32 ∧ spell (.array count) s = .ok () s' := by
  rw [arrayHeader_eq] at h
  exact guard_ok (fun _ he => by cases he) h

theorem mapHeader_ok {count : Nat} {s s' : OutStream} (h : mapHeader count s = .ok () s') :
    count < 2 ^ 32 ∧ spell (.map count) s = .ok () s' := by
  rw [mapHeader_eq] at h
  exact guard_ok (fun _ he => by cases he) h

theorem throw_behind_ne_ok (n : Nat) (e : StreamError) (s s' : OutStream) :
    (do ensureRoom n; throw e : Writer Unit) s ≠ .ok () s' := by
  simp only [bind, EStateM.bind, ensureRoom]
  cases s.sink.refusal? n <;> exact fun h => by cases h

theorem blob_ok {bytes : ByteArray} {s s' : OutStream} (h : blob bytes s = .ok () s') :
    bytes.size < 2 ^ 32 ∧ spell (.blob bytes) s = .ok () s' := by
  rw [blob_eq] at h
  exact guard_ok (fun _ => throw_behind_ne_ok _ _ _ _) h

theorem str_ok {text : String} {s s' : OutStream} (h : str text s = .ok () s') :
    text.toUTF8.size < 2 ^ 32 ∧ spell (.str text) s = .ok () s' := by
  rw [str_eq] at h
  exact guard_ok (fun _ => throw_behind_ne_ok _ _ _ _) h

theorem ext_ok {subtype : Int} {payload : ByteArray} {s s' : OutStream}
    (h : ext subtype payload s = .ok () s') :
    payload.size < 2 ^ 32 ∧ spell (.ext subtype payload) s = .ok () s' := by
  rw [ext_eq] at h
  exact guard_ok (fun _ he => by cases he) h

theorem instant_ok {scalar : Scalar} {nanos : Int} {s s' : OutStream}
    (h : instant scalar nanos s = .ok () s') :
    IntWidth.w64.holdsSigned nanos = true ∧ spell (.int nanos) s = .ok () s' := by
  unfold instant at h
  rw [int_eq] at h
  exact guard_ok (fun _ he => by cases he) h

theorem scalar_ok {scalar : Scalar} {d : Datum} {s s' : OutStream}
    (h : Writer.scalar scalar d s = .ok () s') :
    scalar.holds d = true ∧ scalar.Fits d ∧ spell (.scalar scalar d) s = .ok () s' := by
  unfold Writer.scalar at h
  obtain ⟨hholds, hwrite⟩ := guard_ok (fun _ he => by cases he) h
  refine ⟨hholds, ?_⟩
  clear h
  cases scalar <;> cases d <;> simp only [Scalar.holds, Bool.false_eq_true] at hholds
  all_goals simp only [uint_eq, int_eq, bool_eq, f32_eq, f64_eq, clock_ofNanos] at hwrite
  case string.text | smallString.text | str.text => exact str_ok hwrite
  case bytes.bytes | bytesMut.bytes => exact blob_ok hwrite
  case uuid.bytes => exact ext_ok hwrite
  case systemTime.int | dateTime.int => exact instant_ok hwrite
  case duration.int n =>
      exact guard_ok (P := IntWidth.w64.holdsUnsigned n = true) (fun _ he => by cases he) hwrite
  all_goals exact ⟨trivial, hwrite⟩

end Writer

namespace Reader

namespace Takes

variable {c : Context}

theorem bool (b : Bool) : Takes c Reader.bool (Form.bool b c.byteOrder) b := by
  intro r tail _ hrest
  have hpeek := peek_of_rest hrest
  have hadvance : Reader.advance 1 r = .ok () (r.skip 1) := advance_of_rest hrest
  have hcodes : Format.falseCode ≠ Format.trueCode := by decide
  simp only [Reader.bool, Bind.bind, EStateM.bind, hpeek]
  cases b with
  | true =>
      simp only [if_true, EStateM.bind, hadvance]
      rfl
  | false =>
      simp only [Bool.false_eq_true, if_false, if_neg hcodes, if_true, EStateM.bind, hadvance]
      rfl

theorem nil : Takes c Reader.nil (Form.nil c.byteOrder) () := by
  intro r tail _ hrest
  have hpeek := peek_of_rest hrest
  have hadvance : Reader.advance 1 r = .ok () (r.skip 1) := advance_of_rest hrest
  simp only [Reader.nil, Bind.bind, EStateM.bind, hpeek, if_true, hadvance]
  rfl

theorem f32 (bits : UInt32) : Takes c Reader.f32 (Form.f32 bits c.byteOrder) bits := by
  have hbits : NumberKind.f32.Holds bits.toNat := NumberKind.holds_natural rfl bits.toNat_lt
  have hread := (length (c := c) hbits).map UInt32.ofNat
  rw [UInt32.ofNat_toNat] at hread
  exact orRestore (coded hread)

theorem f64 (bits : UInt64) : Takes c Reader.f64 (Form.f64 bits c.byteOrder) bits := by
  have hbits : NumberKind.f64.Holds bits.toNat := NumberKind.holds_natural rfl bits.toNat_lt
  have hread := (length (c := c) hbits).map UInt64.ofNat
  rw [UInt64.ofNat_toNat] at hread
  exact orRestore (coded hread)

theorem blob {bytes : ByteArray} (h : bytes.size < 2 ^ 32) :
    Takes c Reader.blob (Form.blob bytes c.byteOrder) bytes := by
  have hraw := raw (c := c) (unpacked bytes)
  rw [length_unpacked, packed_unpacked] at hraw
  exact orRestore ((blobHeader h).bind hraw)

theorem textOf (text : String) : Takes c (Reader.textOf text.toUTF8) [] text := by
  have htext : String.fromUTF8? text.toUTF8 = some text := by
    rw [String.toUTF8_eq_toByteArray, String.fromUTF8?, dif_pos text.isValidUTF8]
    rfl
  unfold Reader.textOf
  rw [htext]
  exact pure text

theorem str {text : String} (h : text.toUTF8.size < 2 ^ 32) :
    Takes c Reader.str (Form.str text c.byteOrder) text := by
  have hraw := raw (c := c) (unpacked text.toUTF8)
  rw [length_unpacked, packed_unpacked] at hraw
  have hread := (strHeader (c := c) h).bind (f := fun n => Reader.raw n >>= Reader.textOf)
    (hraw.bind (textOf text))
  rw [List.append_nil] at hread
  exact orRestore hread

/-- A short extension has its length in its code. -/
theorem extLength_of_fixext? {n : Nat} {code : UInt8} (h : Format.fixext? n = some code) :
    Reader.extLength code = Pure.pure n := by
  unfold Reader.extLength
  rw [Format.fixextLength?_of_fixext? h]

/-- The code and the length of an extension. -/
theorem extLength {n : Nat} (hn : n < 2 ^ 32) :
    Takes c (Reader.byte >>= Reader.extLength) (Form.extLength n c.byteOrder) n := by
  unfold Form.extLength
  cases hfix : Format.fixext? n with
  | some code =>
      apply Takes.code
      rw [extLength_of_fixext? hfix]
      exact pure n
  | none => exact sized hn rfl rfl rfl

theorem extHeader {subtype : Int} {n : Nat} (hsubtype : NumberKind.i8.Holds subtype)
    (hn : n < 2 ^ 32) :
    Takes c Reader.extHeader (Form.extHeader subtype n c.byteOrder) (subtype, n) := by
  have hsub := (number (c := c) hsubtype).map fun subtype => (subtype, n)
  have hread := (extLength (c := c) hn).bind
    (f := fun n => (fun subtype => (subtype, n)) <$> Reader.number .i8) hsub
  have heq : Reader.extHeader = Reader.orRestore ((Reader.byte >>= Reader.extLength) >>= fun n =>
      (fun subtype => (subtype, n)) <$> Reader.number .i8) := by
    unfold Reader.extHeader
    simp only [bind_assoc, map_eq_pure_bind]
  rw [heq]
  exact orRestore hread

theorem ext {subtype : Int} {payload : ByteArray} (hsubtype : NumberKind.i8.Holds subtype)
    (h : payload.size < 2 ^ 32) :
    Takes c Reader.ext (Form.ext subtype payload c.byteOrder) (subtype, payload) := by
  have hraw := (raw (c := c) (unpacked payload)).map fun bytes => (subtype, bytes)
  rw [length_unpacked, packed_unpacked] at hraw
  have hread := (extHeader hsubtype h).bind
    (f := fun header => (fun bytes => (header.1, bytes)) <$> Reader.raw header.2) hraw
  have heq : Reader.ext = Reader.orRestore (Reader.extHeader >>= fun header =>
      (fun bytes => (header.1, bytes)) <$> Reader.raw header.2) := by
    unfold Reader.ext
    simp only [map_eq_pure_bind]
  rw [heq]
  exact orRestore hread

theorem uuid {payload : ByteArray} (h : payload.size = 16) :
    Takes c Reader.uuid (Form.ext uuidSubtype payload c.byteOrder) payload := by
  have hsubtype : NumberKind.i8.Holds uuidSubtype := by
    simp [NumberKind.Holds, NumberKind.isSigned, NumberKind.modulus, NumberKind.width, uuidSubtype]
  have hof := (ext (c := c) hsubtype (show payload.size < 2 ^ 32 by omega)).bind
    (f := fun header => if header.1 = uuidSubtype then Pure.pure header.2
      else throw (.type (.uuidSubtype header.1))) (check rfl (pure payload))
  have hread := (orRestore hof).bind
    (f := fun payload => if payload.size = 16 then Pure.pure payload
      else throw (.type (.uuidLength payload.size))) (check h (pure payload))
  rwa [List.append_nil, List.append_nil] at hread

theorem char {n : Nat} (h : isScalarValue n = true) :
    Takes c Reader.char (Form.uint n c.byteOrder) n := by
  have hwidth : IntWidth.w32.holdsUnsigned n = true := by
    rw [IntWidth.holdsUnsigned_iff]
    simp only [isScalarValue, Bool.or_eq_true, Bool.and_eq_true, decide_eq_true_eq] at h
    simp only [IntWidth.bits]
    omega
  have hread := (unsigned (c := c) hwidth).bind
    (f := fun value : Nat => if isScalarValue value then Pure.pure value
      else throw (.type (.notScalarValue value))) (check h (pure n))
  rwa [List.append_nil] at hread

/-- A non-negative integer as a datum. -/
theorem natural {x : Reader Nat} {value : Int} (hvalue : 0 ≤ value)
    (hx : Takes c x (Form.uint value.toNat c.byteOrder) value.toNat) :
    Takes c ((fun n : Nat => Datum.int n) <$> x) (Form.uint value.toNat c.byteOrder)
      (.int value) := by
  have hread := hx.map fun n : Nat => Datum.int n
  rwa [Int.toNat_of_nonneg hvalue] at hread

theorem natural_unsigned {width : IntWidth} {value : Int}
    (h : width.holdsUnsigned value = true) :
    Takes c ((fun n : Nat => Datum.int n) <$> Reader.unsigned width)
      (Form.uint value.toNat c.byteOrder) (.int value) := by
  have hvalue := ((width.holdsUnsigned_iff value).1 h).1
  refine natural hvalue (unsigned ?_)
  rwa [Int.toNat_of_nonneg hvalue]

/-- Every scalar that fits its form is read back from it. -/
theorem scalar {s : Scalar} {d : Datum} (hs : s.Readable) (hholds : s.holds d = true)
    (hfits : s.Fits d) : Takes c (Reader.scalar s) (Form.scalar s d c.byteOrder) d := by
  cases s <;> cases d <;> simp only [Scalar.holds, Bool.false_eq_true] at hholds
  case bool.bool b => exact (bool b).map _
  case unsigned.int => exact natural_unsigned hholds
  case typeTag.int => exact natural_unsigned hholds
  case duration.int => exact natural_unsigned hfits
  case signed.int => exact (signed hholds).map _
  case systemTime.int =>
      rw [Reader.scalar_systemTime]
      exact (signed hfits).map _
  case dateTime.int => exact (signed hfits).map _
  case char.int value =>
      have hvalue : 0 ≤ value := by
        simp only [isScalarValue, Bool.or_eq_true, Bool.and_eq_true, decide_eq_true_eq] at hholds
        omega
      refine natural hvalue (char ?_)
      rwa [Int.toNat_of_nonneg hvalue]
  case float32.single bits => exact (f32 bits).map _
  case float64.double bits => exact (f64 bits).map _
  case string.text | smallString.text => exact (str hfits).map _
  case str.text => exact absurd rfl hs
  case bytes.bytes | bytesMut.bytes => exact (blob hfits).map _
  case uuid.bytes => exact (uuid (beq_iff_eq.1 hholds)).map _

end Takes

end Reader

/-! ## Error codes -/

def Form.errorCode (place : Nat) (value : Int) : Form := array 2 ++ (uint place ++ int value)

namespace CategoryIndex

variable {index : CategoryIndex} {name : String} {place : Nat}

theorem category?_of_before? (h : index.before? name = some place) :
    ∃ category, index.category? place = some category ∧ category.name = name := by
  obtain ⟨hlt, hname, -⟩ := List.findIdx?_eq_some_iff_getElem.1 h
  exact ⟨_, List.getElem?_eq_getElem hlt, beq_iff_eq.1 hname⟩

theorem before?_lt (h : index.before? name = some place) : place < index.size :=
  (List.findIdx?_eq_some_iff_getElem.1 h).1

theorem placeOf?_of_before? (h : index.before? name = some place) (hplace : place < 2 ^ 32) :
    index.placeOf? name = some place := by
  rw [placeOf?, h, Option.map_some, Nat.mod_eq_of_lt hplace]

theorem before?_of_placeOf? (hindex : index.size ≤ 2 ^ 32)
    (h : index.placeOf? name = some place) : index.before? name = some place := by
  obtain ⟨first, hfirst, rfl⟩ := Option.map_eq_some_iff.1 h
  rw [hfirst, Nat.mod_eq_of_lt (Nat.lt_of_lt_of_le (before?_lt hfirst) hindex)]

end CategoryIndex

theorem ErrorCode.same_iff (a b : ErrorCode) :
    a.same b = true ↔ a.value = b.value ∧ a.category.name = b.category.name := by
  simp [same]

namespace Reader

namespace Takes

variable {c : Context}

/-- An error code is read back as one that is the same. -/
theorem errorCode {code : ErrorCode} {place : Nat}
    (hplace : c.categories.before? code.category.name = some place) (hsize : place < 2 ^ 32)
    (hvalue : IntWidth.w32.holdsSigned code.value = true) :
    ∃ code', code.same code' = true ∧
      Takes c Reader.errorCode (Form.errorCode place code.value c.byteOrder) code' := by
  obtain ⟨category, hcategory, hname⟩ := CategoryIndex.category?_of_before? hplace
  refine ⟨⟨category, code.value⟩, (ErrorCode.same_iff _ _).2 ⟨rfl, hname.symm⟩, ?_⟩
  have hwidth := IntWidth.holdsUnsigned_of_lt hsize
  have hread : Takes c Reader.errorCode (Form.array 2 c.byteOrder ++
      (Form.uint place c.byteOrder ++ (Form.int code.value c.byteOrder ++ [])))
      ⟨category, code.value⟩ := by
    refine (arrayHeaderOf (by omega)).bind ((unsigned hwidth).bind ((signed hvalue).bind ?_))
    intro r tail hc _
    subst hc
    simp only [Reader.context, Bind.bind, EStateM.bind, hcategory]
    rfl
  rw [List.append_nil] at hread
  exact hread

end Takes

end Reader

end ObjectStream
