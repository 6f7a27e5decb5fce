import ObjectStream.Proofs.Takes

/-!
# Headers and integers read back

Every header and every integer in its shortest form is taken for what was
written. The code byte decides which field follows, and the sizes at which the
writer changes from one code to the next are the capacities of these fields.
-/

namespace ObjectStream

namespace NumberKind

theorem holds_natural {kind : NumberKind} {n : Nat} (hkind : kind.isSigned = false)
    (hn : n < kind.modulus) : kind.Holds n := by
  unfold Holds
  rw [hkind]
  simp only [Bool.false_eq_true, if_false]
  omega

end NumberKind

namespace IntWidth

theorem holdsUnsigned_iff (width : IntWidth) (value : Int) :
    width.holdsUnsigned value = true ↔ 0 ≤ value ∧ value < 2 ^ width.bits := by
  simp [holdsUnsigned]

theorem holdsSigned_iff (width : IntWidth) (value : Int) :
    width.holdsSigned value = true ↔
      -2 ^ (width.bits - 1) ≤ value ∧ value < 2 ^ (width.bits - 1) := by
  simp [holdsSigned]

theorem lt_of_holdsUnsigned {width : IntWidth} {value : Int}
    (h : width.holdsUnsigned value = true) : value < 2 ^ 64 := by
  have hlt := ((width.holdsUnsigned_iff value).1 h).2
  cases width <;> simp only [bits] at hlt <;> omega

theorem holdsUnsigned_of_lt {n : Nat} (h : n < 2 ^ 32) : w32.holdsUnsigned n = true := by
  rw [holdsUnsigned_iff]
  simp only [bits]
  omega

theorem range_of_holdsSigned {width : IntWidth} {value : Int}
    (h : width.holdsSigned value = true) : -2 ^ 63 ≤ value ∧ value < 2 ^ 63 := by
  obtain ⟨hlow, hhigh⟩ := (width.holdsSigned_iff value).1 h
  cases width <;> simp only [bits, Nat.add_one_sub_one] at hlow hhigh <;> omega

end IntWidth

/-- A short negative integer is its own code. -/
theorem Form.number_fixint {value : Int} (hlow : -32 ≤ value) (hneg : value < 0)
    (order : ByteOrder) : Form.number .i8 value order = [UInt8.ofNat (value + 256).toNat] := by
  have hpattern : NumberKind.i8.pattern value = (value + 256).toNat := by
    simp only [NumberKind.pattern, NumberKind.modulus, NumberKind.width]
    omega
  have hdigits : littleDigits 1 (value + 256).toNat = [UInt8.ofNat (value + 256).toNat] := by
    rw [littleDigits, littleDigits, Nat.mod_eq_of_lt (by omega)]
  cases order <;>
    simp [Form.number, NumberKind.bytes, NumberKind.width, ByteOrder.layOut, hpattern, hdigits]

namespace Reader

namespace Takes

variable {c : Context}

theorem length8 {n : Nat} (h : n < 2 ^ 8) :
    Takes c (Reader.length .u8) (Form.number .u8 n c.byteOrder) n :=
  length (NumberKind.holds_natural rfl h)

theorem length16 {n : Nat} (h : n < 2 ^ 16) :
    Takes c (Reader.length .u16) (Form.number .u16 n c.byteOrder) n :=
  length (NumberKind.holds_natural rfl h)

theorem length32 {n : Nat} (h : n < 2 ^ 32) :
    Takes c (Reader.length .u32) (Form.number .u32 n c.byteOrder) n :=
  length (NumberKind.holds_natural rfl h)

/-- A code that decides what follows. -/
theorem code {α : Type} {f : UInt8 → Reader α} {b : UInt8} {p : List UInt8} {a : α}
    (h : Takes c (f b) p a) : Takes c (Reader.byte >>= f) (b :: p) a :=
  (Takes.byte b).bind h

theorem coded {α : Type} {f : UInt8 → Reader α} {b : UInt8} {kind : NumberKind} {value : Int}
    {a : α} (h : Takes c (f b) (Form.number kind value c.byteOrder) a) :
    Takes c (Reader.byte >>= f) (Form.coded b kind value c.byteOrder) a :=
  code h

theorem wide {f : UInt8 → Reader Nat} {code16 code32 : UInt8} {n : Nat} (hn : n < 2 ^ 32)
    (h16 : f code16 = Reader.length .u16) (h32 : f code32 = Reader.length .u32) :
    Takes c (Reader.byte >>= f) (Form.wide n code16 code32 c.byteOrder) n := by
  unfold Form.wide
  split
  · next h =>
      exact coded (by rw [h16]; exact length16 h)
  · exact coded (by rw [h32]; exact length32 hn)

theorem sized {f : UInt8 → Reader Nat} {code8 code16 code32 : UInt8} {n : Nat} (hn : n < 2 ^ 32)
    (h8 : f code8 = Reader.length .u8) (h16 : f code16 = Reader.length .u16)
    (h32 : f code32 = Reader.length .u32) :
    Takes c (Reader.byte >>= f) (Form.sized n code8 code16 code32 c.byteOrder) n := by
  unfold Form.sized
  split
  · next h =>
      exact coded (by rw [h8]; exact length8 h)
  · exact wide hn h16 h32

theorem toNat_shortCode {first : UInt8} {n : Nat} (hn : n < 2 ^ 8) :
    (Writer.shortCode first n - first).toNat = n := by
  unfold Writer.shortCode
  rw [UInt8.add_comm, UInt8.add_sub_cancel, UInt8.toNat_ofNat']
  exact Nat.mod_eq_of_lt hn

/-- A short code keeps its payload, as long as it stays within the codes of its family. -/
theorem short {f : UInt8 → Reader Nat} {first : UInt8} {n : Nat}
    (h : f (Writer.shortCode first n) =
      Pure.pure (Writer.shortCode first n - first).toNat) (hn : n < 2 ^ 8) :
    Takes c (Reader.byte >>= f) [Writer.shortCode first n] n := by
  apply code
  rw [h, toNat_shortCode hn]
  exact pure n

theorem mapHeader {n : Nat} (hn : n < 2 ^ 32) :
    Takes c Reader.mapHeader (Form.map n c.byteOrder) n := by
  apply orRestore
  unfold Form.map
  split
  · next hshort =>
      have hcode : ∀ m < 16, 0x80 ≤ Writer.shortCode Format.fixmap m ∧
          Writer.shortCode Format.fixmap m ≤ 0x8f := by decide
      exact short (if_pos (hcode n (by omega))) (by omega)
  · exact wide hn rfl rfl

theorem arrayHeader {n : Nat} (hn : n < 2 ^ 32) :
    Takes c Reader.arrayHeader (Form.array n c.byteOrder) n := by
  apply orRestore
  unfold Form.array
  split
  · next hshort =>
      have hcode : ∀ m < 16, 0x90 ≤ Writer.shortCode Format.fixarray m ∧
          Writer.shortCode Format.fixarray m ≤ 0x9f := by decide
      exact short (if_pos (hcode n (by omega))) (by omega)
  · exact wide hn rfl rfl

/-- A header that is taken for the count that is asked for. -/
theorem arrayHeaderOf_of {n : Nat} {bytes : List UInt8} (h : Takes c Reader.arrayHeader bytes n) :
    Takes c (Reader.arrayHeaderOf n) bytes () := by
  apply orRestore
  have hread := h.bind
    (f := fun actual => if actual = n then Pure.pure () else throw (.countMismatch n actual))
    (check rfl (pure ()))
  rwa [List.append_nil] at hread

theorem arrayHeaderOf {n : Nat} (hn : n < 2 ^ 32) :
    Takes c (Reader.arrayHeaderOf n) (Form.array n c.byteOrder) () :=
  arrayHeaderOf_of (arrayHeader hn)

theorem blobHeader {n : Nat} (hn : n < 2 ^ 32) :
    Takes c Reader.blobHeader (Form.blobHeader n c.byteOrder) n :=
  orRestore (sized hn rfl rfl rfl)

theorem strHeader {n : Nat} (hn : n < 2 ^ 32) :
    Takes c Reader.strHeader (Form.strHeader n c.byteOrder) n := by
  apply orRestore
  unfold Form.strHeader
  split
  · next hshort =>
      have hcode : ∀ m < 32, 0xa0 ≤ Writer.shortCode Format.fixstr m ∧
          Writer.shortCode Format.fixstr m ≤ 0xbf := by decide
      exact short (if_pos (hcode n (by omega))) (by omega)
  · exact sized hn rfl rfl rfl

/-! ## Integers -/

theorem uint {n : Nat} (hn : n < 2 ^ 64) :
    Takes c Reader.uint (Form.uint n c.byteOrder) n := by
  apply orRestore
  unfold Form.uint
  split
  · next h =>
      apply code
      rw [Format.family_fixint h, UInt8.toNat_ofNat_of_lt' (Nat.lt_trans h (by decide))]
      exact pure n
  · split
    · next h => exact coded (length8 h)
    · split
      · next h => exact coded (length16 h)
      · split
        · next h => exact coded (length32 h)
        · exact coded (length (NumberKind.holds_natural rfl hn))

theorem intBody {code : UInt8} {kind : NumberKind} {value : Int}
    (hbody : Reader.intBody code = Reader.number kind) (h : kind.Holds value) :
    Takes c (Reader.intBody code) (Form.number kind value c.byteOrder) value := by
  rw [hbody]
  exact number h

/-- A non-negative number below `2 ^ 63` behind the code of an unsigned integer. -/
theorem uintBody {code : UInt8} {kind : NumberKind} {n : Nat}
    (hbody : Reader.uintBody code = Reader.length kind) (h : kind.Holds n) (hn : n < 2 ^ 63) :
    Takes c (Reader.uintBody code >>= fun value : Nat =>
      if value < 2 ^ 63 then Pure.pure (value : Int) else throw (.type (.beyondSigned value)))
      (Form.number kind n c.byteOrder) (n : Int) := by
  rw [hbody]
  have := (length (c := c) h).bind (f := fun value : Nat =>
    if value < 2 ^ 63 then Pure.pure (value : Int) else throw (.type (.beyondSigned value)))
    (check hn (pure (n : Int)))
  rwa [List.append_nil] at this

theorem int_natural {n : Nat} (hn : n < 2 ^ 63) :
    Takes c Reader.int (Form.uint n c.byteOrder) (n : Int) := by
  apply orRestore
  unfold Form.uint
  split
  · next h =>
      apply code
      rw [Format.family_fixint h, UInt8.toNat_ofNat_of_lt' (Nat.lt_trans h (by decide))]
      exact pure (n : Int)
  · split
    · next h => exact coded (uintBody rfl (NumberKind.holds_natural rfl h) hn)
    · split
      · next h => exact coded (uintBody rfl (NumberKind.holds_natural rfl h) hn)
      · split
        · next h => exact coded (uintBody rfl (NumberKind.holds_natural rfl h) hn)
        · exact coded (uintBody rfl
            (NumberKind.holds_natural rfl (show n < 2 ^ 64 by omega)) hn)

/-- The code of a short negative integer says it. -/
theorem fixintValue_ofNat {value : Int} (hlow : -32 ≤ value) (hneg : value < 0) :
    fixintValue (UInt8.ofNat (value + 256).toNat) = value := by
  have hnat : (UInt8.ofNat (value + 256).toNat).toNat = (value + 256).toNat :=
    UInt8.toNat_ofNat_of_lt' (by rw [UInt8.size]; omega)
  unfold fixintValue
  omega

theorem fixint {value : Int} (hlow : -32 ≤ value) (hneg : value < 0) :
    Takes c Reader.int (Form.number .i8 value c.byteOrder) value := by
  rw [Form.number_fixint hlow hneg]
  apply orRestore
  apply code
  rw [Format.family_negativeFixint hlow hneg, fixintValue_ofNat hlow hneg]
  exact pure value

theorem int {value : Int} (hlow : -2 ^ 63 ≤ value) (hhigh : value < 2 ^ 63) :
    Takes c Reader.int (Form.int value c.byteOrder) value := by
  unfold Form.int
  split
  · next h =>
      obtain ⟨n, rfl⟩ := Int.eq_ofNat_of_zero_le h
      exact int_natural (by omega)
  · split
    · next h => exact fixint h (by omega)
    · apply orRestore
      have hholds (kind : NumberKind) (hkind : kind.isSigned = true)
          (h : -(kind.modulus / 2 : Int) ≤ value) (h' : value < (kind.modulus / 2 : Int)) :
          kind.Holds value := by
        unfold NumberKind.Holds
        rw [if_pos hkind]
        exact ⟨h, h'⟩
      split
      · exact coded (intBody rfl (hholds .i8 rfl
          (by simp [NumberKind.modulus, NumberKind.width]; omega)
          (by simp [NumberKind.modulus, NumberKind.width]; omega)))
      · split
        · exact coded (intBody rfl (hholds .i16 rfl
            (by simp [NumberKind.modulus, NumberKind.width]; omega)
            (by simp [NumberKind.modulus, NumberKind.width]; omega)))
        · split
          · exact coded (intBody rfl (hholds .i32 rfl
              (by simp [NumberKind.modulus, NumberKind.width]; omega)
              (by simp [NumberKind.modulus, NumberKind.width]; omega)))
          · exact coded (intBody rfl (hholds .i64 rfl
              (by simp [NumberKind.modulus, NumberKind.width]; omega)
              (by simp [NumberKind.modulus, NumberKind.width]; omega)))

/-- What is taken for an unsigned integer is taken for one of a type that holds it. -/
theorem unsigned_of {width : IntWidth} {n : Nat} {bytes : List UInt8}
    (h : width.holdsUnsigned n = true) (huint : Takes c Reader.uint bytes n) :
    Takes c (Reader.unsigned width) bytes n := by
  have hread := huint.bind (f := fun value : Nat =>
    if width.holdsUnsigned value then Pure.pure value
    else throw (.type (.narrow value (.unsigned width)))) (check h (pure n))
  rw [List.append_nil] at hread
  exact orRestore hread

theorem unsigned {width : IntWidth} {n : Nat} (h : width.holdsUnsigned n = true) :
    Takes c (Reader.unsigned width) (Form.uint n c.byteOrder) n := by
  have hn := IntWidth.lt_of_holdsUnsigned h
  exact unsigned_of h (uint (by omega))

/-- What is taken for a signed integer is taken for one of a type that holds it. -/
theorem signed_of {width : IntWidth} {value : Int} {bytes : List UInt8}
    (h : width.holdsSigned value = true) (hint : Takes c Reader.int bytes value) :
    Takes c (Reader.signed width) bytes value := by
  have hread := hint.bind (f := fun value =>
    if width.holdsSigned value then Pure.pure value
    else throw (.type (.narrow value (.signed width)))) (check h (pure value))
  rw [List.append_nil] at hread
  exact orRestore hread

theorem signed {width : IntWidth} {value : Int} (h : width.holdsSigned value = true) :
    Takes c (Reader.signed width) (Form.int value c.byteOrder) value := by
  have hrange := IntWidth.range_of_holdsSigned h
  exact signed_of h (int hrange.1 hrange.2)

end Takes

end Reader

end ObjectStream
