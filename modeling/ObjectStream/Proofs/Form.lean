import ObjectStream.Writer.Scalar

/-!
# Forms

The bytes that a header or a scalar is written as, by the byte order of the
stream. Every plain writer reserves room for its form and then writes it piece
by piece; on a stream that is the same as writing the form in one piece, which
is what `Writer.spell` does.
-/

namespace ObjectStream

/-- Bytes that depend on the byte order of the stream. -/
abbrev Form := ByteOrder → List UInt8

namespace Form

def plain (bytes : List UInt8) : Form := fun _ => bytes

def number (kind : NumberKind) (value : Int) : Form := fun order => kind.bytes order value

instance : Append Form := ⟨fun a b order => a order ++ b order⟩

def coded (code : UInt8) (kind : NumberKind) (value : Int) : Form :=
  plain [code] ++ number kind value

/-- A length behind the code of the smallest field of two or four bytes that holds it. -/
def wide (length : Nat) (code16 code32 : UInt8) : Form :=
  if length < 2 ^ 16 then coded code16 .u16 length else coded code32 .u32 length

def sized (length : Nat) (code8 code16 code32 : UInt8) : Form :=
  if length < 2 ^ 8 then coded code8 .u8 length else wide length code16 code32

def map (count : Nat) : Form :=
  if count ≤ 15 then plain [Writer.shortCode Format.fixmap count]
  else wide count Format.map16 Format.map32

def array (count : Nat) : Form :=
  if count ≤ 15 then plain [Writer.shortCode Format.fixarray count]
  else wide count Format.array16 Format.array32

def blobHeader (length : Nat) : Form := sized length Format.bin8 Format.bin16 Format.bin32

def blob (bytes : ByteArray) : Form := blobHeader bytes.size ++ plain (unpacked bytes)

def strHeader (length : Nat) : Form :=
  if length ≤ 31 then plain [Writer.shortCode Format.fixstr length]
  else sized length Format.str8 Format.str16 Format.str32

def str (text : String) : Form :=
  strHeader text.toUTF8.size ++ plain (unpacked text.toUTF8)

/-- The code and the length of an extension, without its subtype. -/
def extLength (length : Nat) : Form :=
  match Format.fixext? length with
  | some code => plain [code]
  | none => sized length Format.ext8 Format.ext16 Format.ext32

def extHeader (subtype : Int) (length : Nat) : Form := extLength length ++ number .i8 subtype

def ext (subtype : Int) (payload : ByteArray) : Form :=
  extHeader subtype payload.size ++ plain (unpacked payload)

def nil : Form := plain [Format.nil]

def bool (b : Bool) : Form := plain [if b then Format.trueCode else Format.falseCode]

def uint (value : Nat) : Form :=
  if value < 2 ^ 7 then plain [UInt8.ofNat value]
  else if value < 2 ^ 8 then coded Format.uint8 .u8 value
  else if value < 2 ^ 16 then coded Format.uint16 .u16 value
  else if value < 2 ^ 32 then coded Format.uint32 .u32 value
  else coded Format.uint64 .u64 value

def int (value : Int) : Form :=
  if 0 ≤ value then uint value.toNat
  else if -32 ≤ value then number .i8 value
  else if -2 ^ 7 ≤ value then coded Format.int8 .i8 value
  else if -2 ^ 15 ≤ value then coded Format.int16 .i16 value
  else if -2 ^ 31 ≤ value then coded Format.int32 .i32 value
  else coded Format.int64 .i64 value

def f32 (bits : UInt32) : Form := coded Format.float32 .f32 bits.toNat

def f64 (bits : UInt64) : Form := coded Format.float64 .f64 bits.toNat

def nullPointer : Form := array 2 ++ uint nullTag ++ nil

def pointer (tag : TypeTag) : Form := array 2 ++ uint tag

/-- A pointer to an object that was written before. -/
def reference (tag : TypeTag) (serial : Nat) : Form := pointer tag ++ uint serial

/-! ## Lengths -/

@[simp] theorem length_plain (bytes : List UInt8) (order : ByteOrder) :
    (plain bytes order).length = bytes.length := rfl

@[simp] theorem length_number (kind : NumberKind) (value : Int) (order : ByteOrder) :
    (number kind value order).length = kind.width := by
  simp [number]

theorem append_apply (a b : Form) (order : ByteOrder) : (a ++ b) order = a order ++ b order := rfl

@[simp] theorem length_append (a b : Form) (order : ByteOrder) :
    ((a ++ b) order).length = (a order).length + (b order).length := by
  simp [append_apply]

@[simp] theorem length_coded (code : UInt8) (kind : NumberKind) (value : Int)
    (order : ByteOrder) : (coded code kind value order).length = 1 + kind.width := by
  simp [coded]

theorem length_wide (length : Nat) (code16 code32 : UInt8) (order : ByteOrder) :
    (wide length code16 code32 order).length = if length < 2 ^ 16 then 3 else 5 := by
  unfold wide
  split <;> simp [NumberKind.width]

theorem length_sized (length : Nat) (code8 code16 code32 : UInt8) (order : ByteOrder) :
    (sized length code8 code16 code32 order).length = Format.Size.blob length := by
  unfold sized Format.Size.blob
  split
  · simp [NumberKind.width]
  · exact length_wide length code16 code32 order

theorem length_array (count : Nat) (order : ByteOrder) :
    (array count order).length = Format.Size.array count := by
  unfold array Format.Size.array
  split
  · rfl
  · exact length_wide count _ _ order

theorem length_map (count : Nat) (order : ByteOrder) :
    (map count order).length = Format.Size.map count := by
  unfold map Format.Size.map Format.Size.array
  split
  · rfl
  · exact length_wide count _ _ order

theorem length_strHeader (length : Nat) (order : ByteOrder) :
    (strHeader length order).length = Format.Size.str length := by
  unfold strHeader Format.Size.str
  split
  · rfl
  · exact length_sized length _ _ _ order

theorem length_extLength (length : Nat) (order : ByteOrder) :
    (extLength length order).length + 1 = Format.Size.ext length := by
  unfold extLength Format.Size.ext
  cases Format.fixext? length with
  | some code => rfl
  | none => simp only [length_sized]

theorem length_uint (value : Nat) (order : ByteOrder) :
    (uint value order).length = Format.Size.uint value := by
  unfold uint Format.Size.uint
  repeat' split
  all_goals simp [NumberKind.width]

theorem length_int (value : Int) (order : ByteOrder) :
    (int value order).length = Format.Size.int value := by
  unfold int Format.Size.int
  split
  · exact length_uint _ order
  · repeat' split
    all_goals simp [NumberKind.width]

theorem length_blobHeader (length : Nat) (order : ByteOrder) :
    (blobHeader length order).length = Format.Size.blob length :=
  length_sized length _ _ _ order

theorem length_blob (bytes : ByteArray) (order : ByteOrder) :
    (blob bytes order).length = Format.Size.blob bytes.size + bytes.size := by
  rw [blob, length_append, length_blobHeader, length_plain, length_unpacked]

theorem length_str (text : String) (order : ByteOrder) :
    (str text order).length = Format.Size.str text.toUTF8.size + text.toUTF8.size := by
  rw [str, length_append, length_strHeader, length_plain, length_unpacked]

theorem length_extHeader (subtype : Int) (length : Nat) (order : ByteOrder) :
    (extHeader subtype length order).length = Format.Size.ext length := by
  rw [extHeader, length_append, length_number, NumberKind.width, length_extLength]

theorem length_ext (subtype : Int) (payload : ByteArray) (order : ByteOrder) :
    (ext subtype payload order).length = Format.Size.ext payload.size + payload.size := by
  rw [ext, length_append, length_extHeader, length_plain, length_unpacked]

theorem length_nullPointer (order : ByteOrder) : (nullPointer order).length = 3 := by
  rw [nullPointer, length_append, length_append, length_array, length_uint]
  rfl

end Form

/-! ## Writers of forms -/

namespace Writer

def spell (f : Form) : Writer Unit := fun s => raw (packed (f s.context.byteOrder)) s

theorem raw_eq (bytes : ByteArray) : raw bytes = spell (.plain (unpacked bytes)) := rfl

theorem byte_eq (b : UInt8) : byte b = spell (.plain [b]) := rfl

theorem number_eq (kind : NumberKind) (value : Int) :
    number kind value = spell (.number kind value) := rfl

/-- The room in front of two pieces makes them one. -/
theorem reserve_append (n : Nat) (a b : Form)
    (h : ∀ order, ((a ++ b) order).length = n) :
    (do ensureRoom n; spell a; spell b) = spell (a ++ b) := by
  funext s
  have hn := h s.context.byteOrder
  rw [Form.length_append] at hn
  have happ : packed ((a ++ b) s.context.byteOrder) =
      packed (a s.context.byteOrder) ++ packed (b s.context.byteOrder) := packed_append _ _
  have hsize : (packed (a s.context.byteOrder) ++ packed (b s.context.byteOrder)).size = n := by
    simpa using hn
  simp only [bind, EStateM.bind, ensureRoom, spell, raw, happ, hsize]
  cases hroom : s.sink.refusal? n with
  | some e => rfl
  | none =>
      have ha : s.sink.refusal? (packed (a s.context.byteOrder)).size = none :=
        s.sink.refusal?_of_le hroom (by rw [size_packed]; omega)
      have hb : (s.sink.append (packed (a s.context.byteOrder))).refusal?
          (packed (b s.context.byteOrder)).size = none :=
        s.sink.refusal?_append _ (by simpa [← hn] using hroom)
      simp only [ha, hb, ByteSink.append_append]

/-- Room for a piece is what the piece makes sure of itself. -/
theorem reserve_spell (n : Nat) (f : Form) (h : ∀ order, (f order).length = n) :
    (do ensureRoom n; spell f) = spell f := by
  funext s
  have hn := h s.context.byteOrder
  simp only [bind, EStateM.bind, ensureRoom, spell, raw, size_packed, hn]
  cases hroom : s.sink.refusal? n with
  | some e => rfl
  | none => simp only [hn, hroom]

theorem coded_eq (code : UInt8) (kind : NumberKind) (value : Int) :
    coded code kind value = spell (.coded code kind value) := by
  simp only [coded, byte_eq, number_eq]
  exact reserve_append _ _ _ fun _ => by simp

theorem wide_eq (length : Nat) (code16 code32 : UInt8) :
    sizedCode.wide length code16 code32 =
      if length < 2 ^ 32 then spell (.wide length code16 code32)
      else throw (.invalidArgument (.length length)) := by
  unfold sizedCode.wide Form.wide
  split
  · rw [if_pos (by omega)]
    exact coded_eq code16 .u16 length
  · split
    · exact coded_eq code32 .u32 length
    · rfl

theorem sizedCode_none (length : Nat) (code16 code32 : UInt8) :
    sizedCode length none code16 code32 =
      if length < 2 ^ 32 then spell (.wide length code16 code32)
      else throw (.invalidArgument (.length length)) :=
  wide_eq length code16 code32

theorem sizedCode_some (length : Nat) (code8 code16 code32 : UInt8) :
    sizedCode length (some code8) code16 code32 =
      if length < 2 ^ 32 then spell (.sized length code8 code16 code32)
      else throw (.invalidArgument (.length length)) := by
  unfold sizedCode Form.sized
  dsimp only
  split
  · rw [if_pos (by omega)]
    exact coded_eq code8 .u8 length
  · exact wide_eq length code16 code32

theorem mapHeader_eq (count : Nat) :
    mapHeader count =
      if count < 2 ^ 32 then spell (.map count) else throw (.invalidArgument (.length count)) := by
  unfold mapHeader Form.map
  split
  · rw [if_pos (by omega), byte_eq]
  · exact sizedCode_none count _ _

theorem arrayHeader_eq (count : Nat) :
    arrayHeader count =
      if count < 2 ^ 32 then spell (.array count)
      else throw (.invalidArgument (.length count)) := by
  unfold arrayHeader Form.array
  split
  · rw [if_pos (by omega), byte_eq]
  · exact sizedCode_none count _ _

theorem blobHeader_eq (length : Nat) :
    blobHeader length =
      if length < 2 ^ 32 then spell (.blobHeader length)
      else throw (.invalidArgument (.length length)) :=
  sizedCode_some length _ _ _

theorem blob_eq (bytes : ByteArray) :
    blob bytes =
      if bytes.size < 2 ^ 32 then spell (.blob bytes)
      else (do
        ensureRoom (Format.Size.blob bytes.size + bytes.size)
        throw (.invalidArgument (.length bytes.size))) := by
  unfold blob
  rw [blobHeader_eq, raw_eq]
  split
  · exact reserve_append _ _ _ (Form.length_blob bytes)
  · rfl

theorem str_eq (text : String) :
    str text =
      if text.toUTF8.size < 2 ^ 32 then spell (.str text)
      else (do
        ensureRoom (Format.Size.str text.toUTF8.size + text.toUTF8.size)
        throw (.invalidArgument (.length text.toUTF8.size))) := by
  have hstr := reserve_append (Format.Size.str text.toUTF8.size + text.toUTF8.size)
    (.strHeader text.toUTF8.size) (.plain (unpacked text.toUTF8)) (Form.length_str text)
  unfold str Form.str
  rw [← hstr]
  unfold Form.strHeader
  simp only [raw_eq]
  by_cases hshort : text.toUTF8.size ≤ 31
  · simp only [hshort, if_true, show text.toUTF8.size < 2 ^ 32 by omega]
    rfl
  · simp only [hshort, if_false, sizedCode_some]
    split
    · rfl
    · rfl

theorem extHeader_eq (subtype : Int) (length : Nat) :
    extHeader subtype length =
      if length < 2 ^ 32 then spell (.extHeader subtype length)
      else throw (.invalidArgument (.extensionLength length)) := by
  have hext := reserve_append (Format.Size.ext length) (.extLength length) (.number .i8 subtype)
    (Form.length_extHeader subtype length)
  unfold extHeader Form.extHeader
  rw [← hext]
  unfold Format.Size.ext Form.extLength
  cases hfix : Format.fixext? length with
  | some code =>
      have hlt : length < 2 ^ 32 := by
        unfold Format.fixext? at hfix
        split at hfix <;> first | omega | cases hfix
      rw [if_pos hlt]
      rfl
  | none =>
      by_cases hlt : length < 2 ^ 32
      · simp only [Nat.not_le.2 hlt, if_false, if_pos hlt, sizedCode_some]
        rfl
      · simp only [Nat.le_of_not_lt hlt, if_true, if_neg hlt]
        rfl

theorem ext_eq (subtype : Int) (payload : ByteArray) :
    ext subtype payload =
      if payload.size < 2 ^ 32 then spell (.ext subtype payload)
      else throw (.invalidArgument (.extensionLength payload.size)) := by
  have hext := reserve_append (Format.Size.ext payload.size + payload.size)
    (.extHeader subtype payload.size) (.plain (unpacked payload)) (Form.length_ext subtype payload)
  unfold ext
  rw [extHeader_eq, raw_eq]
  by_cases hlt : payload.size < 2 ^ 32
  · simp only [if_pos hlt]
    exact hext
  · simp only [if_neg hlt]
    rfl

theorem nil_eq : nil = spell .nil := rfl

theorem bool_eq (b : Bool) : bool b = spell (.bool b) := rfl

/-- The announced size is that of a code and a number. -/
theorem reserve_coded {n : Nat} {code : UInt8} {kind : NumberKind} {value : Int}
    (h : n = 1 + kind.width) :
    (do ensureRoom n; byte code; number kind value) = spell (.coded code kind value) :=
  h ▸ coded_eq code kind value

theorem uint_eq (value : Nat) : uint value = spell (.uint value) := by
  unfold uint Form.uint Format.Size.uint
  repeat' split
  · exact reserve_spell 1 (.plain [UInt8.ofNat value]) fun _ => rfl
  all_goals exact reserve_coded rfl

theorem int_eq (value : Int) : int value = spell (.int value) := by
  unfold int Form.int Format.Size.int
  repeat' split
  · exact uint_eq _
  · exact reserve_spell 1 (.number .i8 value) (Form.length_number .i8 value)
  all_goals exact reserve_coded rfl

theorem f32_eq (bits : UInt32) : f32 bits = spell (.f32 bits) := coded_eq _ _ _

theorem f64_eq (bits : UInt64) : f64 bits = spell (.f64 bits) := coded_eq _ _ _

/-- Room for more is room for less. -/
theorem ensureRoom_again {α : Type} {m n : Nat} (h : m ≤ n) (x : Writer α) :
    (do ensureRoom n; ensureRoom m; x) = (do ensureRoom n; x) := by
  funext s
  simp only [bind, EStateM.bind, ensureRoom]
  cases hroom : s.sink.refusal? n with
  | some e => rfl
  | none => simp only [s.sink.refusal?_of_le hroom h]

theorem nullPointer_eq : nullPointer = spell .nullPointer := by
  have hpair := reserve_append 2 (.array 2) (.uint nullTag) fun order => by
    rw [Form.length_append, Form.length_array, Form.length_uint]
    rfl
  have htriple := reserve_append 3 (.array 2 ++ .uint nullTag) .nil Form.length_nullPointer
  have harray : arrayHeader 2 = spell (.array 2) := by
    rw [arrayHeader_eq, if_pos (by decide)]
  rw [Form.nullPointer, ← htriple, ← hpair, nullPointer, harray, uint_eq, nil_eq]
  simp only [bind_assoc]
  rw [ensureRoom_again (by decide)]

end Writer

end ObjectStream
