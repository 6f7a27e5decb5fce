import ObjectStream.Proofs.Skipping

/-!
# Spellings

The bytes of a value are a sequence of atoms: headers with what belongs to them,
and scalars. Most atoms can be spelled in several ways. A length stands in the
code itself or in a field behind it, which may be wider than it has to be, and an
integer behind the code of any kind of number that holds it. A reader of an atom
goes by what is spelled and not by the way.
-/

namespace ObjectStream

/-- A scalar, or a header with the bytes that it announces. -/
inductive Atom
  | nil
  | bool (b : Bool)
  | int (n : Int)
  | single (bits : UInt32)
  | double (bits : UInt64)
  | array (count : Nat)
  | map (count : Nat)
  | str (bytes : ByteArray)
  | blob (bytes : ByteArray)
  | ext (subtype : Int) (payload : ByteArray)

/-- The codes of one family that announce a number: those that say it by themselves, and those with
a field behind them. -/
structure Heading where
  family : Format.Family
  short? : Nat → Option UInt8
  fields : List (UInt8 × NumberKind)
  family_short : ∀ n code, short? n = some code → Format.family code = family
  family_field : ∀ field ∈ fields, Format.family field.1 = family

namespace Heading

/-- The code `first` with a number up to `last` added to it. -/
def inline (first : UInt8) (last n : Nat) : Option UInt8 :=
  if n ≤ last then some (Writer.shortCode first n) else none

theorem inline_eq_some {first code : UInt8} {last n : Nat} (h : inline first last n = some code) :
    n ≤ last ∧ code = Writer.shortCode first n := by
  unfold inline at h
  split at h
  · next hn =>
      cases h
      exact ⟨hn, rfl⟩
  · cases h

theorem family_inline {first code : UInt8} {last n : Nat} {family : Format.Family}
    (h : inline first last n = some code)
    (hall : ∀ m < last + 1, Format.family (Writer.shortCode first m) = family) :
    Format.family code = family := by
  obtain ⟨hn, rfl⟩ := inline_eq_some h
  exact hall n (by omega)

def array : Heading where
  family := .array
  short? := inline Format.fixarray 15
  fields := [(Format.array16, .u16), (Format.array32, .u32)]
  family_short _ _ h := family_inline h (by decide)
  family_field := by decide

def map : Heading where
  family := .map
  short? := inline Format.fixmap 15
  fields := [(Format.map16, .u16), (Format.map32, .u32)]
  family_short _ _ h := family_inline h (by decide)
  family_field := by decide

def str : Heading where
  family := .str
  short? := inline Format.fixstr 31
  fields := [(Format.str8, .u8), (Format.str16, .u16), (Format.str32, .u32)]
  family_short _ _ h := family_inline h (by decide)
  family_field := by decide

def blob : Heading where
  family := .bin
  short? := fun _ => none
  fields := [(Format.bin8, .u8), (Format.bin16, .u16), (Format.bin32, .u32)]
  family_short := nofun
  family_field := by decide

def ext : Heading where
  family := .ext
  short? := Format.fixext?
  fields := [(Format.ext8, .u8), (Format.ext16, .u16), (Format.ext32, .u32)]
  family_short _ _ h := Format.family_ext (Format.fixextLength?_of_fixext? h)
  family_field := by decide

inductive Spells (h : Heading) (n : Nat) : Form → Prop
  | short {code : UInt8} : h.short? n = some code → Spells h n (.plain [code])
  | field {code : UInt8} {kind : NumberKind} : (code, kind) ∈ h.fields → kind.Holds n →
      Spells h n (.coded code kind n)

theorem Spells.opens {h : Heading} {n : Nat} {f : Form} (hf : h.Spells n f) (order : ByteOrder) :
    StartsWith (fun code => Format.family code = h.family) (f order) := by
  cases hf with
  | short hcode => exact ⟨_, [], rfl, h.family_short n _ hcode⟩
  | field hfield _ => exact ⟨_, _, rfl, h.family_field _ hfield⟩

end Heading

/-- The codes of integers with the kinds of number behind them. -/
def Format.intFields : List (UInt8 × NumberKind) :=
  [(uint8, .u8), (uint16, .u16), (uint32, .u32), (uint64, .u64),
    (int8, .i8), (int16, .i16), (int32, .i32), (int64, .i64)]

namespace Atom

inductive Spelled : Atom → Form → Prop
  | nil : Spelled .nil .nil
  | bool (b : Bool) : Spelled (.bool b) (.bool b)
  | fixint {n : Nat} : n < 2 ^ 7 → Spelled (.int n) (.plain [UInt8.ofNat n])
  | negativeFixint {n : Int} : -32 ≤ n → n < 0 → Spelled (.int n) (.number .i8 n)
  | int {code : UInt8} {kind : NumberKind} {n : Int} : (code, kind) ∈ Format.intFields →
      kind.Holds n → Spelled (.int n) (.coded code kind n)
  | single (bits : UInt32) : Spelled (.single bits) (.f32 bits)
  | double (bits : UInt64) : Spelled (.double bits) (.f64 bits)
  | array {n : Nat} {f : Form} : Heading.array.Spells n f → Spelled (.array n) f
  | map {n : Nat} {f : Form} : Heading.map.Spells n f → Spelled (.map n) f
  | str {bytes : ByteArray} {f : Form} : Heading.str.Spells bytes.size f →
      Spelled (.str bytes) (f ++ .plain (unpacked bytes))
  | blob {bytes : ByteArray} {f : Form} : Heading.blob.Spells bytes.size f →
      Spelled (.blob bytes) (f ++ .plain (unpacked bytes))
  | ext {subtype : Int} {payload : ByteArray} {f : Form} : Heading.ext.Spells payload.size f →
      NumberKind.i8.Holds subtype →
      Spelled (.ext subtype payload) (f ++ .number .i8 subtype ++ .plain (unpacked payload))

/-- The families of the codes that an atom can start with. -/
def Opens : Atom → Format.Family → Prop
  | .nil, family => family = .nil
  | .bool _, family => family = .bool
  | .int _, family => family.isInteger = true
  | .single _, family => family = .float32
  | .double _, family => family = .float64
  | .array _, family => family = .array
  | .map _, family => family = .map
  | .str _, family => family = .str
  | .blob _, family => family = .bin
  | .ext .., family => family = .ext

theorem isInteger_field {field : UInt8 × NumberKind} (h : field ∈ Format.intFields) :
    (Format.family field.1).isInteger = true := by
  have hall : ∀ field ∈ Format.intFields, (Format.family field.1).isInteger = true := by decide
  exact hall field h

/-- However an atom is spelled, its first code is of one of its families. -/
theorem Spelled.opens {atom : Atom} {f : Form} (hf : atom.Spelled f) (order : ByteOrder) :
    StartsWith (fun code => atom.Opens (Format.family code)) (f order) := by
  cases hf with
  | nil => exact ⟨_, [], rfl, rfl⟩
  | bool b => cases b <;> exact ⟨_, [], rfl, rfl⟩
  | fixint hn => exact ⟨_, [], rfl, congrArg Format.Family.isInteger (Format.family_fixint hn)⟩
  | negativeFixint hlow hneg =>
      rw [Form.number_fixint hlow hneg]
      exact ⟨_, [], rfl, congrArg Format.Family.isInteger
        (Format.family_negativeFixint hlow hneg)⟩
  | int hfield _ => exact ⟨_, _, rfl, isInteger_field hfield⟩
  | single bits => exact ⟨_, _, rfl, rfl⟩
  | double bits => exact ⟨_, _, rfl, rfl⟩
  | array hf => exact hf.opens order
  | map hf => exact hf.opens order
  | str hf => exact (hf.opens order).append _
  | blob hf => exact (hf.opens order).append _
  | ext hf _ => exact ((hf.opens order).append _).append _

end Atom

/-- The bytes spell the atoms, each in some form. -/
inductive Spells (order : ByteOrder) : List Atom → List UInt8 → Prop
  | nil : Spells order [] []
  | cons {atom : Atom} {f : Form} {atoms : List Atom} {bytes : List UInt8} : atom.Spelled f →
      Spells order atoms bytes → Spells order (atom :: atoms) (f order ++ bytes)

def Respelled (order : ByteOrder) (a b : List UInt8) : Prop :=
  ∃ atoms, Spells order atoms a ∧ Spells order atoms b

namespace Spells

variable {order : ByteOrder} {as bs : List Atom} {a b : List UInt8}

/-- A form for each atom. -/
theorem of_forms {ι : Type} {atom : ι → Atom} {form : ι → Form} {is : List ι}
    (h : ∀ i ∈ is, (atom i).Spelled (form i)) :
    Spells order (is.map atom) (is.flatMap fun i => form i order) := by
  induction is with
  | nil => exact .nil
  | cons i is ih =>
      rw [List.forall_mem_cons] at h
      exact .cons h.1 (ih h.2)

theorem append (h : Spells order as a) (h' : Spells order bs b) :
    Spells order (as ++ bs) (a ++ b) := by
  induction h with
  | nil => exact h'
  | cons hf _ ih =>
      rw [List.append_assoc]
      exact .cons hf ih

/-- What spells a sequence of atoms and then another one falls into two parts. -/
theorem split (h : Spells order (as ++ bs) b) :
    ∃ p q, b = p ++ q ∧ Spells order as p ∧ Spells order bs q := by
  induction as generalizing b with
  | nil => exact ⟨[], b, rfl, .nil, h⟩
  | cons atom as ih =>
      cases h with
      | @cons _ f _ rest hf hrest =>
          obtain ⟨p, q, rfl, hp, hq⟩ := ih hrest
          exact ⟨f order ++ p, q, (List.append_assoc _ _ _).symm, .cons hf hp, hq⟩

/-- An atom takes at least one byte. -/
theorem length_le (h : Spells order as a) : as.length ≤ a.length := by
  induction h with
  | nil => exact Nat.le_refl 0
  | @cons _ f _ _ hf _ ih =>
      have hpos := List.length_pos_iff.2 (hf.opens order).ne_nil
      rw [List.length_cons, List.length_append]
      omega

theorem eq_nil (h : Spells order as []) : as = [] :=
  List.eq_nil_of_length_eq_zero (Nat.le_zero.1 h.length_le)

end Spells

namespace Reader

variable {α β : Type} {c : Context}

/-! ## Every form is taken -/

namespace Takes

variable {f : Form} {n : Nat}

/-- A header whose code decides as its heading says is taken for its number in every form. -/
theorem heading {h : Heading} {g : UInt8 → Reader Nat} (hf : h.Spells n f)
    (hshort : ∀ code, h.short? n = some code → g code = Pure.pure n)
    (hfield : ∀ field ∈ h.fields, g field.1 = Reader.length field.2) :
    Takes c (Reader.byte >>= g) (f c.byteOrder) n := by
  cases hf with
  | short hcode =>
      apply code
      rw [hshort _ hcode]
      exact pure n
  | field hmem hholds =>
      apply coded
      rw [hfield _ hmem]
      exact length hholds

theorem arrayHeader_of_spells (hf : Heading.array.Spells n f) :
    Takes c Reader.arrayHeader (f c.byteOrder) n := by
  refine orRestore (heading hf (fun code hcode => ?_) ?_)
  · obtain ⟨hn, rfl⟩ := Heading.inline_eq_some hcode
    have hcodes : ∀ m < 16, 0x90 ≤ Writer.shortCode Format.fixarray m ∧
        Writer.shortCode Format.fixarray m ≤ 0x9f := by decide
    rw [if_pos (hcodes n (by omega)), toNat_shortCode (by omega)]
  · exact List.forall_mem_cons.2 ⟨rfl, List.forall_mem_cons.2 ⟨rfl, nofun⟩⟩

theorem mapHeader_of_spells (hf : Heading.map.Spells n f) :
    Takes c Reader.mapHeader (f c.byteOrder) n := by
  refine orRestore (heading hf (fun code hcode => ?_) ?_)
  · obtain ⟨hn, rfl⟩ := Heading.inline_eq_some hcode
    have hcodes : ∀ m < 16, 0x80 ≤ Writer.shortCode Format.fixmap m ∧
        Writer.shortCode Format.fixmap m ≤ 0x8f := by decide
    rw [if_pos (hcodes n (by omega)), toNat_shortCode (by omega)]
  · exact List.forall_mem_cons.2 ⟨rfl, List.forall_mem_cons.2 ⟨rfl, nofun⟩⟩

theorem strHeader_of_spells (hf : Heading.str.Spells n f) :
    Takes c Reader.strHeader (f c.byteOrder) n := by
  refine orRestore (heading hf (fun code hcode => ?_) ?_)
  · obtain ⟨hn, rfl⟩ := Heading.inline_eq_some hcode
    have hcodes : ∀ m < 32, 0xa0 ≤ Writer.shortCode Format.fixstr m ∧
        Writer.shortCode Format.fixstr m ≤ 0xbf := by decide
    rw [if_pos (hcodes n (by omega)), toNat_shortCode (by omega)]
  · exact List.forall_mem_cons.2 ⟨rfl, List.forall_mem_cons.2 ⟨rfl,
      List.forall_mem_cons.2 ⟨rfl, nofun⟩⟩⟩

theorem blobHeader_of_spells (hf : Heading.blob.Spells n f) :
    Takes c Reader.blobHeader (f c.byteOrder) n := by
  exact orRestore (heading hf nofun (List.forall_mem_cons.2 ⟨rfl, List.forall_mem_cons.2 ⟨rfl,
    List.forall_mem_cons.2 ⟨rfl, nofun⟩⟩⟩))

theorem extLength_of_spells (hf : Heading.ext.Spells n f) :
    Takes c (Reader.byte >>= Reader.extLength) (f c.byteOrder) n := by
  refine heading hf (fun code hcode => ?_) ?_
  · exact extLength_of_fixext? hcode
  · exact List.forall_mem_cons.2 ⟨rfl, List.forall_mem_cons.2 ⟨rfl,
      List.forall_mem_cons.2 ⟨rfl, nofun⟩⟩⟩

/-! ### Integers -/

theorem intField_cases {code : UInt8} {kind : NumberKind} (h : (code, kind) ∈ Format.intFields) :
    (Format.family code = .uint ∧ Reader.uintBody code = Reader.length kind ∧
      kind.isSigned = false) ∨
    (Format.family code = .int ∧ Reader.intBody code = Reader.number kind ∧
      kind.isSigned = true) := by
  simp only [Format.intFields, List.mem_cons, Prod.mk.injEq, List.not_mem_nil, or_false] at h
  rcases h with ⟨rfl, rfl⟩ | ⟨rfl, rfl⟩ | ⟨rfl, rfl⟩ | ⟨rfl, rfl⟩ | ⟨rfl, rfl⟩ | ⟨rfl, rfl⟩ |
    ⟨rfl, rfl⟩ | ⟨rfl, rfl⟩
  iterate 4 exact .inl ⟨rfl, rfl, rfl⟩
  all_goals exact .inr ⟨rfl, rfl, rfl⟩

theorem holds_nonneg {kind : NumberKind} {z : Int} (hkind : kind.isSigned = false)
    (h : kind.Holds z) : 0 ≤ z := by
  simp only [NumberKind.Holds, hkind, Bool.false_eq_true, if_false] at h
  exact h.1

theorem holds_lt {kind : NumberKind} {z : Int} (hkind : kind.isSigned = true)
    (h : kind.Holds z) : z < 2 ^ 63 := by
  simp only [NumberKind.Holds, hkind, if_true] at h
  cases kind <;> simp only [NumberKind.modulus, NumberKind.width] at h <;> omega

/-- A number that is not negative, in any form. -/
theorem uint_of_spelled {z : Int} (hf : (Atom.int z).Spelled f) (hz : 0 ≤ z) :
    Takes c Reader.uint (f c.byteOrder) z.toNat := by
  apply orRestore
  cases hf with
  | fixint hn =>
      apply code
      rw [Format.family_fixint hn, UInt8.toNat_ofNat_of_lt' (Nat.lt_trans hn (by decide))]
      exact pure _
  | negativeFixint _ hneg => omega
  | int hfield hholds =>
      obtain ⟨n, rfl⟩ := Int.eq_ofNat_of_zero_le hz
      apply coded
      rcases intField_cases hfield with ⟨hfamily, hbody, -⟩ | ⟨hfamily, hbody, -⟩
      · rw [hfamily, Int.toNat_natCast]
        dsimp only
        rw [hbody]
        exact length hholds
      · rw [hfamily]
        dsimp only
        rw [hbody]
        have hread := (number (c := c) hholds).bind
          (f := fun value => if 0 ≤ value then Pure.pure value.toNat
            else throw (.type (.negative value))) (check hz (pure _))
        rwa [List.append_nil] at hread

/-- A number below `2 ^ 63`, in any form. -/
theorem int_of_spelled {z : Int} (hf : (Atom.int z).Spelled f) (hz : z < 2 ^ 63) :
    Takes c Reader.int (f c.byteOrder) z := by
  cases hf with
  | @fixint n hn =>
      refine orRestore (code ?_)
      rw [Format.family_fixint hn, UInt8.toNat_ofNat_of_lt' (Nat.lt_trans hn (by decide))]
      exact pure (n : Int)
  | negativeFixint hlow hneg => exact fixint hlow hneg
  | int hfield hholds =>
      refine orRestore (coded ?_)
      rcases intField_cases hfield with ⟨hfamily, hbody, hkind⟩ | ⟨hfamily, hbody, -⟩
      · obtain ⟨n, rfl⟩ := Int.eq_ofNat_of_zero_le (holds_nonneg hkind hholds)
        rw [hfamily]
        exact uintBody hbody hholds (by omega)
      · rw [hfamily]
        exact intBody hbody hholds

end Takes

end Reader

end ObjectStream
