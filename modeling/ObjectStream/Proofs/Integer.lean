import ObjectStream.Proofs.Answers
import ObjectStream.Proofs.Atoms
import ObjectStream.Proofs.Failing

/-!
# Integers are decided by their number

An integer stands on the wire in one of many forms, and each form is that of one
number. A reader of an integer type succeeds if and only if its type holds the
number, whichever form it stands in; the error says otherwise which check refused
it. Where no complete form stands, the input ends inside of one or goes on with the
code of something else, and the error tells these apart. A reader that fails has
not moved.
-/

namespace ObjectStream

inductive IntTy
  | unsigned (width : IntWidth)
  | signed (width : IntWidth)

namespace IntTy

def ty : IntTy → Ty
  | unsigned width => .scalar (.unsigned width)
  | signed width => .scalar (.signed width)

def Holds : IntTy → Int → Prop
  | unsigned width, z => 0 ≤ z ∧ z < 2 ^ width.bits
  | signed width, z => -2 ^ (width.bits - 1) ≤ z ∧ z < 2 ^ (width.bits - 1)

/-- Why a number that is not one of the type is refused. A sign that no unsigned type has, and a
number beyond all signed types, are found before the width is looked at. -/
def refusal : IntTy → Int → TypeFault
  | unsigned width, z => if z < 0 then .negative z else .narrow z (.unsigned width)
  | signed width, z => if z < 2 ^ 63 then .narrow z (.signed width) else .beyondSigned z.toNat

end IntTy

namespace InStream

variable {r : InStream} {z : Int}

/-- The stream goes on with `bytes`, which are a complete form of the integer. -/
def HoldsInteger (r : InStream) (z : Int) (bytes : List UInt8) : Prop :=
  ∃ f tail, (Atom.int z).Spelled f ∧ bytes = f r.context.byteOrder ∧ r.rest = bytes ++ tail

/-- The stream ends before or inside of a form of an integer. -/
def CutsInteger (r : InStream) : Prop :=
  ∃ z f more, (Atom.int z).Spelled f ∧ more ≠ [] ∧ r.rest ++ more = f r.context.byteOrder

def LacksInteger (r : InStream) (code : UInt8) : Prop :=
  (∃ tail, r.rest = code :: tail) ∧ (Format.family code).isInteger = false

end InStream

namespace Reader

variable {α β : Type} {r t : InStream} {code : UInt8} {e : StreamError} {z : Int} {f : Form}
  {tail bytes : List UInt8}

/-! ## What stands at the cursor -/

/-- The code of an integer that does not say its number by itself has a kind of number behind it. -/
theorem intField_of_family (h : Format.family code = .uint ∨ Format.family code = .int) :
    ∃ kind, (code, kind) ∈ Format.intFields := by
  rcases h with h | h
  · rcases Format.code_of_uint h with rfl | rfl | rfl | rfl
    · exact ⟨.u8, by decide⟩
    · exact ⟨.u16, by decide⟩
    · exact ⟨.u32, by decide⟩
    · exact ⟨.u64, by decide⟩
  · rcases Format.code_of_int h with rfl | rfl | rfl | rfl
    · exact ⟨.i8, by decide⟩
    · exact ⟨.i16, by decide⟩
    · exact ⟨.i32, by decide⟩
    · exact ⟨.i64, by decide⟩

/-- Where a form is cut, there is nothing left or too little behind a code with a field. -/
theorem cut_cases (h : r.CutsInteger) : r.rest = [] ∨ ∃ code kind tail,
    r.rest = code :: tail ∧ (code, kind) ∈ Format.intFields ∧ tail.length < kind.width := by
  obtain ⟨z, f, more, hf, hmore, hform⟩ := h
  have hpos := List.length_pos_iff.2 hmore
  have hlen := congrArg List.length hform
  rw [List.length_append] at hlen
  cases hrest : r.rest with
  | nil => exact .inl rfl
  | cons code tail =>
      right
      rw [hrest] at hform hlen
      rw [List.length_cons] at hlen
      cases hf with
      | fixint =>
          rw [Form.length_plain, List.length_singleton] at hlen
          omega
      | negativeFixint =>
          rw [Form.length_number, NumberKind.width] at hlen
          omega
      | @int code' kind _ hfield _ =>
          rw [Form.length_coded] at hlen
          obtain ⟨rfl, -⟩ := List.cons.inj hform
          exact ⟨code, kind, tail, rfl, hfield, by omega⟩

/-- An atom that starts with the code of an integer is one. -/
theorem GoesOver.holdsInteger {r' : InStream} (h : GoesOver r r') (hrest : r.rest = code :: tail)
    (hinteger : (Format.family code).isInteger = true) : ∃ z bytes, r.HoldsInteger z bytes := by
  obtain ⟨atom, f, tail', hf, hform, -⟩ := h
  obtain ⟨code', bytes, hstart, hopens⟩ := hf.opens r.context.byteOrder
  have hcode : code :: tail = code' :: (bytes ++ tail') := by
    rw [← hrest, hform, hstart, List.cons_append]
  obtain ⟨rfl, -⟩ := List.cons.inj hcode
  obtain ⟨z, rfl⟩ := Answers.int_of_opens hopens hinteger
  exact ⟨z, _, f, tail', hf, rfl, hform⟩

/-- A code with a field behind it, which is there or is cut. -/
theorem holds_or_cuts_field {kind : NumberKind} (hrest : r.rest = code :: tail)
    (hfield : (code, kind) ∈ Format.intFields) :
    (∃ z bytes, r.HoldsInteger z bytes) ∨ r.CutsInteger := by
  have hspelled {bytes : List UInt8} (hlen : bytes.length = kind.width) :
      ∃ z f, (Atom.int z).Spelled f ∧ code :: bytes = f r.context.byteOrder := by
    refine ⟨_, _, .int hfield (kind.holds_ofBytes r.context.byteOrder hlen), ?_⟩
    rw [Form.coded, Form.append_apply, Form.number, kind.bytes_ofBytes _ hlen]
    rfl
  by_cases hwidth : kind.width ≤ tail.length
  · obtain ⟨z, f, hf, hform⟩ := hspelled (List.length_take_of_le hwidth)
    refine .inl ⟨z, _, f, tail.drop kind.width, hf, hform, ?_⟩
    rw [hrest, List.cons_append, List.take_append_drop]
  · have hfilled : (tail ++ List.replicate (kind.width - tail.length) 0).length = kind.width := by
      rw [List.length_append, List.length_replicate]
      omega
    obtain ⟨z, f, hf, hform⟩ := hspelled hfilled
    refine .inr ⟨z, f, List.replicate (kind.width - tail.length) 0, hf, ?_, ?_⟩
    · intro hnil
      have hzero := congrArg List.length hnil
      rw [List.length_replicate, List.length_nil] at hzero
      omega
    · rw [hrest, ← hform, List.cons_append]

/-- What stands at the cursor is a complete form of an integer, or the start of one at which the
stream ends, or something else. -/
theorem integer_cases (r : InStream) :
    (∃ z bytes, r.HoldsInteger z bytes) ∨ r.CutsInteger ∨ ∃ code, r.LacksInteger code := by
  cases hrest : r.rest with
  | nil =>
      have hzero : (Atom.int (0 : Nat)).Spelled (.plain [0]) := .fixint (by decide)
      refine .inr (.inl ⟨_, _, [0], hzero, List.cons_ne_nil _ _, ?_⟩)
      rw [hrest]
      rfl
  | cons code tail =>
      cases hinteger : (Format.family code).isInteger with
      | false => exact .inr (.inr ⟨code, ⟨tail, hrest⟩, hinteger⟩)
      | true =>
          cases hfamily : Format.family code <;> rw [hfamily] at hinteger
          case positiveFixint =>
            exact .inl ((GoesOver.alone hrest (.inl hfamily)).holdsInteger hrest (hfamily ▸ rfl))
          case negativeFixint =>
            exact .inl ((GoesOver.alone hrest (.inr (.inl hfamily))).holdsInteger hrest
              (hfamily ▸ rfl))
          case uint =>
            obtain ⟨kind, hfield⟩ := intField_of_family (.inl hfamily)
            rw [← or_assoc]
            exact .inl (holds_or_cuts_field hrest hfield)
          case int =>
            obtain ⟨kind, hfield⟩ := intField_of_family (.inr hfamily)
            rw [← or_assoc]
            exact .inl (holds_or_cuts_field hrest hfield)
          all_goals cases hinteger

/-! ## The two readers of integers -/

theorem uint_of_holds (h : r.HoldsInteger z bytes) (hz : 0 ≤ z) :
    uint r = .ok z.toNat (r.skip bytes.length) := by
  obtain ⟨f, tail, hf, rfl, hrest⟩ := h
  exact Takes.uint_of_spelled hf hz r tail rfl hrest

theorem int_of_holds (h : r.HoldsInteger z bytes) (hz : z < 2 ^ 63) :
    int r = .ok z (r.skip bytes.length) := by
  obtain ⟨f, tail, hf, rfl, hrest⟩ := h
  exact Takes.int_of_spelled hf hz r tail rfl hrest

/-- The number behind the code of an integer. -/
theorem number_behind {kind : NumberKind}
    (hrest : r.rest = Form.coded code kind z r.context.byteOrder ++ tail) (hholds : kind.Holds z) :
    ∃ t, number kind (r.skip 1) = .ok z t :=
  ⟨_, Takes.number hholds (r.skip 1) tail rfl (rest_behind hrest)⟩

/-- No unsigned type has a negative number. -/
theorem uint_refuses (h : r.HoldsInteger z bytes) (hz : z < 0) :
    uint r = .error (.type (.negative z)) r := by
  obtain ⟨f, tail, hf, rfl, hrest⟩ := h
  cases hf with
  | fixint => omega
  | negativeFixint hlow hneg =>
      have hcode := hrest
      rw [Form.number_fixint hlow hneg] at hcode
      refine headed_failed rudiments_still.uint hcode (t := r.skip 1) ?_
      rw [Format.family_negativeFixint hlow hneg, Takes.fixintValue_ofNat hlow hneg]
      rfl
  | @int code kind _ hfield hholds =>
      rcases Takes.intField_cases hfield with ⟨-, -, hkind⟩ | ⟨hfamily, hbody, -⟩
      · have hnonneg := Takes.holds_nonneg hkind hholds
        omega
      · obtain ⟨t, hnumber⟩ := number_behind hrest hholds
        refine headed_failed rudiments_still.uint hrest (t := t) ?_
        rw [hfamily]
        dsimp only
        rw [hbody, bind_of_ok hnumber, if_neg (Int.not_le.2 hz)]
        rfl

/-- No signed type has a number from `2 ^ 63` up. -/
theorem int_refuses (h : r.HoldsInteger z bytes) (hz : 2 ^ 63 ≤ z) :
    int r = .error (.type (.beyondSigned z.toNat)) r := by
  obtain ⟨f, tail, hf, rfl, hrest⟩ := h
  cases hf with
  | fixint | negativeFixint => omega
  | @int code kind _ hfield hholds =>
      rcases Takes.intField_cases hfield with ⟨hfamily, hbody, -⟩ | ⟨-, -, hkind⟩
      · obtain ⟨t, hnumber⟩ := number_behind hrest hholds
        have hlength : length kind (r.skip 1) = .ok z.toNat t := bind_of_ok hnumber
        refine headed_failed rudiments_still.int hrest (t := t) ?_
        rw [hfamily]
        dsimp only
        rw [hbody, bind_of_ok hlength, if_neg (by omega)]
        rfl
      · have hlt := Takes.holds_lt hkind hholds
        omega

/-- Both readers want the byte, or the bytes, that are not there. -/
theorem refuses_cut (h : r.CutsInteger) : ∃ needed left,
    uint r = .error (.outOfRange needed left) r ∧ int r = .error (.outOfRange needed left) r := by
  rcases cut_cases h with hrest | ⟨code, kind, tail, hrest, hfield, hshort⟩
  · exact ⟨1, 0, headed_empty rudiments_still.uint hrest, headed_empty rudiments_still.int hrest⟩
  · have hbehind : (r.skip 1).rest.length < kind.width := by
      rwa [rest_behind hrest]
    refine ⟨kind.width, (r.skip 1).rest.length,
      headed_failed rudiments_still.uint hrest (t := r.skip 1) ?_,
      headed_failed rudiments_still.int hrest (t := r.skip 1) ?_⟩
    all_goals
      rcases Takes.intField_cases hfield with ⟨hfamily, hbody, -⟩ | ⟨hfamily, hbody, -⟩
      all_goals
        rw [hfamily]
        dsimp only
        rw [hbody]
    · exact length_failed hbehind
    · exact bind_failed (number_failed hbehind)
    · exact bind_failed (length_failed hbehind)
    · exact number_failed hbehind

theorem uint_lacks (h : r.LacksInteger code) :
    uint r = .error (.type (.unexpected .integer code)) r := by
  obtain ⟨⟨tail, hrest⟩, hother⟩ := h
  refine headed_failed rudiments_still.uint hrest (t := r.skip 1) ?_
  cases hfamily : Format.family code <;> rw [hfamily] at hother
  case positiveFixint | negativeFixint | uint | int => cases hother
  all_goals rfl

theorem int_lacks (h : r.LacksInteger code) :
    int r = .error (.type (.unexpected .integer code)) r := by
  obtain ⟨⟨tail, hrest⟩, hother⟩ := h
  refine headed_failed rudiments_still.int hrest (t := r.skip 1) ?_
  cases hfamily : Format.family code <;> rw [hfamily] at hother
  case positiveFixint | negativeFixint | uint | int => cases hother
  all_goals rfl

/-! ## The readers of integer types -/

end Reader

namespace IntTy

open Reader

variable {r : InStream} {z : Int} {bytes : List UInt8} {code : UInt8} {e : StreamError}

def read : IntTy → Reader Int
  | unsigned width => (fun n : Nat => (n : Int)) <$> Reader.unsigned width
  | signed width => Reader.signed width

theorem decode_scalar (Γ : Schema) (s : Scalar) :
    decode Γ (.scalar s) = Value.scalar <$> Reader.scalar s := rfl

theorem decode_ty (Γ : Schema) (t : IntTy) :
    decode Γ t.ty = (fun z => Value.scalar (.int z)) <$> t.read := by
  cases t with
  | unsigned width =>
      rw [ty, decode_scalar, Reader.scalar, read, Functor.map_map, Functor.map_map]
  | signed width =>
      rw [ty, decode_scalar, Reader.scalar, read, Functor.map_map]

/-- What does not read as an integer does not read as one of a type. -/
theorem read_failed {t : IntTy} (huint : uint r = .error e r) (hint : int r = .error e r) :
    t.read r = .error e r := by
  cases t with
  | unsigned width =>
      exact bind_failed (orRestore_failed (Head.unsigned width).still (bind_failed huint))
  | signed width => exact orRestore_failed (Head.signed width).still (bind_failed hint)

/-- A number of the type is read from every form of it. -/
theorem read_held {t : IntTy} (h : r.HoldsInteger z bytes) (hz : t.Holds z) :
    t.read r = .ok z (r.skip bytes.length) := by
  cases t with
  | unsigned width =>
      have hcast : (z.toNat : Int) = z := Int.toNat_of_nonneg hz.1
      have hwidth : width.holdsUnsigned z.toNat = true := by
        rwa [hcast, width.holdsUnsigned_iff]
      have hread : Reader.unsigned width r = .ok z.toNat (r.skip bytes.length) := by
        refine orRestore_ok.2 ((bind_of_ok (uint_of_holds h hz.1)).trans ?_)
        rw [if_pos hwidth]
        rfl
      exact (bind_of_ok hread).trans (congrArg (EStateM.Result.ok · _) hcast)
  | signed width =>
      have hwidth : width.holdsSigned z = true := (width.holdsSigned_iff z).2 hz
      have hlt := (IntWidth.range_of_holdsSigned hwidth).2
      refine orRestore_ok.2 ((bind_of_ok (int_of_holds h hlt)).trans ?_)
      rw [if_pos hwidth]
      rfl

/-- A number that is not of the type is refused in every form of it. -/
theorem read_refused {t : IntTy} (h : r.HoldsInteger z bytes) (hz : ¬ t.Holds z) :
    t.read r = .error (.type (t.refusal z)) r := by
  cases t with
  | unsigned width =>
      rw [refusal]
      split
      · next hneg =>
          exact bind_failed (orRestore_failed (Head.unsigned width).still
            (bind_failed (uint_refuses h hneg)))
      · next hpos =>
          have hnonneg : 0 ≤ z := Int.not_lt.1 hpos
          have hcast : (z.toNat : Int) = z := Int.toNat_of_nonneg hnonneg
          have hwidth : ¬ width.holdsUnsigned z.toNat = true := by
            rwa [hcast, width.holdsUnsigned_iff]
          refine bind_failed (orRestore_failed (Head.unsigned width).still
            (t := r.skip bytes.length) ((bind_of_ok (uint_of_holds h hnonneg)).trans ?_))
          rw [if_neg hwidth, hcast]
          rfl
  | signed width =>
      have hwidth : ¬ width.holdsSigned z = true := fun hw => hz ((width.holdsSigned_iff z).1 hw)
      rw [refusal]
      split
      · next hlt =>
          refine orRestore_failed (Head.signed width).still (t := r.skip bytes.length)
            ((bind_of_ok (int_of_holds h hlt)).trans ?_)
          rw [if_neg hwidth]
          rfl
      · next hbeyond =>
          exact orRestore_failed (Head.signed width).still
            (bind_failed (int_refuses h (Int.not_lt.1 hbeyond)))

end IntTy

namespace InStream

open Reader

variable {r : InStream} {z z' : Int} {bytes bytes' : List UInt8}

/-- A form is that of one number, and no other form stands in its place. -/
theorem HoldsInteger.unique (h : r.HoldsInteger z bytes) (h' : r.HoldsInteger z' bytes') :
    z = z' ∧ bytes = bytes' := by
  have hsame : z = z' ∧ bytes.length = bytes'.length := by
    by_cases hz : z < 2 ^ 63
    · have hread := int_of_holds h hz
      by_cases hz' : z' < 2 ^ 63
      · rw [int_of_holds h' hz'] at hread
        obtain ⟨rfl, hskip⟩ := EStateM.Result.ok.inj hread
        exact ⟨rfl, (skip_inj hskip).symm⟩
      · rw [int_refuses h' (Int.not_lt.1 hz')] at hread
        cases hread
    · have hread := uint_of_holds h (by omega)
      by_cases hz' : z' < 0
      · rw [uint_refuses h' hz'] at hread
        cases hread
      · rw [uint_of_holds h' (Int.not_lt.1 hz')] at hread
        obtain ⟨hnat, hskip⟩ := EStateM.Result.ok.inj hread
        exact ⟨by omega, (skip_inj hskip).symm⟩
  obtain ⟨_, tail, -, -, hrest⟩ := h
  obtain ⟨_, tail', -, -, hrest'⟩ := h'
  exact ⟨hsame.1, (List.append_inj (hrest.symm.trans hrest') hsame.2).1⟩

/-- Where the reader of unsigned integers succeeds, an integer stands that is not negative. -/
theorem holdsInteger_of_uint {r' : InStream} {n : Nat} (h : uint r = .ok n r') :
    ∃ z bytes, r.HoldsInteger z bytes ∧ 0 ≤ z := by
  rcases integer_cases r with ⟨z, bytes, hholds⟩ | hcut | ⟨code, hlacks⟩
  · by_cases hz : z < 0
    · rw [uint_refuses hholds hz] at h
      cases h
    · exact ⟨z, bytes, hholds, Int.not_lt.1 hz⟩
  · obtain ⟨_, _, huint, -⟩ := refuses_cut hcut
    rw [huint] at h
    cases h
  · rw [uint_lacks hlacks] at h
    cases h

end InStream

/-- How an integer is read is decided by the number that stands at the cursor. -/
structure IntegerDecided (Γ : Schema) (r : InStream) : Prop where
  /-- What stands at the cursor is a form of an integer, a cut one, or something else. -/
  cases : (∃ z bytes, r.HoldsInteger z bytes) ∨ r.CutsInteger ∨ ∃ code, r.LacksInteger code
  /-- A form denotes one number. -/
  denotes : ∀ z z' bytes bytes', r.HoldsInteger z bytes → r.HoldsInteger z' bytes' →
    z = z' ∧ bytes = bytes'
  /-- The number is returned from behind the form if the type has it. -/
  held : ∀ (t : IntTy) z bytes, r.HoldsInteger z bytes → t.Holds z →
    decode Γ t.ty r = .ok (.scalar (.int z)) (r.skip bytes.length)
  refused : ∀ (t : IntTy) z bytes, r.HoldsInteger z bytes → ¬ t.Holds z →
    decode Γ t.ty r = .error (.type (t.refusal z)) r
  cut : r.CutsInteger → ∀ t : IntTy, ∃ needed left,
    decode Γ t.ty r = .error (.outOfRange needed left) r
  lacking : ∀ code, r.LacksInteger code → ∀ t : IntTy,
    decode Γ t.ty r = .error (.type (.unexpected .integer code)) r
  /-- The two readers of integers agree where both succeed. -/
  agree : ∀ n z r₁ r₂, Reader.uint r = .ok n r₁ → Reader.int r = .ok z r₂ → n = z ∧ r₁ = r₂

theorem integers_decided (Γ : Schema) (r : InStream) : IntegerDecided Γ r where
  cases := Reader.integer_cases r
  denotes _ _ _ _ h h' := h.unique h'
  held t z bytes h hz := by
    rw [t.decode_ty]
    exact bind_of_ok (IntTy.read_held h hz)
  refused t z bytes h hz := by
    rw [t.decode_ty]
    exact bind_failed (IntTy.read_refused h hz)
  cut h t := by
    obtain ⟨needed, left, huint, hint⟩ := Reader.refuses_cut h
    rw [t.decode_ty]
    exact ⟨needed, left, bind_failed (IntTy.read_failed huint hint)⟩
  lacking code h t := by
    rw [t.decode_ty]
    exact bind_failed (IntTy.read_failed (Reader.uint_lacks h) (Reader.int_lacks h))
  agree n z r₁ r₂ huint hint := by
    obtain ⟨w, bytes, hholds, hw⟩ := InStream.holdsInteger_of_uint huint
    rw [Reader.uint_of_holds hholds hw] at huint
    obtain ⟨rfl, rfl⟩ := EStateM.Result.ok.inj huint
    by_cases hlt : w < 2 ^ 63
    · rw [Reader.int_of_holds hholds hlt] at hint
      obtain ⟨rfl, rfl⟩ := EStateM.Result.ok.inj hint
      exact ⟨Int.toNat_of_nonneg hw, rfl⟩
    · rw [Reader.int_refuses hholds (Int.not_lt.1 hlt)] at hint
      cases hint

end ObjectStream
