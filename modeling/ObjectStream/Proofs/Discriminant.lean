import ObjectStream.Proofs.Costs
import ObjectStream.Proofs.Integer
import ObjectStream.Proofs.Reading
import ObjectStream.Sample

/-!
# Enums without fields travel as numbers

A variant of an enum without fields is written as one number in its shortest form,
is read from every form of that number, and no other number is accepted. The number
is the discriminant as a signed one of 64 bits. So it is the discriminant itself as
long as that is below `2 ^ 63`; an unsigned enum with a variant from there on writes
the number that is less by `2 ^ 64`, and refuses the discriminant.
-/

namespace ObjectStream

/-! ## Shortest forms of integers -/

/-- The form spells the atom, and none that does is shorter. -/
def Atom.Shortest (atom : Atom) (f : Form) : Prop :=
  atom.Spelled f ∧ ∀ g, atom.Spelled g → ∀ order, (f order).length ≤ (g order).length

namespace Form

variable {z : Int}

theorem spelled_uint {n : Nat} (h : n < 2 ^ 64) : (Atom.int n).Spelled (.uint n) := by
  have hkind {kind : NumberKind} (hsigned : kind.isSigned = false) (hn : n < kind.modulus) :
      kind.Holds n := NumberKind.holds_natural hsigned hn
  unfold uint
  split
  · next hn => exact .fixint hn
  split
  · next hn => exact .int (by decide) (hkind rfl hn)
  split
  · next hn => exact .int (by decide) (hkind rfl hn)
  split
  · next hn => exact .int (by decide) (hkind rfl hn)
  · exact .int (by decide) (hkind rfl h)

theorem spelled_int (hlow : -2 ^ 63 ≤ z) (hhigh : z < 2 ^ 64) : (Atom.int z).Spelled (.int z) := by
  rw [int]
  by_cases hz : 0 ≤ z
  · rw [if_pos hz]
    obtain ⟨n, rfl⟩ := Int.eq_ofNat_of_zero_le hz
    exact spelled_uint (by omega)
  have hkind {kind : NumberKind} (hsigned : kind.isSigned = true)
      (hfloor : -(kind.modulus / 2 : Int) ≤ z) : kind.Holds z := by
    unfold NumberKind.Holds
    rw [if_pos hsigned]
    omega
  rw [if_neg hz]
  split
  · next hfloor => exact .negativeFixint hfloor (Int.not_le.1 hz)
  split
  · next hfloor => exact .int (by decide) (hkind rfl hfloor)
  split
  · next hfloor => exact .int (by decide) (hkind rfl hfloor)
  split
  · next hfloor => exact .int (by decide) (hkind rfl hfloor)
  · exact .int (by decide) (hkind rfl hlow)

theorem shortest_int (hlow : -2 ^ 63 ≤ z) (hhigh : z < 2 ^ 64) :
    (Atom.int z).Shortest (.int z) := by
  refine ⟨spelled_int hlow hhigh, fun g hg order => ?_⟩
  rw [length_int]
  exact hg.int_le order

end Form

/-- Every number of 64 bits stands in some stream. -/
theorem InStream.exists_holdsInteger {z : Int} (hlow : -2 ^ 63 ≤ z) (hhigh : z < 2 ^ 64) :
    ∃ (r : InStream) (bytes : List UInt8), r.HoldsInteger z bytes :=
  ⟨.ofBytes .standard (packed (Form.int z Context.standard.byteOrder)) 0 none, _, .int z, [],
    Form.spelled_int hlow hhigh, rfl, (List.append_nil _).symm⟩

/-- No form is that of a number below the signed ones of 64 bits. -/
theorem InStream.HoldsInteger.low {r : InStream} {z : Int} {bytes : List UInt8}
    (h : r.HoldsInteger z bytes) : -2 ^ 63 ≤ z := by
  obtain ⟨f, tail, hf, -⟩ := h
  cases hf with
  | fixint | negativeFixint => omega
  | @int code kind _ hfield hholds =>
      rcases Reader.Takes.intField_cases hfield with ⟨-, -, hkind⟩ | ⟨-, -, hkind⟩
      · have hnonneg := Reader.Takes.holds_nonneg hkind hholds
        omega
      · simp only [NumberKind.Holds, hkind, if_true] at hholds
        cases kind <;> simp only [NumberKind.modulus, NumberKind.width] at hholds <;> omega

/-! ## Numbers on the wire -/

theorem Schema.FitWord.lt {ds : List Int} (hfit : Schema.FitWord ds) {d : Int} (hd : d ∈ ds) :
    d < 2 ^ 64 := by
  rcases hfit with hfit | hfit
  · have hrange := IntWidth.range_of_holdsSigned (hfit d hd)
    omega
  · exact IntWidth.lt_of_holdsUnsigned (hfit d hd)

/-- The number of a variant is its discriminant unless that is beyond the signed numbers. -/
theorem wireDiscriminant_eq_self_iff {ds : List Int} (hfit : Schema.FitWord ds) {d : Int}
    (hd : d ∈ ds) : wireDiscriminant d = d ↔ d < 2 ^ 63 := by
  constructor
  · intro hself
    have hhigh := Int.bmod_lt (x := d) (m := 2 ^ 64) (by decide)
    rw [← wireDiscriminant, hself] at hhigh
    omega
  · intro hlt
    have hlow : -2 ^ 63 ≤ d := by
      rcases hfit with hfit | hfit
      · exact (IntWidth.range_of_holdsSigned (hfit d hd)).1
      · have hnonneg := ((IntWidth.holdsUnsigned_iff _ _).1 (hfit d hd)).1
        omega
    exact Int.bmod_eq_of_le (by omega) (by omega)

namespace Schema

/-- The variants of an enum without fields travel as the numbers that belong to their
discriminants. -/
structure TravelsAs (Γ : Schema) (number : Int → Int) (t : Ty) (ds : List Int) : Prop where
  /-- A variant is written as the shortest form of its number. -/
  written : ∀ index d, ds[index]? = some d →
    encode Γ t (.variant index []) = Writer.int (number d) ∧
      encode Γ t (.variant index []) = Writer.spell (.int (number d)) ∧
      (Atom.int (number d)).Shortest (.int (number d))
  /-- It is read from every form of its number. -/
  read : ∀ index d, ds[index]? = some d → ∀ (r : InStream) bytes,
    r.HoldsInteger (number d) bytes →
      decode Γ t r = .ok (.variant index []) (r.skip bytes.length)
  /-- Every other number is refused. -/
  refused : ∀ z, (∀ d ∈ ds, number d ≠ z) → ∀ (r : InStream) bytes, r.HoldsInteger z bytes →
    ∃ e r', decode Γ t r = .error e r' ∧ e.kind = .type

variable {Γ : Schema} {name : String} {args : List Ty} {item : Item Ty} {r : InStream} {z : Int}
  {bytes : List UInt8}

theorem decode_bare (hplan : Γ.plan? name = some (item, .bare)) :
    decode Γ (.named name args) r = (do
      let number ← Reader.signed .w64
      match (discriminants item.variants).findIdx? (fun d => number == wireDiscriminant d) with
      | some index => pure (.variant index [])
      | none => throw (.enumDecode (.discriminant number item.name.name)) : Reader Value) r := by
  exact congrFun (decodeStep_bare (decodeWithin Γ (2 * r.cursor.remaining + 1)) hplan) r

/-- A number that is not beyond the signed ones is looked up among those of the variants. -/
theorem decode_bare_held (hplan : Γ.plan? name = some (item, .bare))
    (h : r.HoldsInteger z bytes) (hz : (IntTy.signed .w64).Holds z) :
    decode Γ (.named name args) r =
      match (discriminants item.variants).findIdx? (fun d => z == wireDiscriminant d) with
      | some index => .ok (.variant index []) (r.skip bytes.length)
      | none => .error (.enumDecode (.discriminant z item.name.name)) (r.skip bytes.length) := by
  have hread : Reader.signed .w64 r = .ok z (r.skip bytes.length) := IntTy.read_held h hz
  rw [decode_bare hplan, bind_of_ok hread]
  cases (discriminants item.variants).findIdx? (fun d => z == wireDiscriminant d) <;> rfl

theorem decode_bare_beyond (hplan : Γ.plan? name = some (item, .bare))
    (h : r.HoldsInteger z bytes) (hz : 2 ^ 63 ≤ z) :
    decode Γ (.named name args) r = .error (.type (.beyondSigned z.toNat)) r := by
  have hnot : ¬ (IntTy.signed .w64).Holds z := fun hholds => absurd hholds.2 (Int.not_lt.2 hz)
  have hread : Reader.signed .w64 r = .error (.type ((IntTy.signed .w64).refusal z)) r :=
    IntTy.read_refused h hnot
  rw [IntTy.refusal, if_neg (Int.not_lt.2 hz)] at hread
  rw [decode_bare hplan, bind_failed hread]

/-- A number of no variant. -/
theorem decode_bare_refused (hplan : Γ.plan? name = some (item, .bare))
    (h : r.HoldsInteger z bytes) (hz : ∀ d ∈ discriminants item.variants, wireDiscriminant d ≠ z) :
    ∃ e r', decode Γ (.named name args) r = .error e r' ∧ e.kind = .type := by
  by_cases hbeyond : 2 ^ 63 ≤ z
  · exact ⟨_, _, decode_bare_beyond hplan h hbeyond, rfl⟩
  have hnone : (discriminants item.variants).findIdx? (fun d => z == wireDiscriminant d) = none :=
    List.findIdx?_eq_none_iff.2 fun d hd => beq_eq_false_iff_ne.2 (hz d hd).symm
  have hread : decode Γ (.named name args) r = _ :=
    decode_bare_held hplan h ⟨h.low, Int.not_le.1 hbeyond⟩
  rw [hnone] at hread
  exact ⟨_, _, hread, rfl⟩

/-- Only the numbers of the variants matter. -/
theorem TravelsAs.congr {number number' : Int → Int} {t : Ty} {ds : List Int}
    (h : Γ.TravelsAs number t ds) (hsame : ∀ d ∈ ds, number d = number' d) :
    Γ.TravelsAs number' t ds where
  written index d hd := by
    rw [← hsame d (List.mem_of_getElem? hd)]
    exact h.written index d hd
  read index d hd := by
    rw [← hsame d (List.mem_of_getElem? hd)]
    exact h.read index d hd
  refused z hz := h.refused z fun d hd => by
    rw [hsame d hd]
    exact hz d hd

theorem travelsAs_wireDiscriminant (hplan : Γ.plan? name = some (item, .bare))
    (hnodup : (discriminants item.variants).Nodup) (hfit : FitWord (discriminants item.variants)) :
    Γ.TravelsAs wireDiscriminant (.named name args) (discriminants item.variants) where
  written index d hd := by
    have hwrite : encode Γ (.named name args) (.variant index []) =
        Writer.int (wireDiscriminant d) := writePart_bare hplan hd
    have hrange := IntWidth.range_of_holdsSigned (holdsSigned_wireDiscriminant d)
    exact ⟨hwrite, hwrite.trans (Writer.int_eq _), Form.shortest_int hrange.1 (by omega)⟩
  read index d hd r bytes hholds := by
    have hrange := (IntWidth.holdsSigned_iff _ _).1 (holdsSigned_wireDiscriminant d)
    rw [decode_bare_held hplan hholds hrange, findIdx?_wireDiscriminant hnodup hfit hd]
  refused z hz r bytes hholds := decode_bare_refused hplan hholds hz

/-- The variants of an enum without fields travel as their discriminants as signed numbers of 64
bits, and as their discriminants themselves if and only if these are such numbers. -/
theorem travelsAs_discriminants (hplan : Γ.plan? name = some (item, .bare))
    (hnodup : (discriminants item.variants).Nodup) (hfit : FitWord (discriminants item.variants)) :
    Γ.TravelsAs wireDiscriminant (.named name args) (discriminants item.variants) ∧
      (Γ.TravelsAs id (.named name args) (discriminants item.variants) ↔
        ∀ d ∈ discriminants item.variants, d < 2 ^ 63) := by
  have hwire : Γ.TravelsAs wireDiscriminant (.named name args) _ :=
    travelsAs_wireDiscriminant hplan hnodup hfit
  refine ⟨hwire, ?_, ?_⟩
  · intro hself d hd
    by_contra hbeyond
    obtain ⟨index, hindex⟩ := List.mem_iff_getElem?.1 hd
    obtain ⟨r, bytes, hholds⟩ := InStream.exists_holdsInteger (z := d) (by omega) (hfit.lt hd)
    have hread := hself.read index d hindex r bytes hholds
    rw [decode_bare_beyond hplan hholds (Int.not_lt.1 hbeyond)] at hread
    cases hread
  · intro hbelow
    exact hwire.congr fun d hd => (wireDiscriminant_eq_self_iff hfit hd).2 (hbelow d hd)

end Schema

/-- `Huge` is written as the number -1 and its discriminant `2 ^ 64 - 1` is refused; the variants
of `Signed` reach the ends of the signed numbers and travel as their discriminants. -/
theorem travelsAs_big_and_signed : ∃ big signed,
    (Sample.schema.plan? (Sample.home ++ "::Big") = some (big, .bare) ∧
      (discriminants big.variants).Nodup ∧ Schema.FitWord (discriminants big.variants) ∧
      Sample.schema.TravelsAs wireDiscriminant (Sample.type "Big") [0, 2 ^ 32, 2 ^ 64 - 1] ∧
      ¬ Sample.schema.TravelsAs id (Sample.type "Big") [0, 2 ^ 32, 2 ^ 64 - 1]) ∧
    Sample.schema.plan? (Sample.home ++ "::Signed") = some (signed, .bare) ∧
      (discriminants signed.variants).Nodup ∧ Schema.FitWord (discriminants signed.variants) ∧
      Sample.schema.TravelsAs id (Sample.type "Signed") [-2 ^ 63, -1, 0, 1, 2 ^ 63 - 1] := by
  obtain ⟨big, hbig, hbigs⟩ : ∃ item,
      Sample.schema.plan? (Sample.home ++ "::Big") = some (item, .bare) ∧
        discriminants item.variants = [0, 2 ^ 32, 2 ^ 64 - 1] := ⟨_, rfl, rfl⟩
  obtain ⟨signed, hsigned, hsigneds⟩ : ∃ item,
      Sample.schema.plan? (Sample.home ++ "::Signed") = some (item, .bare) ∧
        discriminants item.variants = [-2 ^ 63, -1, 0, 1, 2 ^ 63 - 1] := ⟨_, rfl, rfl⟩
  have hbigNodup : (discriminants big.variants).Nodup := hbigs ▸ by decide
  have hbigFit : Schema.FitWord (discriminants big.variants) := .inr (hbigs ▸ by decide)
  have hsignedNodup : (discriminants signed.variants).Nodup := hsigneds ▸ by decide
  have hsignedFit : Schema.FitWord (discriminants signed.variants) := .inl (hsigneds ▸ by decide)
  obtain ⟨hwire, hself⟩ :
      Sample.schema.TravelsAs wireDiscriminant (Sample.type "Big") (discriminants big.variants) ∧
        _ :=
    Schema.travelsAs_discriminants hbig hbigNodup hbigFit
  obtain ⟨-, hsame⟩ : Sample.schema.TravelsAs wireDiscriminant (Sample.type "Signed")
      (discriminants signed.variants) ∧ _ :=
    Schema.travelsAs_discriminants hsigned hsignedNodup hsignedFit
  rw [hbigs] at hwire hself
  rw [hsigneds] at hsame
  exact ⟨big, signed, ⟨hbig, hbigNodup, hbigFit, hwire, fun h => absurd (hself.1 h) (by decide)⟩,
    hsigned, hsignedNodup, hsignedFit, hsame.2 (by decide)⟩

end ObjectStream
