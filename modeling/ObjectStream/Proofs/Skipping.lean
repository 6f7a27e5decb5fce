import ObjectStream.Proofs.Local

/-!
# What is skipped

A walk over headers keeps the number of values still to come. `Passes` relates
that number before and after a run of bytes, so that runs compose, and one value
is skipped over a run if and only if the number goes from one to none on it. The
readers of scalars and headers agree with the step over a header: where they
succeed, in whatever form the value is, the step ends at the same place.
-/

namespace ObjectStream

/-- Over a run of bytes the number of values still to come goes from `m` to `n`. -/
inductive Passes (c : Context) : Nat → List UInt8 → Nat → Prop
  | refl (n : Nat) : Passes c n [] n
  | step {m nested n : Nat} {head rest : List UInt8} : Reader.Takes c Reader.stepOver head nested →
      Passes c (m + nested) rest n → Passes c (m + 1) (head ++ rest) n

namespace Passes

variable {c : Context} {l m n nested : Nat} {a b : List UInt8}

theorem trans (h : Passes c l a m) (h' : Passes c m b n) : Passes c l (a ++ b) n := by
  induction h with
  | refl => exact h'
  | step hhead _ ih =>
      rw [List.append_assoc]
      exact .step hhead (ih h')

/-- More values to come are still to come afterwards. -/
theorem add (h : Passes c m a n) (k : Nat) : Passes c (m + k) a (n + k) := by
  induction h with
  | refl n => exact .refl (n + k)
  | @step m nested n head rest hhead _ ih =>
      rw [Nat.add_right_comm] at ih ⊢
      exact .step hhead ih

/-- A header alone. -/
theorem one (h : Reader.Takes c Reader.stepOver a nested) : Passes c (m + 1) a (m + nested) := by
  have hstep : Passes c (m + 1) (a ++ []) (m + nested) := .step h (.refl _)
  rwa [List.append_nil] at hstep

end Passes

namespace Reader

variable {α β : Type} {c : Context}

/-! ## Runs that are skipped -/

theorem Takes.stepOver_ne_nil {bytes : List UInt8} {nested : Nat}
    (h : Takes c Reader.stepOver bytes nested) : bytes ≠ [] := by
  rintro rfl
  have hempty := h (.ofBytes c .empty 0 none) [] rfl rfl
  cases hempty

/-- The number of values to come goes down to none if they are skipped. -/
theorem skipMany_ok {fuel pending : Nat} {r r' : InStream}
    (h : skipMany fuel pending r = .ok () r') :
    ∃ bytes tail, r.rest = bytes ++ tail ∧ r' = r.skip bytes.length ∧
      Passes r.context pending bytes 0 := by
  induction fuel generalizing pending r with
  | zero =>
      cases pending with
      | zero =>
          cases h
          exact ⟨[], r'.rest, rfl, rfl, .refl 0⟩
      | succ pending => cases h
  | succ fuel ih =>
      cases pending with
      | zero =>
          cases h
          exact ⟨[], r'.rest, rfl, rfl, .refl 0⟩
      | succ pending =>
          obtain ⟨nested, t, hstep, hmore⟩ := bind_ok h
          obtain ⟨head, tail, hhead, rfl, htakes, -⟩ := Bites.stepOver r nested t hstep
          obtain ⟨rest, tail', hrest, rfl, hpasses⟩ := ih hmore
          rw [InStream.rest_skip_append hhead] at hrest
          refine ⟨head ++ rest, tail', ?_, ?_, .step htakes hpasses⟩
          · rw [hhead, hrest, List.append_assoc]
          · rw [InStream.skip_skip, List.length_append]

/-- Over a run the walk goes on with the number behind it. There are no more headers than bytes, so
the run takes no more fuel than its length. -/
theorem skipMany_through {m n : Nat} {bytes tail : List UInt8} {r : InStream}
    (h : Passes c m bytes n) (hc : r.context = c) (hrest : r.rest = bytes ++ tail) (fuel : Nat) :
    ∃ more, skipMany (bytes.length + fuel) m r =
      skipMany (more + fuel) n (r.skip bytes.length) := by
  induction h generalizing r fuel with
  | refl => exact ⟨0, rfl⟩
  | @step m nested n head rest hhead _ ih =>
      have hpos := List.length_pos_iff.2 hhead.stepOver_ne_nil
      rw [List.append_assoc] at hrest
      have hstep := hhead r _ hc hrest
      obtain ⟨more, hmore⟩ := ih (r := r.skip head.length) hc (InStream.rest_skip_append hrest)
        (head.length - 1 + fuel)
      rw [InStream.skip_skip, ← List.length_append] at hmore
      refine ⟨more + (head.length - 1), ?_⟩
      rw [Nat.add_assoc, ← hmore]
      have hfuel : (head ++ rest).length + fuel = rest.length + (head.length - 1 + fuel) + 1 := by
        rw [List.length_append]
        omega
      rw [hfuel, skipMany]
      simp only [Bind.bind, EStateM.bind, hstep]

theorem skipMany_of_passes {pending fuel : Nat} {bytes tail : List UInt8} {r : InStream}
    (h : Passes c pending bytes 0) (hc : r.context = c) (hrest : r.rest = bytes ++ tail)
    (hfuel : bytes.length ≤ fuel) :
    skipMany fuel pending r = .ok () (r.skip bytes.length) := by
  obtain ⟨more, hmore⟩ := skipMany_through h hc hrest (fuel - bytes.length)
  rw [Nat.add_sub_cancel' hfuel] at hmore
  rw [hmore]
  cases more + (fuel - bytes.length) <;> rfl

theorem skip_ok {r r' : InStream} (h : skip r = .ok () r') :
    ∃ bytes tail, r.rest = bytes ++ tail ∧ r' = r.skip bytes.length ∧
      Passes r.context 1 bytes 0 :=
  skipMany_ok h

/-- One value is skipped over a run if and only if the number of values goes from one to none on
it. -/
theorem Takes.skip_iff {bytes : List UInt8} :
    Takes c Reader.skip bytes () ↔ Passes c 1 bytes 0 := by
  constructor
  · intro h
    have hskip := h (.ofBytes c (packed bytes) 0 none) [] rfl (List.append_nil bytes).symm
    obtain ⟨bytes', tail, hrest, hcursor, hpasses⟩ := skip_ok hskip
    have hlen : bytes.length = bytes'.length := by
      have hpos := congrArg (fun r => r.cursor.pos) hcursor
      simpa [InStream.skip, ByteCursor.skip] using hpos
    obtain ⟨rfl, -⟩ := List.append_inj (hrest.symm.trans (List.append_nil bytes).symm) hlen.symm
    exact hpasses
  · intro h r tail hc hrest
    refine skipMany_of_passes h hc hrest ?_
    rw [← r.length_rest, hrest, List.length_append]
    omega

end Reader

namespace Reader

variable {α β : Type} {r r' : InStream} {code : UInt8}

/-! ## Readers that agree with the step over a header -/

/-- Where the reader succeeds, the step over a header ends where it does, and announces `nested a`
values behind a result `a`. -/
def Agrees (y : Reader α) (nested : α → Nat) : Prop :=
  ∀ r a r', y r = .ok a r' → stepOver r = .ok (nested a) r'

def Stays (y : Reader α) : Prop := ∀ r a r', y r = .ok a r' → r' = r

namespace Stays

theorem pure (a : α) : Stays (Pure.pure a) := by
  rintro r b r' h
  cases h
  rfl

theorem throw (e : StreamError) : Stays (MonadExcept.throw e : Reader α) := by
  intro r a r' h
  cases h

theorem ite {P : Prop} [Decidable P] {x y : Reader α} (hx : Stays x) (hy : Stays y) :
    Stays (if P then x else y) := by
  split
  · exact hx
  · exact hy

/-- A check of what was read. -/
theorem check {P : Prop} [Decidable P] (a : α) (e : StreamError) :
    Stays (if P then Pure.pure a else MonadExcept.throw e : Reader α) :=
  ite (pure a) (throw e)

theorem textOf (bytes : ByteArray) : Stays (Reader.textOf bytes) := by
  unfold Reader.textOf
  split
  · exact pure _
  · exact throw _

end Stays

theorem headed_ok {f : UInt8 → Reader α} {a : α}
    (h : orRestore (byte >>= f) r = .ok a r') :
    ∃ code tail, r.rest = code :: tail ∧ f code (r.skip 1) = .ok a r' := by
  obtain ⟨code, t, hbyte, hf⟩ := bind_ok (orRestore_ok.1 h)
  obtain ⟨rfl, tail, hrest⟩ := byte_ok hbyte
  exact ⟨code, tail, hrest, hf⟩

theorem advance_one {tail : List UInt8} (hrest : r.rest = code :: tail) :
    advance 1 r = .ok () (r.skip 1) := @advance_of_rest r [code] tail hrest

/-- A number of fixed width behind its code. -/
theorem advance_of_number {kind : NumberKind} {value : Int} {n : Nat} {tail : List UInt8}
    (hrest : r.rest = code :: tail) (h : number kind (r.skip 1) = .ok value r')
    (hn : n = 1 + kind.width) : advance n r = .ok () r' := by
  obtain ⟨rfl, bytes, tail', hrest', hlen, -⟩ := number_ok h
  rw [InStream.rest_skip, hrest, List.drop_one, List.tail_cons] at hrest'
  have hall : r.rest = (code :: bytes) ++ tail' := by
    rw [hrest, hrest']
    rfl
  have hadvance := advance_of_rest hall
  rwa [List.length_cons, hlen, Nat.add_comm, ← hn, hn, ← InStream.skip_skip, ← hn] at hadvance

theorem length_ok {kind : NumberKind} {n : Nat} (h : length kind r = .ok n r') :
    ∃ value, number kind r = .ok value r' := by
  obtain ⟨value, t, hnumber, hpure⟩ := bind_ok h
  cases hpure
  exact ⟨value, hnumber⟩

theorem ite_ok {P : Prop} [Decidable P] {x y : Reader α} {a : α}
    (h : (if P then x else y) r = .ok a r') : (P ∧ x r = .ok a r') ∨ y r = .ok a r' := by
  split at h
  · next hp => exact .inl ⟨hp, h⟩
  · exact .inr h

/-! ## The family of the first code -/

/-- The reader only succeeds on what starts with a code of one of some families. -/
def Wants (y : Reader α) (p : Format.Family → Prop) : Prop :=
  ∀ r a r', y r = .ok a r' → ∃ code tail, r.rest = code :: tail ∧ p (Format.family code)

namespace Wants

variable {y : Reader α} {p : Format.Family → Prop}

theorem orRestore (h : Wants y p) : Wants (Reader.orRestore y) p :=
  fun r a r' hy => h r a r' (orRestore_ok.1 hy)

theorem bind (h : Wants y p) (f : α → Reader β) : Wants (y >>= f) p := by
  intro r b r' hy
  obtain ⟨a, t, ht, -⟩ := bind_ok hy
  exact h r a t ht

/-- A look at the first code decides. -/
theorem peek {f : UInt8 → Reader α}
    (h : ∀ code r a r', f code r = .ok a r' → p (Format.family code)) :
    Wants (Reader.peek >>= f) p := by
  intro r a r' hr
  obtain ⟨code, t, hpeek, hf⟩ := bind_ok hr
  obtain ⟨rfl, tail, hrest⟩ := peek_ok hpeek
  exact ⟨code, tail, hrest, h code t a r' hf⟩

/-- The first code decides. -/
theorem byte {f : UInt8 → Reader α}
    (h : ∀ code r a r', f code r = .ok a r' → p (Format.family code)) :
    Wants (Reader.byte >>= f) p := by
  intro r a r' hr
  obtain ⟨code, t, hbyte, hf⟩ := bind_ok hr
  obtain ⟨rfl, tail, hrest⟩ := byte_ok hbyte
  exact ⟨code, tail, hrest, h code _ a r' hf⟩

/-- A code that the reader looks for is of the family, and so is what it looks for otherwise. -/
theorem known_or {code known : UInt8} {family : Format.Family} {x : Reader α} {r r' : InStream}
    {a : α} (hknown : Format.family known = family)
    (h : (if code = known then x else y) r = .ok a r')
    (hothers : y r = .ok a r' → Format.family code = family) : Format.family code = family := by
  rcases ite_ok h with ⟨rfl, -⟩ | h
  · exact hknown
  · exact hothers h

theorem arrayHeader : Wants Reader.arrayHeader (· = .array) := by
  refine orRestore (byte fun code r n r' hf => ?_)
  rcases ite_ok hf with ⟨hcode, -⟩ | hf
  · exact Format.family_fixarray hcode.1 hcode.2
  refine known_or rfl hf fun hf => ?_
  refine known_or rfl hf fun hf => ?_
  cases hf

theorem mapHeader : Wants Reader.mapHeader (· = .map) := by
  refine orRestore (byte fun code r n r' hf => ?_)
  rcases ite_ok hf with ⟨hcode, -⟩ | hf
  · exact Format.family_fixmap hcode.1 hcode.2
  refine known_or rfl hf fun hf => ?_
  refine known_or rfl hf fun hf => ?_
  cases hf

theorem strHeader : Wants Reader.strHeader (· = .str) := by
  refine orRestore (byte fun code r n r' hf => ?_)
  rcases ite_ok hf with ⟨hcode, -⟩ | hf
  · exact Format.family_fixstr hcode.1 hcode.2
  refine known_or rfl hf fun hf => ?_
  refine known_or rfl hf fun hf => ?_
  refine known_or rfl hf fun hf => ?_
  cases hf

theorem blobHeader : Wants Reader.blobHeader (· = .bin) := by
  refine orRestore (byte fun code r n r' hf => ?_)
  refine known_or rfl hf fun hf => ?_
  refine known_or rfl hf fun hf => ?_
  refine known_or rfl hf fun hf => ?_
  cases hf

theorem extHeader : Wants Reader.extHeader (· = .ext) := by
  refine orRestore (byte fun code r header r' hf => ?_)
  obtain ⟨n, t, hlength, -⟩ := bind_ok hf
  rw [extLength] at hlength
  cases hfix : Format.fixextLength? code with
  | some n => exact Format.family_ext hfix
  | none =>
      rw [hfix] at hlength
      refine known_or rfl hlength fun hf => ?_
      refine known_or rfl hf fun hf => ?_
      refine known_or rfl hf fun hf => ?_
      cases hf

theorem uint : Wants Reader.uint (·.isInteger = true) := by
  refine orRestore (byte fun code r n r' hf => ?_)
  cases hfamily : Format.family code <;> simp only [hfamily] at hf
  case positiveFixint | uint | int => rfl
  all_goals cases hf

theorem int : Wants Reader.int (·.isInteger = true) := by
  refine orRestore (byte fun code r n r' hf => ?_)
  cases hfamily : Format.family code <;> simp only [hfamily] at hf
  case positiveFixint | negativeFixint | uint | int => rfl
  all_goals cases hf

theorem nil : Wants Reader.nil (· = .nil) := by
  refine peek fun code r a r' hf => ?_
  rcases ite_ok hf with ⟨rfl, -⟩ | hf
  · rfl
  · cases hf

theorem bool : Wants Reader.bool (· = .bool) := by
  refine peek fun code r b r' hf => ?_
  rcases ite_ok hf with ⟨rfl, -⟩ | hf
  · rfl
  rcases ite_ok hf with ⟨rfl, -⟩ | hf
  · rfl
  · cases hf

theorem f32 : Wants Reader.f32 (· = .float32) := by
  refine orRestore (byte fun code r bits r' hf => ?_)
  rcases ite_ok hf with ⟨rfl, -⟩ | hf
  · rfl
  · cases hf

theorem f64 : Wants Reader.f64 fun family => family = .float64 ∨ family = .float32 := by
  refine orRestore (byte fun code r bits r' hf => ?_)
  rcases ite_ok hf with ⟨rfl, -⟩ | hf
  · exact .inl rfl
  rcases ite_ok hf with ⟨rfl, -⟩ | hf
  · exact .inr rfl
  · cases hf

end Wants

namespace Agrees

variable {y : Reader α} {nested : α → Nat} {n : Nat}

theorem orRestore (h : Agrees y nested) : Agrees (Reader.orRestore y) nested :=
  fun r a r' hy => h r a r' (orRestore_ok.1 hy)

theorem map (f : α → β) (h : Agrees y fun _ => n) : Agrees (f <$> y) fun _ => n := by
  intro r b r' hy
  rw [map_eq_pure_bind] at hy
  obtain ⟨a, t, ht, hpure⟩ := bind_ok hy
  cases hpure
  exact h r a r' ht

/-- What follows stays where the reader has come to. -/
theorem settle {f : α → Reader β} (h : Agrees y fun _ => n) (hf : ∀ a, Stays (f a)) :
    Agrees (y >>= f) fun _ => n := by
  intro r b r' hy
  obtain ⟨a, t, ht, hft⟩ := bind_ok hy
  rw [hf a t b r' hft]
  exact h r a t ht

/-! ### Headers -/

theorem arrayHeader : Agrees Reader.arrayHeader id := by
  intro r n r' h
  obtain ⟨code, tail, hrest, hfamily⟩ := Wants.arrayHeader r n r' h
  simp only [stepOver, Bind.bind, EStateM.bind, peek_of_rest hrest, hfamily]
  exact h

/-- The keys and the values of a map both count. -/
theorem mapHeader : Agrees Reader.mapHeader (2 * ·) := by
  intro r n r' h
  obtain ⟨code, tail, hrest, hfamily⟩ := Wants.mapHeader r n r' h
  simp only [stepOver, Bind.bind, EStateM.bind, peek_of_rest hrest, hfamily, h]
  rfl

theorem arrayHeaderOf (n : Nat) : Agrees (Reader.arrayHeaderOf n) fun _ => n := by
  intro r a r' h
  obtain ⟨count, t, hcount, hcheck⟩ := bind_ok (orRestore_ok.1 h)
  rcases ite_ok hcheck with ⟨rfl, hpure⟩ | hthrow
  · cases hpure
    exact arrayHeader r count r' hcount
  · cases hthrow

/-! ### Strings, raw bytes and extensions -/

theorem advance_of_raw {n : Nat} {bytes : ByteArray} (h : raw n r = .ok bytes r') :
    advance n r = .ok () r' := by
  simp only [raw, ByteCursor.take] at h
  simp only [advance, ByteCursor.advance]
  cases hshort : r.cursor.shortage? n with
  | some e =>
      rw [hshort] at h
      cases h
  | none =>
      rw [hshort] at h
      cases h
      rfl

/-- The bytes of a text, whether they spell one or not. -/
theorem strBytes : Agrees (Reader.strHeader >>= Reader.raw) fun _ => 0 := by
  intro r bytes r' h
  obtain ⟨n, t, hheader, hraw⟩ := bind_ok h
  obtain ⟨code, tail, hrest, hfamily⟩ := Wants.strHeader r n t hheader
  simp only [stepOver, Bind.bind, EStateM.bind, peek_of_rest hrest, hfamily, hheader,
    advance_of_raw hraw]
  rfl

theorem str : Agrees Reader.str fun _ => 0 := by
  have hstr := strBytes.settle (f := Reader.textOf) Stays.textOf
  rw [bind_assoc] at hstr
  exact orRestore hstr

theorem blob : Agrees Reader.blob fun _ => 0 := by
  intro r bytes r' h
  obtain ⟨n, t, hheader, hraw⟩ := bind_ok (orRestore_ok.1 h)
  obtain ⟨code, tail, hrest, hfamily⟩ := Wants.blobHeader r n t hheader
  simp only [stepOver, Bind.bind, EStateM.bind, peek_of_rest hrest, hfamily, hheader,
    advance_of_raw hraw]
  rfl

theorem ext : Agrees Reader.ext fun _ => 0 := by
  intro r payload r' h
  obtain ⟨header, t, hheader, hbody⟩ := bind_ok (orRestore_ok.1 h)
  obtain ⟨bytes, u, hraw, hpure⟩ := bind_ok hbody
  cases hpure
  obtain ⟨code, tail, hrest, hfamily⟩ := Wants.extHeader r header t hheader
  simp only [stepOver, Bind.bind, EStateM.bind, peek_of_rest hrest, hfamily, hheader,
    advance_of_raw hraw]
  rfl

/-! ### Integers and floats -/

/-- A number behind the code of an integer. -/
theorem integer {kind : NumberKind} {value : Int} {tail : List UInt8}
    (hrest : r.rest = code :: tail) (h : number kind (r.skip 1) = .ok value r')
    (hfamily : Format.family code = .uint ∨ Format.family code = .int)
    (hwidth : kind.width = 2 ^ (code.toNat % 4)) : stepOver r = .ok 0 r' := by
  have hadvance := advance_of_number hrest h (congrArg (1 + ·) hwidth).symm
  rcases hfamily with hfamily | hfamily
  all_goals
    simp only [stepOver, Bind.bind, EStateM.bind, peek_of_rest hrest, hfamily, hadvance]
    rfl

theorem uintBody {n : Nat} {tail : List UInt8} (hrest : r.rest = code :: tail)
    (hfamily : Format.family code = .uint) (h : Reader.uintBody code (r.skip 1) = .ok n r') :
    stepOver r = .ok 0 r' := by
  have hkind : ∃ kind, Reader.uintBody code = length kind ∧
      kind.width = 2 ^ (code.toNat % 4) := by
    rcases Format.code_of_uint hfamily with rfl | rfl | rfl | rfl
    · exact ⟨.u8, rfl, rfl⟩
    · exact ⟨.u16, rfl, rfl⟩
    · exact ⟨.u32, rfl, rfl⟩
    · exact ⟨.u64, rfl, rfl⟩
  obtain ⟨kind, hbody, hwidth⟩ := hkind
  rw [hbody] at h
  obtain ⟨value, hnumber⟩ := length_ok h
  exact integer hrest hnumber (.inl hfamily) hwidth

theorem intBody {value : Int} {tail : List UInt8} (hrest : r.rest = code :: tail)
    (hfamily : Format.family code = .int) (h : Reader.intBody code (r.skip 1) = .ok value r') :
    stepOver r = .ok 0 r' := by
  have hkind : ∃ kind, Reader.intBody code = number kind ∧
      kind.width = 2 ^ (code.toNat % 4) := by
    rcases Format.code_of_int hfamily with rfl | rfl | rfl | rfl
    · exact ⟨.i8, rfl, rfl⟩
    · exact ⟨.i16, rfl, rfl⟩
    · exact ⟨.i32, rfl, rfl⟩
    · exact ⟨.i64, rfl, rfl⟩
  obtain ⟨kind, hbody, hwidth⟩ := hkind
  rw [hbody] at h
  exact integer hrest h (.inr hfamily) hwidth

/-- A code by itself. -/
theorem code_alone {tail : List UInt8} (hrest : r.rest = code :: tail)
    (hfamily : Format.family code = .positiveFixint ∨ Format.family code = .negativeFixint ∨
      Format.family code = .nil ∨ Format.family code = .bool) :
    stepOver r = .ok 0 (r.skip 1) := by
  have hadvance := advance_one hrest
  rcases hfamily with hfamily | hfamily | hfamily | hfamily
  all_goals
    simp only [stepOver, Bind.bind, EStateM.bind, peek_of_rest hrest, hfamily, hadvance]
    rfl

theorem uint : Agrees Reader.uint fun _ => 0 := by
  intro r n r' h
  obtain ⟨code, tail, hrest, hf⟩ := headed_ok h
  cases hfamily : Format.family code <;> simp only [hfamily] at hf
  case positiveFixint =>
    cases hf
    exact code_alone hrest (.inl hfamily)
  case uint => exact uintBody hrest hfamily hf
  case int =>
    obtain ⟨value, t, hbody, hcheck⟩ := bind_ok hf
    rw [Stays.check _ _ t n r' hcheck]
    exact intBody hrest hfamily hbody
  all_goals cases hf

theorem int : Agrees Reader.int fun _ => 0 := by
  intro r value r' h
  obtain ⟨code, tail, hrest, hf⟩ := headed_ok h
  cases hfamily : Format.family code <;> simp only [hfamily] at hf
  case positiveFixint =>
    cases hf
    exact code_alone hrest (.inl hfamily)
  case negativeFixint =>
    cases hf
    exact code_alone hrest (.inr (.inl hfamily))
  case int => exact intBody hrest hfamily hf
  case uint =>
    obtain ⟨n, t, hbody, hcheck⟩ := bind_ok hf
    rw [Stays.check _ _ t value r' hcheck]
    exact uintBody hrest hfamily hbody
  all_goals cases hf

theorem unsigned (width : IntWidth) : Agrees (Reader.unsigned width) fun _ => 0 :=
  orRestore (uint.settle fun _ => Stays.check _ _)

theorem signed (width : IntWidth) : Agrees (Reader.signed width) fun _ => 0 :=
  orRestore (int.settle fun _ => Stays.check _ _)

theorem nil : Agrees Reader.nil fun _ => 0 := by
  intro r a r' h
  obtain ⟨code, t, hpeek, hf⟩ := bind_ok h
  obtain ⟨rfl, tail, hrest⟩ := peek_ok hpeek
  rcases ite_ok hf with ⟨rfl, hadvance⟩ | hrefuse
  · rw [advance_one hrest] at hadvance
    cases hadvance
    exact code_alone hrest (.inr (.inr (.inl rfl)))
  · cases hrefuse

theorem bool : Agrees Reader.bool fun _ => 0 := by
  intro r b r' h
  obtain ⟨code, t, hpeek, hf⟩ := bind_ok h
  obtain ⟨rfl, tail, hrest⟩ := peek_ok hpeek
  have hone {b' : Bool} (hmove : (do advance 1; Pure.pure b' : Reader Bool) t = .ok b r') :
      r' = t.skip 1 := by
    obtain ⟨_, u, hadvance, hpure⟩ := bind_ok hmove
    rw [advance_one hrest] at hadvance
    cases hadvance
    cases hpure
    rfl
  rcases ite_ok hf with ⟨rfl, hmove⟩ | hf
  · rw [hone hmove]
    exact code_alone hrest (.inr (.inr (.inr rfl)))
  rcases ite_ok hf with ⟨rfl, hmove⟩ | hf
  · rw [hone hmove]
    exact code_alone hrest (.inr (.inr (.inr rfl)))
  · cases hf

/-- A float of four bytes, whatever is made of its pattern. -/
theorem single {a : α} {f : Nat → α} {tail : List UInt8} (hrest : r.rest = Format.float32 :: tail)
    (h : (do Pure.pure (f (← length .f32)) : Reader α) (r.skip 1) = .ok a r') :
    stepOver r = .ok 0 r' := by
  obtain ⟨n, t, hlength, hpure⟩ := bind_ok h
  cases hpure
  obtain ⟨value, hnumber⟩ := length_ok hlength
  have hadvance := advance_of_number (n := 5) hrest hnumber rfl
  have hfamily : Format.family Format.float32 = .float32 := rfl
  simp only [stepOver, Bind.bind, EStateM.bind, peek_of_rest hrest, hfamily, hadvance]
  rfl

theorem f32 : Agrees Reader.f32 fun _ => 0 := by
  intro r bits r' h
  obtain ⟨code, tail, hrest, hf⟩ := headed_ok h
  rcases ite_ok hf with ⟨rfl, hbody⟩ | hrefuse
  · exact single hrest hbody
  · cases hrefuse

theorem f64 : Agrees Reader.f64 fun _ => 0 := by
  intro r bits r' h
  obtain ⟨code, tail, hrest, hf⟩ := headed_ok h
  rcases ite_ok hf with ⟨rfl, hbody⟩ | hf
  · obtain ⟨n, t, hlength, hpure⟩ := bind_ok hbody
    cases hpure
    obtain ⟨value, hnumber⟩ := length_ok hlength
    have hadvance := advance_of_number (n := 9) hrest hnumber rfl
    have hfamily : Format.family Format.float64 = .float64 := rfl
    simp only [stepOver, Bind.bind, EStateM.bind, peek_of_rest hrest, hfamily, hadvance]
    rfl
  rcases ite_ok hf with ⟨rfl, hbody⟩ | hrefuse
  · exact single (f := fun n => widenFloat (UInt32.ofNat n)) hrest hbody
  · cases hrefuse

theorem char : Agrees Reader.char fun _ => 0 :=
  (unsigned .w32).settle fun _ => Stays.check _ _

theorem uuid : Agrees Reader.uuid fun _ => 0 :=
  (orRestore (ext.settle fun _ => Stays.check _ _)).settle fun _ => Stays.check _ _

theorem scalar (s : Scalar) : Agrees (Reader.scalar s) fun _ => 0 := by
  cases s with
  | bool => exact bool.map _
  | unsigned width => exact (unsigned width).map _
  | signed width => exact (signed width).map _
  | char => exact char.map _
  | float32 => exact f32.map _
  | float64 => exact f64.map _
  | string | smallString => exact str.map _
  | str =>
      intro r d r' h
      cases h
  | bytes | bytesMut => exact blob.map _
  | duration | typeTag => exact (unsigned _).map _
  | systemTime =>
      rw [Reader.scalar_systemTime]
      exact (signed .w64).map _
  | dateTime => exact (signed .w64).map _
  | uuid => exact uuid.map _

end Agrees

end Reader

end ObjectStream
