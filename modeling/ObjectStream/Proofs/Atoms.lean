import ObjectStream.Proofs.Spelling

/-!
# Values are sequences of atoms

Whatever a step over a header goes over is a form of an atom, so the forms are all
there are, and what can be skipped as a value is a sequence of atoms. For each
family of codes the length of the step says how many bytes belong to the atom, and
any bytes in a field spell some number.
-/

namespace ObjectStream

namespace Reader

variable {α : Type} {r r' : InStream} {code : UInt8} {n : Nat}

theorem code_eq_of_lt {P : UInt8 → Prop} (h : ∀ m < 256, P (UInt8.ofNat m)) (code : UInt8) :
    P code := by
  have hcode := h code.toNat code.toNat_lt
  rwa [UInt8.ofNat_toNat] at hcode

/-- The bytes behind a code spell a number of their width. -/
theorem coded_of_rest {kind : NumberKind} {order : ByteOrder} {bytes tail : List UInt8}
    (hrest : r.rest = code :: bytes ++ tail) (hlen : bytes.length = kind.width) :
    ∃ z, kind.Holds z ∧ r.rest = Form.coded code kind z order ++ tail :=
  ⟨kind.ofBytes order bytes, kind.holds_ofBytes order hlen, by
    rw [hrest, Form.coded, Form.append_apply, Form.number, kind.bytes_ofBytes order hlen]
    rfl⟩

theorem advance_coded {kind : NumberKind} {tail : List UInt8} (hrest : r.rest = code :: tail)
    (h : advance (1 + kind.width) r = .ok () r') :
    ∃ z tail, kind.Holds z ∧ r.rest = Form.coded code kind z r.context.byteOrder ++ tail ∧
      r' = r.skip (Form.coded code kind z r.context.byteOrder).length := by
  obtain ⟨bytes, tail', hbytes, hlen, rfl⟩ := advance_ok h
  cases bytes with
  | nil =>
      rw [List.length_nil] at hlen
      omega
  | cons code' bytes =>
      rw [hrest, List.cons_append, List.cons.injEq] at hbytes
      obtain ⟨rfl, htail⟩ := hbytes
      rw [List.length_cons] at hlen
      have hwidth : bytes.length = kind.width := by omega
      obtain ⟨z, hz, hform⟩ : ∃ z, kind.Holds z ∧
          r.rest = Form.coded code kind z r.context.byteOrder ++ tail' :=
        coded_of_rest (hrest.trans (congrArg (code :: ·) htail)) hwidth
      exact ⟨z, tail', hz, hform, by rw [Form.length_coded]⟩

/-- The stream goes on with a form of the heading for the number `n`, behind which `r'` is. -/
def Announces (h : Heading) (r : InStream) (n : Nat) (r' : InStream) : Prop :=
  ∃ f tail, h.Spells n f ∧ r.rest = f r.context.byteOrder ++ tail ∧
    r' = r.skip (f r.context.byteOrder).length

/-- A number behind a code of the heading. -/
theorem Announces.field {h : Heading} {kind : NumberKind} {tail : List UInt8}
    (hrest : r.rest = code :: tail) (hfield : (code, kind) ∈ h.fields)
    (hkind : kind.isSigned = false) (hlength : length kind (r.skip 1) = .ok n r') :
    Announces h r n r' := by
  obtain ⟨z, t, hnumber, hpure⟩ := bind_ok hlength
  cases hpure
  obtain ⟨rfl, bytes, tail', hbytes, hlen, rfl⟩ := number_ok hnumber
  have hholds := kind.holds_ofBytes r.context.byteOrder hlen
  obtain ⟨m, hm⟩ := Int.eq_ofNat_of_zero_le (Takes.holds_nonneg hkind hholds)
  rw [InStream.rest_skip, hrest, List.drop_one, List.tail_cons] at hbytes
  rw [InStream.context_skip, hm, Int.toNat_natCast]
  refine ⟨.coded code kind m, tail', .field hfield (hm ▸ hholds), ?_, ?_⟩
  · rw [hrest, hbytes, Form.coded, Form.append_apply, Form.number, ← hm,
      kind.bytes_ofBytes _ hlen]
    rfl
  · rw [InStream.skip_skip, Form.length_coded]

theorem Announces.short {h : Heading} {tail : List UInt8} (hrest : r.rest = code :: tail)
    (hshort : h.short? n = some code) : Announces h r n (r.skip 1) :=
  ⟨.plain [code], tail, .short hshort, hrest, rfl⟩

/-- A reader that looks for a code of the heading, and for others after it. -/
theorem Announces.field_or {h : Heading} {kind : NumberKind} {known : UInt8} {others : Reader Nat}
    {tail : List UInt8} (hrest : r.rest = code :: tail) (hfield : (known, kind) ∈ h.fields)
    (hkind : kind.isSigned = false)
    (hread : (if code = known then length kind else others) (r.skip 1) = .ok n r')
    (hothers : others (r.skip 1) = .ok n r' → Announces h r n r') : Announces h r n r' := by
  rcases ite_ok hread with ⟨rfl, hlength⟩ | hread
  · exact .field hrest hfield hkind hlength
  · exact hothers hread

theorem announces_array (h : arrayHeader r = .ok n r') : Announces .array r n r' := by
  obtain ⟨code, tail, hrest, hf⟩ := headed_ok h
  have hshort := code_eq_of_lt (P := fun code => 0x90 ≤ code → code ≤ 0x9f →
    Heading.array.short? (code - Format.fixarray).toNat = some code) (by decide +kernel) code
  rcases ite_ok hf with ⟨⟨hlow, hhigh⟩, hpure⟩ | hf
  · cases hpure
    exact .short hrest (hshort hlow hhigh)
  refine .field_or hrest (by decide) rfl hf fun hf => ?_
  refine .field_or hrest (by decide) rfl hf fun hf => ?_
  cases hf

theorem announces_map (h : mapHeader r = .ok n r') : Announces .map r n r' := by
  obtain ⟨code, tail, hrest, hf⟩ := headed_ok h
  have hshort := code_eq_of_lt (P := fun code => 0x80 ≤ code → code ≤ 0x8f →
    Heading.map.short? (code - Format.fixmap).toNat = some code) (by decide +kernel) code
  rcases ite_ok hf with ⟨⟨hlow, hhigh⟩, hpure⟩ | hf
  · cases hpure
    exact .short hrest (hshort hlow hhigh)
  refine .field_or hrest (by decide) rfl hf fun hf => ?_
  refine .field_or hrest (by decide) rfl hf fun hf => ?_
  cases hf

theorem announces_str (h : strHeader r = .ok n r') : Announces .str r n r' := by
  obtain ⟨code, tail, hrest, hf⟩ := headed_ok h
  have hshort := code_eq_of_lt (P := fun code => 0xa0 ≤ code → code ≤ 0xbf →
    Heading.str.short? (code - Format.fixstr).toNat = some code) (by decide +kernel) code
  rcases ite_ok hf with ⟨⟨hlow, hhigh⟩, hpure⟩ | hf
  · cases hpure
    exact .short hrest (hshort hlow hhigh)
  refine .field_or hrest (by decide) rfl hf fun hf => ?_
  refine .field_or hrest (by decide) rfl hf fun hf => ?_
  refine .field_or hrest (by decide) rfl hf fun hf => ?_
  cases hf

theorem announces_blob (h : blobHeader r = .ok n r') : Announces .blob r n r' := by
  obtain ⟨code, tail, hrest, hf⟩ := headed_ok h
  refine .field_or hrest (by decide) rfl hf fun hf => ?_
  refine .field_or hrest (by decide) rfl hf fun hf => ?_
  refine .field_or hrest (by decide) rfl hf fun hf => ?_
  cases hf

/-- The code and the length of an extension. -/
theorem announces_ext {tail : List UInt8} (hrest : r.rest = code :: tail)
    (h : extLength code (r.skip 1) = .ok n r') : Announces .ext r n r' := by
  have hshort : ∀ m, Format.fixextLength? code = some m → Format.fixext? m = some code :=
    code_eq_of_lt (P := fun code => ∀ m, Format.fixextLength? code = some m →
      Format.fixext? m = some code) (by decide +kernel) code
  rw [extLength] at h
  cases hfix : Format.fixextLength? code with
  | some m =>
      rw [hfix] at h
      cases h
      exact .short hrest (hshort _ hfix)
  | none =>
      rw [hfix] at h
      refine .field_or hrest (by decide) rfl h fun hf => ?_
      refine .field_or hrest (by decide) rfl hf fun hf => ?_
      refine .field_or hrest (by decide) rfl hf fun hf => ?_
      cases hf

def GoesOver (r r' : InStream) : Prop :=
  ∃ (atom : Atom) (f : Form) (tail : List UInt8), atom.Spelled f ∧
    r.rest = f r.context.byteOrder ++ tail ∧ r' = r.skip (f r.context.byteOrder).length

namespace GoesOver

/-- A code by itself. -/
theorem alone {tail : List UInt8} (hrest : r.rest = code :: tail)
    (hfamily : Format.family code = .positiveFixint ∨ Format.family code = .negativeFixint ∨
      Format.family code = .nil ∨ Format.family code = .bool) : GoesOver r (r.skip 1) := by
  rcases hfamily with hfamily | hfamily | hfamily | hfamily
  · have hlt := code_eq_of_lt (P := fun code => Format.family code = .positiveFixint →
      code.toNat < 128) (by decide +kernel) code hfamily
    refine ⟨.int code.toNat, _, tail, .fixint hlt, ?_, rfl⟩
    rw [hrest, UInt8.ofNat_toNat]
    rfl
  · have hle := code_eq_of_lt (P := fun code => Format.family code = .negativeFixint →
      224 ≤ code.toNat) (by decide +kernel) code hfamily
    have hlt := code.toNat_lt
    have hneg : (code.toNat : Int) - 256 < 0 := by omega
    have hform := Form.number_fixint (by omega) hneg r.context.byteOrder
    rw [Int.sub_add_cancel, Int.toNat_natCast, UInt8.ofNat_toNat] at hform
    exact ⟨.int (code.toNat - 256), _, tail, .negativeFixint (by omega) (by omega),
      by rw [hrest, hform]; rfl, by rw [hform]; rfl⟩
  · have hcode := code_eq_of_lt (P := fun code => Format.family code = .nil →
      code = Format.nil) (by decide +kernel) code hfamily
    exact ⟨.nil, _, tail, .nil, by rw [hrest, hcode]; rfl, rfl⟩
  · have hcode := code_eq_of_lt (P := fun code => Format.family code = .bool →
      code = Format.falseCode ∨ code = Format.trueCode) (by decide +kernel) code hfamily
    rcases hcode with rfl | rfl
    · exact ⟨.bool false, _, tail, .bool false, hrest, rfl⟩
    · exact ⟨.bool true, _, tail, .bool true, hrest, rfl⟩

/-- A number behind the code of an integer. -/
theorem integer {tail : List UInt8} (hrest : r.rest = code :: tail)
    (hfamily : Format.family code = .uint ∨ Format.family code = .int)
    (h : advance (1 + 2 ^ (code.toNat % 4)) r = .ok () r') : GoesOver r r' := by
  obtain ⟨kind, hfield, hwidth⟩ : ∃ kind, (code, kind) ∈ Format.intFields ∧
      kind.width = 2 ^ (code.toNat % 4) := by
    rcases hfamily with hfamily | hfamily
    · rcases Format.code_of_uint hfamily with rfl | rfl | rfl | rfl
      · exact ⟨.u8, by decide, rfl⟩
      · exact ⟨.u16, by decide, rfl⟩
      · exact ⟨.u32, by decide, rfl⟩
      · exact ⟨.u64, by decide, rfl⟩
    · rcases Format.code_of_int hfamily with rfl | rfl | rfl | rfl
      · exact ⟨.i8, by decide, rfl⟩
      · exact ⟨.i16, by decide, rfl⟩
      · exact ⟨.i32, by decide, rfl⟩
      · exact ⟨.i64, by decide, rfl⟩
  rw [← hwidth] at h
  obtain ⟨z, tail', hz, hform, rfl⟩ := advance_coded hrest h
  exact ⟨.int z, _, tail', .int hfield hz, hform, rfl⟩

/-- The pattern of a float behind its code. -/
theorem float {kind : NumberKind} {tail : List UInt8} (hrest : r.rest = code :: tail)
    (hkind : code = Format.float32 ∧ kind = .f32 ∨ code = Format.float64 ∧ kind = .f64)
    (h : advance (1 + kind.width) r = .ok () r') : GoesOver r r' := by
  obtain ⟨z, tail', hz, hform, rfl⟩ := advance_coded hrest h
  rcases hkind with ⟨rfl, rfl⟩ | ⟨rfl, rfl⟩
  · obtain ⟨n, rfl⟩ := Int.eq_ofNat_of_zero_le (Takes.holds_nonneg rfl hz)
    have hn : n < 2 ^ 32 := by
      have := hz.2
      simp [NumberKind.modulus, NumberKind.width] at this
      omega
    have hbits : (UInt32.ofNat n).toNat = n := by
      rw [UInt32.toNat_ofNat', Nat.mod_eq_of_lt hn]
    rw [← hbits] at hform ⊢
    exact ⟨.single (UInt32.ofNat n), _, tail', .single _, hform, rfl⟩
  · obtain ⟨n, rfl⟩ := Int.eq_ofNat_of_zero_le (Takes.holds_nonneg rfl hz)
    have hn : n < 2 ^ 64 := by
      have := hz.2
      simp [NumberKind.modulus, NumberKind.width] at this
      omega
    have hbits : (UInt64.ofNat n).toNat = n := by
      rw [UInt64.toNat_ofNat', Nat.mod_eq_of_lt hn]
    rw [← hbits] at hform ⊢
    exact ⟨.double (UInt64.ofNat n), _, tail', .double _, hform, rfl⟩

/-- The bytes that a header announces. -/
theorem body {h : Heading} {t : InStream} {atom : ByteArray → Atom} (hheader : Announces h r n t)
    (hatom : ∀ bytes f, h.Spells bytes.size f →
      (atom bytes).Spelled (f ++ .plain (unpacked bytes)))
    (hadvance : advance n t = .ok () r') : GoesOver r r' := by
  obtain ⟨f, tail, hf, hrest, rfl⟩ := hheader
  obtain ⟨bytes, tail', hbytes, rfl, rfl⟩ := advance_ok hadvance
  rw [InStream.rest_skip_append hrest] at hbytes
  refine ⟨atom (packed bytes), _, tail', hatom (packed bytes) f hf, ?_, ?_⟩
  · rw [hrest, hbytes, Form.append_apply, List.append_assoc]
    rfl
  · rw [InStream.skip_skip, Form.length_append, Form.length_plain, unpacked_packed]

/-- The subtype of an extension and its payload. -/
theorem extension {subtype : Int} {t : InStream} (hheader : extHeader r = .ok (subtype, n) t)
    (hadvance : advance n t = .ok () r') : GoesOver r r' := by
  obtain ⟨code, tail, hrest, hf⟩ := headed_ok hheader
  obtain ⟨m, u, hlength, hbehind⟩ := bind_ok hf
  obtain ⟨z, w, hnumber, hpure⟩ := bind_ok hbehind
  cases hpure
  obtain ⟨f, tail', hspells, hform, hu⟩ := announces_ext hrest hlength
  subst hu
  obtain ⟨ht, sub, tail'', hsub, hlen, -⟩ := number_ok hnumber
  subst ht
  obtain ⟨bytes, tail₃, hbytes, rfl, rfl⟩ := advance_ok hadvance
  have htail := InStream.rest_skip_append hform
  rw [htail] at hsub
  rw [InStream.rest_skip, htail, hsub, ← hlen, List.drop_left] at hbytes
  have hsubtype := NumberKind.i8.holds_ofBytes r.context.byteOrder hlen
  have hatom : (Atom.ext _ (packed bytes)).Spelled _ := .ext hspells hsubtype
  refine ⟨_, _, tail₃, hatom, ?_, ?_⟩
  · rw [hform, hsub, hbytes]
    simp only [Form.append_apply, Form.number, Form.plain, NumberKind.bytes_ofBytes _ _ hlen,
      unpacked_packed, List.append_assoc]
  · rw [InStream.skip_skip, InStream.skip_skip]
    simp only [Form.length_append, Form.length_plain, Form.length_number, unpacked_packed,
      Nat.add_assoc]

/-- A step over a header goes over an atom. -/
theorem of_stepOver (h : stepOver r = .ok n r') : GoesOver r r' := by
  obtain ⟨code, t, hpeek, hf⟩ := bind_ok h
  obtain ⟨rfl, tail, hrest⟩ := peek_ok hpeek
  have hmove {k : Nat} (hover : (do advance k; pure 0 : Reader Nat) t = .ok n r') :
      advance k t = .ok () r' := by
    obtain ⟨_, u, hadvance, hpure⟩ := bind_ok hover
    cases hpure
    exact hadvance
  cases hfamily : Format.family code <;> simp only [hfamily] at hf
  case positiveFixint | negativeFixint | nil | bool =>
    have hadvance := hmove hf
    rw [advance_one hrest] at hadvance
    cases hadvance
    exact alone hrest (by simp [hfamily])
  case uint => exact integer hrest (.inl hfamily) (hmove hf)
  case int => exact integer hrest (.inr hfamily) (hmove hf)
  case float32 =>
    have hcode := code_eq_of_lt (P := fun code => Format.family code = .float32 →
      code = Format.float32) (by decide +kernel) code hfamily
    exact float hrest (.inl ⟨hcode, rfl⟩) (hmove hf)
  case float64 =>
    have hcode := code_eq_of_lt (P := fun code => Format.family code = .float64 →
      code = Format.float64) (by decide +kernel) code hfamily
    exact float hrest (.inr ⟨hcode, rfl⟩) (hmove hf)
  case str =>
    obtain ⟨m, u, hheader, hbody⟩ := bind_ok hf
    obtain ⟨_, w, hadvance, hpure⟩ := bind_ok hbody
    cases hpure
    exact body (announces_str hheader) (fun bytes f hf => .str hf) hadvance
  case bin =>
    obtain ⟨m, u, hheader, hbody⟩ := bind_ok hf
    obtain ⟨_, w, hadvance, hpure⟩ := bind_ok hbody
    cases hpure
    exact body (announces_blob hheader) (fun bytes f hf => .blob hf) hadvance
  case ext =>
    obtain ⟨m, u, hheader, hbody⟩ := bind_ok hf
    obtain ⟨_, w, hadvance, hpure⟩ := bind_ok hbody
    cases hpure
    exact extension hheader hadvance
  case array =>
    obtain ⟨f, tail, hspells, hform, hr'⟩ := announces_array hf
    exact ⟨.array n, f, tail, .array hspells, hform, hr'⟩
  case map =>
    obtain ⟨m, u, hheader, hpure⟩ := bind_ok hf
    cases hpure
    obtain ⟨f, tail, hspells, hform, hr'⟩ := announces_map hheader
    exact ⟨.map m, f, tail, .map hspells, hform, hr'⟩
  case unused => cases hf

end GoesOver

/-- What a step over a header takes is a form of an atom. -/
theorem Takes.exists_spelled {c : Context} {bytes : List UInt8}
    (h : Takes c Reader.stepOver bytes n) :
    ∃ (atom : Atom) (f : Form), atom.Spelled f ∧ bytes = f c.byteOrder := by
  have hstep := h (.ofBytes c (packed bytes) 0 none) [] rfl (List.append_nil bytes).symm
  obtain ⟨atom, f, tail, hf, hrest, hr'⟩ := GoesOver.of_stepOver hstep
  have hlen : bytes.length = (f c.byteOrder).length := by
    have hpos := congrArg (fun r => r.cursor.pos) hr'
    simp only [InStream.skip, ByteCursor.skip, Nat.add_left_cancel_iff] at hpos
    exact hpos
  have hall : bytes ++ [] = f c.byteOrder ++ tail := (List.append_nil bytes).trans hrest
  exact ⟨atom, f, hf, (List.append_inj hall hlen).1⟩

end Reader

/-- A run of bytes over which values are skipped spells a sequence of atoms. -/
theorem Passes.exists_spells {c : Context} {m n : Nat} {bytes : List UInt8}
    (h : Passes c m bytes n) : ∃ atoms, Spells c.byteOrder atoms bytes := by
  induction h with
  | refl => exact ⟨[], .nil⟩
  | step hhead _ ih =>
      obtain ⟨atom, f, hf, rfl⟩ := hhead.exists_spelled
      obtain ⟨atoms, hatoms⟩ := ih
      exact ⟨atom :: atoms, .cons hf hatoms⟩

end ObjectStream
