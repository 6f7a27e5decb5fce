import ObjectStream.Proofs.Shape
import ObjectStream.Proofs.Spelling

/-!
# Answers to atoms

A reader of a header or of a scalar goes by what is spelled and not by the way: if
it succeeds on one form of an atom, it takes every form of it for the same. The
first code of an atom says which readers can succeed on it at all. Only the
readers of integers also look at the number, which has to be in their range.
-/

namespace ObjectStream

namespace Reader

variable {α β : Type} {c : Context}

/-- What the action behind a taken run does. -/
theorem Takes.bind_ok {x : Reader α} {k : α → Reader β} {p tail : List UInt8} {a : α} {b : β}
    {r r' : InStream} (hx : Takes r.context x p a) (hrest : r.rest = p ++ tail)
    (h : (x >>= k) r = .ok b r') : k a (r.skip p.length) = .ok b r' := by
  obtain ⟨a', t, ht, hk⟩ := ObjectStream.bind_ok h
  rw [hx r tail rfl hrest] at ht
  cases ht
  exact hk

/-- If the reader succeeds on one form of an atom, it takes every form of it for the same. -/
def Answers (x : Reader α) : Prop :=
  ∀ (r : InStream) (a : α) (r' : InStream) (atom : Atom) (f : Form) (tail : List UInt8),
    atom.Spelled f → r.rest = f r.context.byteOrder ++ tail → x r = .ok a r' →
    ∀ g : Form, atom.Spelled g → Takes r.context x (g r.context.byteOrder) a

theorem Wants.opens {x : Reader α} {p : Format.Family → Prop} (hx : Wants x p) {r r' : InStream}
    {a : α} {atom : Atom} {f : Form} {tail : List UInt8} (hf : atom.Spelled f)
    (hrest : r.rest = f r.context.byteOrder ++ tail) (h : x r = .ok a r') :
    ∃ family, p family ∧ atom.Opens family := by
  obtain ⟨code, bytes, hcode, hp⟩ := hx r a r' h
  obtain ⟨code', bytes', hform, hopens⟩ := hf.opens r.context.byteOrder
  rw [hrest, hform, List.cons_append, List.cons.injEq] at hcode
  obtain ⟨rfl, -⟩ := hcode
  exact ⟨_, hp, hopens⟩

namespace Answers

variable {x : Reader α}

/-- It is enough that one value is taken from all forms of an atom on which the reader succeeds. -/
theorem of_wants {p : Format.Family → Prop} (hx : Wants x p)
    (h : ∀ (c : Context) (atom : Atom) (family : Format.Family), p family → atom.Opens family →
      ∃ a, ∀ f, atom.Spelled f → Takes c x (f c.byteOrder) a) : Answers x := by
  intro r a r' atom f tail hf hrest hr g hg
  obtain ⟨family, hp, hopens⟩ := hx.opens hf hrest hr
  obtain ⟨b, htakes⟩ := h r.context atom family hp hopens
  have hsame := htakes f hf r tail rfl hrest
  rw [hr] at hsame
  cases hsame
  exact htakes g hg

theorem orRestore (h : Answers x) : Answers (Reader.orRestore x) :=
  fun r a r' atom f tail hf hrest hr g hg =>
    (h r a r' atom f tail hf hrest (orRestore_ok.1 hr) g hg).orRestore

/-- What follows only judges what was read. -/
theorem judge {k : α → Reader β} (hx : Answers x)
    (hk : ∀ a, (∃ b, k a = Pure.pure b) ∨ ∃ e, k a = throw e) : Answers (x >>= k) := by
  intro r b r' atom f tail hf hrest hr g hg
  obtain ⟨a, t, ht, hka⟩ := ObjectStream.bind_ok hr
  rcases hk a with ⟨b', hpure⟩ | ⟨e, hthrow⟩
  · rw [hpure] at hka
    cases hka
    have htakes := (hx r a _ atom f tail hf hrest ht g hg).bind (f := k)
      (hpure ▸ Takes.pure (c := r.context) b)
    rwa [List.append_nil] at htakes
  · rw [hthrow] at hka
    cases hka

/-! ### Headers -/

theorem arrayHeader : Answers Reader.arrayHeader := by
  refine of_wants Wants.arrayHeader fun c atom family hp hopens => ?_
  subst hp
  cases atom with
  | array n =>
      refine ⟨n, fun f hf => ?_⟩
      cases hf with
      | array hf => exact .arrayHeader_of_spells hf
  | _ => cases hopens

theorem mapHeader : Answers Reader.mapHeader := by
  refine of_wants Wants.mapHeader fun c atom family hp hopens => ?_
  subst hp
  cases atom with
  | map n =>
      refine ⟨n, fun f hf => ?_⟩
      cases hf with
      | map hf => exact .mapHeader_of_spells hf
  | _ => cases hopens

theorem rawBytes (bytes : ByteArray) :
    Takes c (Reader.raw bytes.size) (unpacked bytes) bytes := by
  have hraw := Takes.raw (c := c) (unpacked bytes)
  rwa [length_unpacked, packed_unpacked] at hraw

/-- The bytes of a text, whether they spell one or not. -/
theorem strBytes : Answers (Reader.strHeader >>= Reader.raw) := by
  refine of_wants (Wants.strHeader.bind _) fun c atom family hp hopens => ?_
  subst hp
  cases atom with
  | str bytes =>
      refine ⟨bytes, fun f hf => ?_⟩
      cases hf with
      | str hf => exact (Takes.strHeader_of_spells hf).bind (rawBytes bytes)
  | _ => cases hopens

theorem str : Answers Reader.str := by
  have heq : Reader.str = Reader.orRestore ((Reader.strHeader >>= Reader.raw) >>= textOf) := by
    rw [Reader.str]
    simp only [bind_assoc]
  rw [heq]
  refine orRestore (strBytes.judge fun bytes => ?_)
  unfold textOf
  split
  · exact .inl ⟨_, rfl⟩
  · exact .inr ⟨_, rfl⟩

theorem blob : Answers Reader.blob := by
  refine orRestore (of_wants (Wants.blobHeader.bind _) fun c atom family hp hopens => ?_)
  subst hp
  cases atom with
  | blob bytes =>
      refine ⟨bytes, fun f hf => ?_⟩
      cases hf with
      | blob hf => exact (Takes.blobHeader_of_spells hf).bind (rawBytes bytes)
  | _ => cases hopens

/-- The subtype of an extension and its payload. -/
theorem extBytes {subtype : Int} {payload : ByteArray} {f : Form}
    (hf : Heading.ext.Spells payload.size f) (hholds : NumberKind.i8.Holds subtype) :
    Takes c (Reader.extHeader >>= fun (subtype, n) => do Pure.pure (subtype, ← Reader.raw n))
      ((f ++ .number .i8 subtype ++ .plain (unpacked payload)) c.byteOrder) (subtype, payload) := by
  have hsubtype := (Takes.number (c := c) hholds).bind
    (f := fun subtype => Pure.pure (subtype, payload.size)) (.pure _)
  rw [List.append_nil] at hsubtype
  have hlength := (Takes.extLength_of_spells (c := c) hf).bind
    (f := fun n => Reader.number .i8 >>= fun subtype => Pure.pure (subtype, n)) hsubtype
  rw [bind_assoc] at hlength
  have hpayload := (rawBytes (c := c) payload).bind
    (f := fun bytes => Pure.pure (subtype, bytes)) (.pure _)
  rw [List.append_nil] at hpayload
  exact hlength.orRestore.bind hpayload

theorem ext : Answers Reader.ext := by
  refine orRestore (of_wants (Wants.extHeader.bind _) fun c atom family hp hopens => ?_)
  subst hp
  cases atom with
  | ext subtype payload =>
      refine ⟨(subtype, payload), fun f hf => ?_⟩
      cases hf with
      | ext hf hholds => exact extBytes hf hholds
  | _ => cases hopens

/-! ### Scalars -/

theorem nil : Answers Reader.nil := by
  refine of_wants Wants.nil fun c atom family hp hopens => ?_
  subst hp
  cases atom with
  | nil =>
      refine ⟨(), fun f hf => ?_⟩
      cases hf
      exact .nil
  | _ => cases hopens

theorem bool : Answers Reader.bool := by
  refine of_wants Wants.bool fun c atom family hp hopens => ?_
  subst hp
  cases atom with
  | bool b =>
      refine ⟨b, fun f hf => ?_⟩
      cases hf
      exact .bool b
  | _ => cases hopens

theorem f32 : Answers Reader.f32 := by
  refine of_wants Wants.f32 fun c atom family hp hopens => ?_
  subst hp
  cases atom with
  | single bits =>
      refine ⟨bits, fun f hf => ?_⟩
      cases hf
      exact .f32 bits
  | _ => cases hopens

/-- A float of four bytes is widened. -/
theorem widened (bits : UInt32) :
    Takes c Reader.f64 (Form.f32 bits c.byteOrder) (widenFloat bits) := by
  have hbits : NumberKind.f32.Holds bits.toNat := NumberKind.holds_natural rfl bits.toNat_lt
  have hread := (Takes.length (c := c) hbits).map fun n => widenFloat (UInt32.ofNat n)
  rw [UInt32.ofNat_toNat] at hread
  exact .orRestore (.coded hread)

theorem f64 : Answers Reader.f64 := by
  refine of_wants Wants.f64 fun c atom family hp hopens => ?_
  rcases hp with rfl | rfl
  · cases atom with
    | double bits =>
        refine ⟨bits, fun f hf => ?_⟩
        cases hf
        exact .f64 bits
    | _ => cases hopens
  · cases atom with
    | single bits =>
        refine ⟨widenFloat bits, fun f hf => ?_⟩
        cases hf
        exact widened bits
    | _ => cases hopens

theorem int_of_opens {atom : Atom} {family : Format.Family} (h : atom.Opens family)
    (hfamily : family.isInteger = true) : ∃ z, atom = .int z := by
  cases atom with
  | int z => exact ⟨z, rfl⟩
  | _ =>
      cases h
      cases hfamily

/-- A negative number is refused. -/
theorem nonneg_of_uint {z : Int} {f : Form} {tail : List UInt8} {r r' : InStream} {n : Nat}
    (hf : (Atom.int z).Spelled f) (hrest : r.rest = f r.context.byteOrder ++ tail)
    (h : Reader.uint r = .ok n r') : 0 ≤ z := by
  obtain ⟨code, bytes, hcode, hbody⟩ := headed_ok h
  cases hf with
  | fixint => omega
  | negativeFixint hlow hneg =>
      rw [hrest, Form.number_fixint hlow hneg, List.cons_append, List.cons.injEq] at hcode
      obtain ⟨rfl, -⟩ := hcode
      rw [Format.family_negativeFixint hlow hneg] at hbody
      cases hbody
  | @int _ kind _ hfield hholds =>
      have hbehind : (r.skip 1).rest = Form.number kind z r.context.byteOrder ++ tail := by
        rw [InStream.rest_skip, hrest]
        rfl
      rw [hrest] at hcode
      obtain ⟨rfl, -⟩ := List.cons.inj hcode
      rcases Takes.intField_cases hfield with ⟨-, -, hkind⟩ | ⟨hfamily, hnumber, -⟩
      · exact Takes.holds_nonneg hkind hholds
      · rw [hfamily] at hbody
        dsimp only at hbody
        rw [hnumber] at hbody
        have hcheck := (Takes.number (c := (r.skip 1).context) hholds).bind_ok hbehind hbody
        rcases ite_ok hcheck with ⟨hz, -⟩ | hthrow
        · exact hz
        · cases hthrow

/-- A number from `2 ^ 63` up is refused. -/
theorem lt_of_int {z a : Int} {f : Form} {tail : List UInt8} {r r' : InStream}
    (hf : (Atom.int z).Spelled f) (hrest : r.rest = f r.context.byteOrder ++ tail)
    (h : Reader.int r = .ok a r') : z < 2 ^ 63 := by
  obtain ⟨code, bytes, hcode, hbody⟩ := headed_ok h
  cases hf with
  | fixint | negativeFixint => omega
  | @int _ kind _ hfield hholds =>
      have hbehind : (r.skip 1).rest = Form.number kind z r.context.byteOrder ++ tail := by
        rw [InStream.rest_skip, hrest]
        rfl
      rw [hrest] at hcode
      obtain ⟨rfl, -⟩ := List.cons.inj hcode
      rcases Takes.intField_cases hfield with ⟨hfamily, hnumber, hkind⟩ | ⟨-, -, hkind⟩
      · obtain ⟨n, rfl⟩ := Int.eq_ofNat_of_zero_le (Takes.holds_nonneg hkind hholds)
        rw [hfamily] at hbody
        dsimp only at hbody
        rw [hnumber] at hbody
        have hcheck := (Takes.length (c := (r.skip 1).context) hholds).bind_ok hbehind hbody
        rcases ite_ok hcheck with ⟨hn, -⟩ | hthrow
        · omega
        · cases hthrow
      · exact Takes.holds_lt hkind hholds

theorem uint : Answers Reader.uint := by
  intro r n r' atom f tail hf hrest hr g hg
  obtain ⟨family, hfamily, hopens⟩ := Wants.uint.opens hf hrest hr
  obtain ⟨z, rfl⟩ := int_of_opens hopens hfamily
  have hz := nonneg_of_uint hf hrest hr
  have hsame := Takes.uint_of_spelled (c := r.context) hf hz r tail rfl hrest
  rw [hr] at hsame
  cases hsame
  exact .uint_of_spelled hg hz

theorem int : Answers Reader.int := by
  intro r a r' atom f tail hf hrest hr g hg
  obtain ⟨family, hfamily, hopens⟩ := Wants.int.opens hf hrest hr
  obtain ⟨z, rfl⟩ := int_of_opens hopens hfamily
  have hz := lt_of_int hf hrest hr
  have hsame := Takes.int_of_spelled (c := r.context) hf hz r tail rfl hrest
  rw [hr] at hsame
  cases hsame
  exact .int_of_spelled hg hz

end Answers

/-- Every header and every scalar goes by what is spelled. -/
theorem Head.answers {x : Reader α} (hx : Head x) : Answers x := by
  induction hx with
  | arrayHeader => exact .arrayHeader
  | mapHeader => exact .mapHeader
  | nil => exact .nil
  | bool => exact .bool
  | uint => exact .uint
  | int => exact .int
  | f32 => exact .f32
  | f64 => exact .f64
  | str => exact .str
  | blob => exact .blob
  | ext => exact .ext
  | check _ ih =>
      refine ih.judge fun a => ?_
      split
      · exact .inl ⟨_, rfl⟩
      · exact .inr ⟨_, rfl⟩
  | orRestore _ ih => exact ih.orRestore

end Reader

end ObjectStream
