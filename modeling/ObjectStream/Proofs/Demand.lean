import ObjectStream.Proofs.Answers
import ObjectStream.Proofs.Atoms
import ObjectStream.Proofs.Failing

/-!
# What a step over a header asks for

Behind a code that starts a value, a step over a header can only fail for want of
bytes, and with enough of them it succeeds. How many are enough is bounded, since
a field announces fewer than `2 ^ 32` bytes. So a step that fails stands on the
start of an atom that the end of the stream has cut.
-/

namespace ObjectStream

/-- The number of values that belong to an atom: the elements of an array, and the keys and the
values of a map. -/
def Atom.nested : Atom → Nat
  | .array n => n
  | .map n => 2 * n
  | _ => 0

namespace Reader

variable {α β : Type} {c : Context} {r t : InStream} {code : UInt8} {k l : Nat}

/-- On streams in `S` the reader succeeds if `k` bytes are left, returns what is in `p`, and can
only fail for want of bytes. -/
structure Demands (S : InStream → Prop) (x : Reader α) (k : Nat) (p : α → Prop) : Prop where
  enough : ∀ r, S r → k ≤ r.rest.length → ∃ a m, m ≤ k ∧ x r = .ok a (r.skip m)
  returns : ∀ r a t, S r → x r = .ok a t → p a
  short : ∀ r e t, S r → x r = .error e t → ∃ needed left, e = .outOfRange needed left

def Starts (code : UInt8) (r : InStream) : Prop := ∃ tail, r.rest = code :: tail

namespace Demands

variable {S : InStream → Prop} {x y : Reader α} {p q : α → Prop}

theorem mono (h : Demands S x k p) (hk : k ≤ l) (hp : ∀ a, p a → q a) : Demands S x l q where
  enough r hr hl := by
    obtain ⟨a, m, hm, hx⟩ := h.enough r hr (Nat.le_trans hk hl)
    exact ⟨a, m, Nat.le_trans hm hk, hx⟩
  returns r a t hr hx := hp a (h.returns r a t hr hx)
  short := h.short

theorem pure {a : α} (h : p a) : Demands S (Pure.pure a) 0 p where
  enough r _ _ := ⟨a, 0, Nat.le_refl 0, rfl⟩
  returns r b t _ hx := by
    cases hx
    exact h
  short r e t _ hx := by cases hx

theorem bind {f : α → Reader β} {q : β → Prop} (hx : Demands S x k p)
    (hf : ∀ a, p a → Demands (fun _ => True) (f a) l q) : Demands S (x >>= f) (k + l) q where
  enough r hr hlen := by
    obtain ⟨a, m, hm, hxr⟩ := hx.enough r hr (by omega)
    obtain ⟨b, n, hn, hfr⟩ := (hf a (hx.returns r a _ hr hxr)).enough (r.skip m) trivial (by
      rw [InStream.rest_skip, List.length_drop]
      omega)
    exact ⟨b, m + n, by omega, by rw [bind_of_ok hxr, hfr, InStream.skip_skip]⟩
  returns r b t hr hxf := by
    obtain ⟨a, s, hxr, hfs⟩ := bind_ok hxf
    exact (hf a (hx.returns r a s hr hxr)).returns s b t trivial hfs
  short r e t hr hxf := by
    cases hxr : x r with
    | error e' s =>
        rw [bind_failed hxr] at hxf
        cases hxf
        exact hx.short r e t hr hxr
    | ok a s =>
        rw [bind_of_ok hxr] at hxf
        exact (hf a (hx.returns r a s hr hxr)).short s e t trivial hxf

theorem ite {P : Prop} [Decidable P] (hx : P → Demands S x k p) (hy : ¬ P → Demands S y k p) :
    Demands S (if P then x else y) k p := by
  split
  · next h => exact hx h
  · next h => exact hy h

theorem advance (n : Nat) : Demands S (Reader.advance n) n fun _ => True where
  enough r _ hlen := by
    have hadvance := advance_of_rest (List.take_append_drop n r.rest).symm
    rw [List.length_take_of_le hlen] at hadvance
    exact ⟨(), n, Nat.le_refl n, hadvance⟩
  returns _ _ _ _ _ := trivial
  short r e t _ hx := by
    by_cases hlen : n ≤ r.rest.length
    · have hadvance := advance_of_rest (List.take_append_drop n r.rest).symm
      rw [List.length_take_of_le hlen, hx] at hadvance
      cases hadvance
    · rw [advance_failed (Nat.not_le.1 hlen)] at hx
      cases hx
      exact ⟨_, _, rfl⟩

theorem number (kind : NumberKind) : Demands S (Reader.number kind) kind.width kind.Holds where
  enough r _ hlen := by
    have hnumber := number_of_rest (List.take_append_drop kind.width r.rest).symm
      (List.length_take_of_le hlen)
    exact ⟨_, kind.width, Nat.le_refl _, hnumber⟩
  returns r z t _ hx := by
    obtain ⟨-, bytes, tail, -, hlen, rfl⟩ := number_ok hx
    exact kind.holds_ofBytes _ hlen
  short r e t _ hx := by
    by_cases hlen : kind.width ≤ r.rest.length
    · rw [number_of_rest (List.take_append_drop kind.width r.rest).symm
        (List.length_take_of_le hlen)] at hx
      cases hx
    · rw [number_failed (Nat.not_le.1 hlen)] at hx
      cases hx
      exact ⟨_, _, rfl⟩

/-- A length in a field of up to four bytes. -/
theorem length {kind : NumberKind} (hkind : kind.isSigned = false) (hwidth : kind.width ≤ 4) :
    Demands S (Reader.length kind) 4 (· < 2 ^ 32) := by
  have hlength : Demands S (Reader.length kind) (kind.width + 0) (· < 2 ^ 32) := by
    refine (number kind).bind fun z hz => pure ?_
    simp only [NumberKind.Holds, hkind, Bool.false_eq_true, if_false] at hz
    cases kind <;> simp only [NumberKind.width, NumberKind.modulus] at hwidth hz <;> omega
  exact hlength.mono hwidth fun _ h => h

/-- What follows a code, on streams that go on with it. -/
theorem headed {g : UInt8 → Reader α} (h : Demands (fun _ => True) (g code) k p) :
    Demands (Starts code) (Reader.orRestore (byte >>= g)) (1 + k) p where
  enough r hr hlen := by
    obtain ⟨tail, hrest⟩ := hr
    obtain ⟨a, m, hm, hg⟩ := h.enough (r.skip 1) trivial (by
      rw [rest_behind hrest]
      rw [hrest, List.length_cons] at hlen
      omega)
    have hbyte : byte r = .ok code (r.skip 1) := Takes.byte code r tail rfl hrest
    rw [InStream.skip_skip] at hg
    exact ⟨a, 1 + m, by omega, orRestore_ok.2 ((bind_of_ok hbyte).trans hg)⟩
  returns r a t hr hx := by
    obtain ⟨tail, hrest⟩ := hr
    obtain ⟨code', tail', hrest', hg⟩ := headed_ok hx
    obtain ⟨rfl, -⟩ := List.cons.inj (hrest.symm.trans hrest')
    exact h.returns _ a t trivial hg
  short r e t hr hx := by
    obtain ⟨tail, hrest⟩ := hr
    have hbyte : byte r = .ok code (r.skip 1) := Takes.byte code r tail rfl hrest
    simp only [Reader.orRestore, bind_of_ok hbyte] at hx
    cases hg : g code (r.skip 1) with
    | ok a s =>
        rw [hg] at hx
        cases hx
    | error e' s =>
        rw [hg] at hx
        cases hx
        exact h.short _ e s trivial hg

/-! ## Headers -/

/-- The number that a code says by itself. -/
theorem inline (first : UInt8) :
    Demands S (Pure.pure (code - first).toNat : Reader Nat) 4 (· < 2 ^ 32) := by
  have hlt : (code - first).toNat < 2 ^ 32 := Nat.lt_trans (code - first).toNat_lt (by decide)
  exact (pure (p := (· < 2 ^ 32)) hlt).mono (Nat.zero_le 4) fun _ h => h

/-- The last field of a heading. -/
theorem last {kind : NumberKind} {known : UInt8} {others : Reader Nat}
    (hkind : kind.isSigned = false) (hwidth : kind.width ≤ 4) (hcode : code = known) :
    Demands S (if code = known then Reader.length kind else others) 4 (· < 2 ^ 32) := by
  rw [if_pos hcode]
  exact length hkind hwidth

theorem strHeader (h : Format.family code = .str) :
    Demands (Starts code) Reader.strHeader 5 (· < 2 ^ 32) := by
  have hcode := code_eq_of_lt (P := fun code => Format.family code = .str →
    (0xa0 ≤ code ∧ code ≤ 0xbf) ∨ code = Format.str8 ∨ code = Format.str16 ∨
    code = Format.str32) (by decide +kernel) code h
  refine headed (k := 4) (ite (fun _ => inline _) fun h0 => ?_)
  refine ite (fun _ => length rfl (by decide)) fun h1 => ?_
  refine ite (fun _ => length rfl (by decide)) fun h2 => ?_
  exact last rfl (by decide) (by simpa only [h0, h1, h2, false_or] using hcode)

theorem blobHeader (h : Format.family code = .bin) :
    Demands (Starts code) Reader.blobHeader 5 (· < 2 ^ 32) := by
  have hcode := code_eq_of_lt (P := fun code => Format.family code = .bin →
    code = Format.bin8 ∨ code = Format.bin16 ∨ code = Format.bin32) (by decide +kernel) code h
  refine headed (k := 4) (ite (fun _ => length rfl (by decide)) fun h1 => ?_)
  refine ite (fun _ => length rfl (by decide)) fun h2 => ?_
  exact last rfl (by decide) (by simpa only [h1, h2, false_or] using hcode)

theorem arrayHeader (h : Format.family code = .array) :
    Demands (Starts code) Reader.arrayHeader 5 (· < 2 ^ 32) := by
  have hcode := code_eq_of_lt (P := fun code => Format.family code = .array →
    (0x90 ≤ code ∧ code ≤ 0x9f) ∨ code = Format.array16 ∨ code = Format.array32)
    (by decide +kernel) code h
  refine headed (k := 4) (ite (fun _ => inline _) fun h0 => ?_)
  refine ite (fun _ => length rfl (by decide)) fun h1 => ?_
  exact last rfl (by decide) (by simpa only [h0, h1, false_or] using hcode)

theorem mapHeader (h : Format.family code = .map) :
    Demands (Starts code) Reader.mapHeader 5 (· < 2 ^ 32) := by
  have hcode := code_eq_of_lt (P := fun code => Format.family code = .map →
    (0x80 ≤ code ∧ code ≤ 0x8f) ∨ code = Format.map16 ∨ code = Format.map32)
    (by decide +kernel) code h
  refine headed (k := 4) (ite (fun _ => inline _) fun h0 => ?_)
  refine ite (fun _ => length rfl (by decide)) fun h1 => ?_
  exact last rfl (by decide) (by simpa only [h0, h1, false_or] using hcode)

theorem extLength (h : Format.family code = .ext) :
    Demands S (Reader.extLength code) 4 (· < 2 ^ 32) := by
  have hcode := code_eq_of_lt (P := fun code => Format.family code = .ext →
    Format.fixextLength? code = none →
    code = Format.ext8 ∨ code = Format.ext16 ∨ code = Format.ext32) (by decide +kernel) code h
  rw [Reader.extLength]
  cases hfix : Format.fixextLength? code with
  | some n =>
      have hn : n < 2 ^ 32 := by
        unfold Format.fixextLength? at hfix
        repeat' split at hfix
        all_goals cases hfix
        all_goals decide
      exact (pure (p := (· < 2 ^ 32)) hn).mono (Nat.zero_le 4) fun _ h => h
  | none =>
      refine ite (fun _ => length rfl (by decide)) fun h1 => ?_
      refine ite (fun _ => length rfl (by decide)) fun h2 => ?_
      exact last rfl (by decide) (by simpa only [h1, h2, false_or] using hcode hfix)

theorem extHeader (h : Format.family code = .ext) :
    Demands (Starts code) Reader.extHeader 6 (·.2 < 2 ^ 32) := by
  refine headed (k := 5) ?_
  refine (extLength h).bind (l := 1) fun n hn => ?_
  exact (number .i8).bind (l := 0) fun subtype _ => pure hn

/-! ## The step -/

/-- A step that moves a number of bytes. -/
theorem across {n : Nat} (hn : n ≤ l) :
    Demands S (do Reader.advance n; Pure.pure 0 : Reader Nat) l fun _ => True :=
  ((advance n).bind (l := 0) fun _ _ => pure trivial).mono hn fun _ h => h

theorem peek {f : UInt8 → Reader α} (h : Demands (Starts code) (f code) k p) :
    Demands (Starts code) (Reader.peek >>= f) k p where
  enough r hr hlen := by
    obtain ⟨tail, hrest⟩ := hr
    rw [bind_of_ok (peek_of_rest hrest)]
    exact h.enough r ⟨tail, hrest⟩ hlen
  returns r a t hr hx := by
    obtain ⟨tail, hrest⟩ := hr
    rw [bind_of_ok (peek_of_rest hrest)] at hx
    exact h.returns r a t ⟨tail, hrest⟩ hx
  short r e t hr hx := by
    obtain ⟨tail, hrest⟩ := hr
    rw [bind_of_ok (peek_of_rest hrest)] at hx
    exact h.short r e t ⟨tail, hrest⟩ hx

/-- Behind a code that starts a value only bytes can be missing. -/
theorem stepOver (h : Format.family code ≠ .unused) :
    Demands (Starts code) Reader.stepOver (2 ^ 33) fun _ => True := by
  refine peek ?_
  have hbody {n : Nat} (hn : n < 2 ^ 32) : Demands (fun _ => True)
      (do Reader.advance n; Pure.pure 0 : Reader Nat) (2 ^ 32) fun _ => True :=
    across (Nat.le_of_lt hn)
  have hfield : 1 + 2 ^ (code.toNat % 4) ≤ 2 ^ 33 := by
    have hpow : 2 ^ (code.toNat % 4) ≤ 2 ^ 4 := Nat.pow_le_pow_right (by decide) (by omega)
    omega
  cases hfamily : Format.family code
  all_goals simp only
  case unused => exact (h hfamily).elim
  case positiveFixint | negativeFixint | nil | bool | float32 | float64 => exact across (by decide)
  case uint | int => exact across hfield
  case str =>
    exact ((strHeader hfamily).bind fun n hn => hbody hn).mono (by decide) fun _ h => h
  case bin =>
    exact ((blobHeader hfamily).bind fun n hn => hbody hn).mono (by decide) fun _ h => h
  case ext =>
    exact ((extHeader hfamily).bind fun header hheader => hbody hheader).mono (by decide)
      fun _ h => h
  case array => exact (arrayHeader hfamily).mono (by decide) fun _ _ => trivial
  case map =>
    exact ((mapHeader hfamily).bind (l := 0) fun n _ => pure trivial).mono (by decide)
      fun _ h => h

end Demands

/-! ## The outcomes of a step -/

theorem Agrees.takes {y : Reader α} {nested : α → Nat} {a : α} {n : Nat} {bytes : List UInt8}
    (hy : Agrees y nested) (h : Takes c y bytes a) (hn : nested a = n) :
    Takes c Reader.stepOver bytes n :=
  fun r tail hc hrest => hn ▸ hy r a _ (h r tail hc hrest)

/-- Every form of an atom is stepped over, and the values inside of it are counted. -/
theorem Takes.stepOver_of_spelled {atom : Atom} {f : Form} (hf : atom.Spelled f) :
    Takes c Reader.stepOver (f c.byteOrder) atom.nested := by
  cases atom with
  | nil =>
      cases hf
      exact Agrees.nil.takes .nil rfl
  | bool b =>
      cases hf
      exact Agrees.bool.takes (.bool b) rfl
  | int z =>
      by_cases hz : z < 2 ^ 63
      · exact Agrees.int.takes (.int_of_spelled hf hz) rfl
      · exact Agrees.uint.takes (.uint_of_spelled hf (by omega)) rfl
  | single bits =>
      cases hf
      exact Agrees.f32.takes (.f32 bits) rfl
  | double bits =>
      cases hf
      exact Agrees.f64.takes (.f64 bits) rfl
  | array n =>
      cases hf with
      | array hf => exact Agrees.arrayHeader.takes (.arrayHeader_of_spells hf) rfl
  | map n =>
      cases hf with
      | map hf => exact Agrees.mapHeader.takes (.mapHeader_of_spells hf) rfl
  | str bytes =>
      cases hf with
      | str hf =>
          exact Agrees.strBytes.takes
            ((Takes.strHeader_of_spells hf).bind (Answers.rawBytes bytes)) rfl
  | blob bytes =>
      cases hf with
      | blob hf =>
          exact Agrees.blob.takes
            ((Takes.blobHeader_of_spells hf).bind (Answers.rawBytes bytes)).orRestore rfl
  | ext subtype payload =>
      cases hf with
      | ext hf hholds => exact Agrees.ext.takes (Answers.extBytes hf hholds).orRestore rfl

/-- With any bytes behind it, what the stream goes on with comes to a whole atom at some point, if
it does not start with the code that starts no value. -/
theorem exists_atom (tail : List UInt8) (hfamily : Format.family code ≠ .unused) :
    ∃ (atom : Atom) (f : Form) (more tail' : List UInt8), atom.Spelled f ∧
      code :: tail ++ more = f c.byteOrder ++ tail' := by
  let r : InStream := .ofBytes c (packed (code :: tail ++ List.replicate (2 ^ 33) 0)) 0 none
  have hrest : r.rest = code :: tail ++ List.replicate (2 ^ 33) 0 := rfl
  obtain ⟨n, m, -, hstep⟩ := (Demands.stepOver hfamily).enough r ⟨_, hrest⟩ (by
    rw [hrest, List.length_append, List.length_replicate]
    omega)
  obtain ⟨atom, f, tail', hf, hform, -⟩ := GoesOver.of_stepOver hstep
  exact ⟨atom, f, _, tail', hf, hrest.symm.trans hform⟩

/-- What a step can find: an atom, the code that starts no value, or the start of an atom at which
the stream ends. -/
theorem stepOver_cases (r : InStream) :
    (∃ (atom : Atom) (f : Form) (tail : List UInt8), atom.Spelled f ∧
      r.rest = f r.context.byteOrder ++ tail ∧
      stepOver r = .ok atom.nested (r.skip (f r.context.byteOrder).length)) ∨
    (∃ tail, r.rest = Format.unused :: tail ∧
      stepOver r = .error (.type (.unexpected .value Format.unused)) r) ∨
    (∃ (atom : Atom) (f : Form) (more : List UInt8), atom.Spelled f ∧ more ≠ [] ∧
      r.rest ++ more = f r.context.byteOrder ∧
      ∃ needed left t, stepOver r = .error (.outOfRange needed left) t) := by
  cases hrest : r.rest with
  | nil =>
      refine .inr (.inr ⟨.nil, _, [Format.nil], .nil, List.cons_ne_nil _ _, rfl, ?_⟩)
      exact ⟨1, 0, r, bind_failed (peek_failed hrest)⟩
  | cons code tail =>
      by_cases hfamily : Format.family code = .unused
      · have hcode := code_eq_of_lt (P := fun code => Format.family code = .unused →
          code = Format.unused) (by decide +kernel) code hfamily
        subst hcode
        refine .inr (.inl ⟨tail, rfl, ?_⟩)
        rw [stepOver, bind_of_ok (peek_of_rest hrest), hfamily]
        rfl
      cases hstep : stepOver r with
      | ok n r' =>
          obtain ⟨atom, f, tail', hf, hform, rfl⟩ := GoesOver.of_stepOver hstep
          have hsame := Takes.stepOver_of_spelled (c := r.context) hf r tail' rfl hform
          exact .inl ⟨atom, f, tail', hf, hrest.symm.trans hform, hstep.symm.trans hsame⟩
      | error e t =>
          obtain ⟨needed, left, rfl⟩ :=
            (Demands.stepOver hfamily).short r e t ⟨tail, hrest⟩ hstep
          obtain ⟨atom, f, more, tail', hf, hform⟩ :=
            exists_atom (c := r.context) tail hfamily
          -- An atom that is there as a whole would have been stepped over.
          have hpart {rest : List UInt8} (hwhole : code :: tail = f r.context.byteOrder ++ rest) :
              False := by
            have htakes := Takes.stepOver_of_spelled (c := r.context) hf r rest rfl
              (hrest.trans hwhole)
            rw [hstep] at htakes
            cases htakes
          rcases List.append_eq_append_iff.1 hform with ⟨cut, hcut, -⟩ | ⟨rest, hwhole, -⟩
          · refine .inr (.inr ⟨atom, f, cut, hf, fun hnil => ?_, hcut.symm, needed, left, t, rfl⟩)
            rw [hnil, List.append_nil] at hcut
            exact hpart (hcut.symm.trans (List.append_nil _).symm)
          · exact (hpart hwhole).elim

end Reader

end ObjectStream
