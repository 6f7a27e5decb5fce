import ObjectStream.Proofs.Derived
import ObjectStream.Proofs.Inside
import ObjectStream.Proofs.Unmoved

/-!
# Read whole or not at all

The forms of what can stand at a cursor are given without any reader: for each
operation on headers and scalars, the bytes that say what it answers. In every state
of a stream such an operation does one of two things. It takes one of its forms as a
whole and leaves the cursor right behind it, or it fails and leaves the stream as it
was; and it fails only where none of its forms stands. A failure in a second stage, a
wrong count or sign, a body that is cut short, or bytes that spell no text, is no
exception.
-/

namespace ObjectStream

namespace ReadOp

def isElementary : ReadOp → Bool
  | .value _ | .fields _ | .skip | .seek _ | .rewind | .handOver => false
  | _ => true

/-- The bytes that say what an operation on headers and scalars answers. -/
inductive Accepts : ReadOp → ReadAnswer → Form → Prop
  | peek (code : UInt8) : Accepts .peek (.count code.toNat) (.plain [code])
  | byte (code : UInt8) : Accepts .byte (.count code.toNat) (.plain [code])
  | number {kind : NumberKind} {z : Int} : kind.Holds z →
      Accepts (.number kind) (.integer z) (.number kind z)
  | raw (bytes : ByteArray) : Accepts (.raw bytes.size) (.bytes bytes) (.plain (unpacked bytes))
  | mapHeader {n : Nat} {f : Form} : Heading.map.Spells n f → Accepts .mapHeader (.count n) f
  | arrayHeader {n : Nat} {f : Form} : Heading.array.Spells n f → Accepts .arrayHeader (.count n) f
  | arrayHeaderOf {n : Nat} {f : Form} : Heading.array.Spells n f →
      Accepts (.arrayHeaderOf n) .done f
  | mapHeaderOf {n : Nat} {f : Form} : Heading.map.Spells n f → Accepts (.mapHeaderOf n) .done f
  | blobHeader {n : Nat} {f : Form} : Heading.blob.Spells n f → Accepts .blobHeader (.count n) f
  | blob {bytes : ByteArray} {f : Form} : (Atom.blob bytes).Spelled f →
      Accepts .blob (.bytes bytes) f
  | strHeader {n : Nat} {f : Form} : Heading.str.Spells n f → Accepts .strHeader (.count n) f
  | str {text : String} {f : Form} : (Atom.str text.toUTF8).Spelled f → Accepts .str (.text text) f
  | extHeader {subtype : Int} {n : Nat} {f : Form} : Heading.ext.Spells n f →
      NumberKind.i8.Holds subtype →
      Accepts .extHeader (.extHeader subtype n) (f ++ .number .i8 subtype)
  | ext {subtype : Int} {payload : ByteArray} {f : Form} : (Atom.ext subtype payload).Spelled f →
      Accepts .ext (.ext subtype payload) f
  | nil {f : Form} : Atom.nil.Spelled f → Accepts .nil .done f
  | bool {b : Bool} {f : Form} : (Atom.bool b).Spelled f → Accepts .bool (.flag b) f
  | uint {n : Nat} {f : Form} : (Atom.int n).Spelled f → Accepts .uint (.integer n) f
  | int {z : Int} {f : Form} : (Atom.int z).Spelled f → z < 2 ^ 63 → Accepts .int (.integer z) f
  | f32 {bits : UInt32} {f : Form} : (Atom.single bits).Spelled f → Accepts .f32 (.single bits) f
  | f64 {bits : UInt64} {f : Form} : (Atom.double bits).Spelled f → Accepts .f64 (.double bits) f
  /-- A float of four bytes is widened. -/
  | widened {bits : UInt32} {f : Form} : (Atom.single bits).Spelled f →
      Accepts .f64 (.double (widenFloat bits)) f

/-- How many bytes of its form an operation moves over: all of them, but none for a mere look. -/
def taken : ReadOp → List UInt8 → Nat
  | .peek, _ => 0
  | _, bytes => bytes.length

/-- The operation takes a form of its answer, or fails and leaves the stream as it was. -/
structure Atomic (Γ : Schema) (op : ReadOp) (r : InStream) : Prop where
  ok_iff : ∀ answer r', op.run Γ r = .ok answer r' ↔ ∃ f tail, op.Accepts answer f ∧
    r.rest = f r.context.byteOrder ++ tail ∧ r' = r.skip (op.taken (f r.context.byteOrder))
  unmoved : ∀ e r', op.run Γ r = .error e r' → r' = r

end ReadOp

namespace Reader

variable {α β : Type} {x : Reader α} {p : α → Form → Prop} {r r' : InStream}

/-- The reader succeeds where a form of what it returns stands at the cursor, and only there, and
leaves the cursor right behind it. -/
def Reads (x : Reader α) (p : α → Form → Prop) : Prop :=
  ∀ r a r', x r = .ok a r' ↔ ∃ f tail, p a f ∧ r.rest = f r.context.byteOrder ++ tail ∧
    r' = r.skip (f r.context.byteOrder).length

namespace Reads

theorem congr {q : α → Form → Prop} (h : Reads x p) (hpq : ∀ a f, p a f ↔ q a f) : Reads x q := by
  intro r a r'
  rw [h r a r']
  simp only [hpq]

theorem orRestore (h : Reads x p) : Reads (Reader.orRestore x) p :=
  fun r a r' => orRestore_ok.trans (h r a r')

/-- One form stands behind the other. -/
theorem bind {g : α → Reader β} {q : α → β → Form → Prop} (hx : Reads x p)
    (hg : ∀ a, Reads (g a) (q a)) :
    Reads (x >>= g) fun b h => ∃ a f f', p a f ∧ q a b f' ∧ h = f ++ f' := by
  intro r b r'
  constructor
  · intro h
    obtain ⟨a, t, hxr, hgt⟩ := bind_ok h
    obtain ⟨f, tail, hf, hrest, rfl⟩ := (hx r a t).1 hxr
    obtain ⟨f', tail', hf', hrest', rfl⟩ := (hg a _ b r').1 hgt
    rw [InStream.rest_skip_append hrest, InStream.context_skip] at hrest'
    refine ⟨f ++ f', tail', ⟨a, f, f', hf, hf', rfl⟩, ?_, ?_⟩
    · rw [hrest, hrest', Form.append_apply, List.append_assoc]
    · rw [InStream.skip_skip, Form.length_append, InStream.context_skip]
  · rintro ⟨_, tail, ⟨a, f, f', hf, hf', rfl⟩, hrest, rfl⟩
    rw [Form.append_apply, List.append_assoc] at hrest
    have hfirst := (hx r a _).2 ⟨f, _, hf, hrest, rfl⟩
    rw [bind_of_ok hfirst]
    refine (hg a _ b _).2 ⟨f', tail, hf', InStream.rest_skip_append hrest, ?_⟩
    rw [InStream.skip_skip, Form.length_append, InStream.context_skip]

/-- What is read is checked and turned into something else. -/
theorem check {P : α → Prop} [DecidablePred P] (g : α → β) (e : α → StreamError)
    (hx : Reads x p) :
    Reads (x >>= fun a => if P a then Pure.pure (g a) else MonadExcept.throw (e a))
      fun b f => ∃ a, p a f ∧ P a ∧ b = g a := by
  intro r b r'
  constructor
  · intro h
    obtain ⟨a, t, hxr, hcheck⟩ := bind_ok h
    obtain ⟨f, tail, hf, hrest, rfl⟩ := (hx r a t).1 hxr
    rcases ite_ok hcheck with ⟨ha, hpure⟩ | hthrow
    · cases hpure
      exact ⟨f, tail, ⟨a, hf, ha, rfl⟩, hrest, rfl⟩
    · cases hthrow
  · rintro ⟨f, tail, ⟨a, hf, ha, rfl⟩, hrest, rfl⟩
    rw [bind_of_ok ((hx r a _).2 ⟨f, tail, hf, hrest, rfl⟩), if_pos ha]
    rfl

/-- What is read is turned into something else. -/
theorem turn (g : α → β) (hx : Reads x p) :
    Reads (x >>= fun a => Pure.pure (g a)) fun b f => ∃ a, p a f ∧ b = g a := by
  have hchecked := hx.check (P := fun _ => True) g fun _ => .tooDeep
  simp only [if_true] at hchecked
  exact hchecked.congr fun b f => by simp

/-! ### Bytes and numbers -/

theorem byte : Reads Reader.byte fun code f => f = .plain [code] := by
  intro r code r'
  constructor
  · intro h
    obtain ⟨rfl, tail, hrest⟩ := byte_ok h
    exact ⟨.plain [code], tail, rfl, hrest, rfl⟩
  · rintro ⟨f, tail, rfl, hrest, rfl⟩
    exact Takes.byte code r tail rfl hrest

theorem number (kind : NumberKind) :
    Reads (Reader.number kind) fun z f => kind.Holds z ∧ f = .number kind z := by
  intro r z r'
  constructor
  · intro h
    obtain ⟨rfl, bytes, tail, hrest, hlen, rfl⟩ := number_ok h
    refine ⟨_, tail, ⟨kind.holds_ofBytes _ hlen, rfl⟩, ?_, ?_⟩
    · rw [hrest, Form.number, kind.bytes_ofBytes _ hlen]
    · rw [Form.length_number]
  · rintro ⟨_, tail, ⟨hz, rfl⟩, hrest, rfl⟩
    exact Takes.number hz r tail rfl hrest

theorem raw (n : Nat) :
    Reads (Reader.raw n) fun bytes f => bytes.size = n ∧ f = .plain (unpacked bytes) := by
  intro r bytes r'
  constructor
  · intro h
    by_cases hn : n ≤ r.rest.length
    · have hrest := (List.take_append_drop n r.rest).symm
      have hread := raw_of_rest hrest
      rw [List.length_take_of_le hn, h] at hread
      cases hread
      refine ⟨_, r.rest.drop n, ⟨?_, rfl⟩, ?_, ?_⟩
      · rw [← length_unpacked, unpacked_packed, List.length_take_of_le hn]
      · rw [Form.plain, unpacked_packed, ← hrest]
      · rw [Form.length_plain, unpacked_packed, List.length_take_of_le hn]
    · rw [raw_failed (Nat.not_le.1 hn)] at h
      cases h
  · rintro ⟨_, tail, ⟨rfl, rfl⟩, hrest, rfl⟩
    exact Answers.rawBytes bytes r tail rfl hrest

/-! ### Headers -/

/-- The reader of a heading takes every form of a number, and those alone. -/
theorem heading {h : Heading} {x : Reader Nat}
    (hx : ∀ {r r' : InStream} {n : Nat}, x r = .ok n r' → Announces h r n r')
    (htakes : ∀ {c : Context} {n : Nat} {f : Form}, h.Spells n f → Takes c x (f c.byteOrder) n) :
    Reads x h.Spells := by
  intro r n r'
  constructor
  · exact fun h => hx h
  · rintro ⟨f, tail, hf, hrest, rfl⟩
    exact htakes hf r tail rfl hrest

theorem mapHeader : Reads Reader.mapHeader Heading.map.Spells :=
  heading announces_map .mapHeader_of_spells

theorem arrayHeader : Reads Reader.arrayHeader Heading.array.Spells :=
  heading announces_array .arrayHeader_of_spells

theorem strHeader : Reads Reader.strHeader Heading.str.Spells :=
  heading announces_str .strHeader_of_spells

theorem blobHeader : Reads Reader.blobHeader Heading.blob.Spells :=
  heading announces_blob .blobHeader_of_spells

theorem extLength : Reads (Reader.byte >>= Reader.extLength) Heading.ext.Spells := by
  refine heading (fun h => ?_) .extLength_of_spells
  obtain ⟨code, t, hbyte, hlength⟩ := bind_ok h
  obtain ⟨rfl, tail, hrest⟩ := byte_ok hbyte
  exact announces_ext hrest hlength

theorem extHeader : Reads Reader.extHeader fun header f => ∃ f', Heading.ext.Spells header.2 f' ∧
    NumberKind.i8.Holds header.1 ∧ f = f' ++ .number .i8 header.1 := by
  have hboth : Reader.extHeader = Reader.orRestore ((Reader.byte >>= Reader.extLength) >>=
      fun n => Reader.number .i8 >>= fun subtype => Pure.pure (subtype, n)) := by
    rw [bind_assoc]
    rfl
  rw [hboth]
  refine (extLength.bind fun n => (number .i8).turn fun subtype => (subtype, n)).orRestore.congr ?_
  rintro ⟨subtype, n⟩ f
  constructor
  · rintro ⟨_, f', _, hf', ⟨_, ⟨hsubtype, rfl⟩, heq⟩, rfl⟩
    cases heq
    exact ⟨f', hf', hsubtype, rfl⟩
  · rintro ⟨f', hf', hsubtype, rfl⟩
    exact ⟨n, f', _, hf', ⟨subtype, ⟨hsubtype, rfl⟩, rfl⟩, rfl⟩

/-! ### Atoms -/

/-- What stands at the cursor, as a form. -/
theorem holds_iff (atom : Atom) :
    (∃ bytes, r.Holds atom bytes ∧ r' = r.skip bytes.length) ↔ ∃ f tail, atom.Spelled f ∧
      r.rest = f r.context.byteOrder ++ tail ∧ r' = r.skip (f r.context.byteOrder).length := by
  constructor
  · rintro ⟨_, ⟨f, tail, hf, rfl, hrest⟩, rfl⟩
    exact ⟨f, tail, hf, hrest, rfl⟩
  · rintro ⟨f, tail, hf, hrest, rfl⟩
    exact ⟨_, ⟨f, tail, hf, rfl, hrest⟩, rfl⟩

theorem blob : Reads Reader.blob fun bytes f => (Atom.blob bytes).Spelled f := by
  refine (blobHeader.bind raw).orRestore.congr fun bytes f => ?_
  constructor
  · rintro ⟨_, f', _, hf', ⟨rfl, rfl⟩, rfl⟩
    exact .blob hf'
  · intro h
    cases h with
    | blob hf' => exact ⟨_, _, _, hf', ⟨rfl, rfl⟩, rfl⟩

theorem str : Reads Reader.str fun text f => (Atom.str text.toUTF8).Spelled f :=
  fun _ _ _ => str_ok_iff.trans (holds_iff _)

theorem ext : Reads Reader.ext fun e f => (Atom.ext e.1 e.2).Spelled f :=
  fun _ _ _ => ext_ok_iff.trans (holds_iff _)

theorem uint : Reads Reader.uint fun n f => (Atom.int n).Spelled f :=
  fun _ n _ => uint_ok_iff.trans (holds_iff (.int n))

theorem int : Reads Reader.int fun z f => (Atom.int z).Spelled f ∧ z < 2 ^ 63 := by
  intro r z r'
  constructor
  · intro h
    obtain ⟨atom, f, tail, hf, hrest, rfl⟩ := GoesOver.of_stepOver (Agrees.int r z r' h)
    obtain ⟨family, hfamily, hopens⟩ := Wants.int.opens hf hrest h
    obtain ⟨z', rfl⟩ := Answers.int_of_opens hopens hfamily
    have hz' := Answers.lt_of_int hf hrest h
    rw [Takes.int_of_spelled (c := r.context) hf hz' r tail rfl hrest] at h
    obtain ⟨rfl, -⟩ := EStateM.Result.ok.inj h
    exact ⟨f, tail, ⟨hf, hz'⟩, hrest, rfl⟩
  · rintro ⟨f, tail, ⟨hf, hz⟩, hrest, rfl⟩
    exact Takes.int_of_spelled (c := r.context) hf hz r tail rfl hrest

/-- The reader of atoms of one kind, none of which is refused. -/
theorem atom {nested : α → Nat} {q : Format.Family → Prop} (atom : α → Atom)
    (hagrees : Agrees x nested) (hwants : Wants x q)
    (hkind : ∀ other family, q family → Atom.Opens other family → ∃ a, other = atom a)
    (htakes : ∀ c a f, (atom a).Spelled f → Takes c x (f c.byteOrder) a) :
    Reads x fun a f => (atom a).Spelled f :=
  fun _ a _ => (ok_iff_holds atom hagrees hwants hkind htakes a).trans (holds_iff _)

theorem nil : Reads Reader.nil fun _ f => Atom.nil.Spelled f := by
  refine atom (fun _ => .nil) .nil .nil ?_ ?_
  · rintro other family rfl hopens
    cases other with
    | nil => exact ⟨(), rfl⟩
    | _ => cases hopens
  · intro c _ f hf
    cases hf
    exact .nil

theorem bool : Reads Reader.bool fun b f => (Atom.bool b).Spelled f := by
  refine atom .bool .bool .bool ?_ ?_
  · rintro other family rfl hopens
    cases other with
    | bool b => exact ⟨b, rfl⟩
    | _ => cases hopens
  · intro c b f hf
    cases hf
    exact .bool b

theorem f32 : Reads Reader.f32 fun bits f => (Atom.single bits).Spelled f := by
  refine atom .single .f32 .f32 ?_ ?_
  · rintro other family rfl hopens
    cases other with
    | single bits => exact ⟨bits, rfl⟩
    | _ => cases hopens
  · intro c bits f hf
    cases hf
    exact .f32 bits

theorem f64 : Reads Reader.f64 fun bits f => (Atom.double bits).Spelled f ∨
    ∃ single, (Atom.single single).Spelled f ∧ bits = widenFloat single := by
  have hdouble {c : Context} {bits : UInt64} {f : Form} (hf : (Atom.double bits).Spelled f) :
      Takes c Reader.f64 (f c.byteOrder) bits := by
    cases hf
    exact .f64 bits
  have hsingle {c : Context} {bits : UInt32} {f : Form} (hf : (Atom.single bits).Spelled f) :
      Takes c Reader.f64 (f c.byteOrder) (widenFloat bits) := by
    cases hf
    exact Answers.widened bits
  intro r bits r'
  constructor
  · intro h
    obtain ⟨atom, f, tail, hf, hrest, rfl⟩ := GoesOver.of_stepOver (Agrees.f64 r bits r' h)
    obtain ⟨family, rfl | rfl, hopens⟩ := Wants.f64.opens hf hrest h
    · cases atom with
      | double bits' =>
          rw [hdouble hf r tail rfl hrest] at h
          obtain ⟨rfl, -⟩ := EStateM.Result.ok.inj h
          exact ⟨f, tail, .inl hf, hrest, rfl⟩
      | _ => cases hopens
    · cases atom with
      | single bits' =>
          rw [hsingle hf r tail rfl hrest] at h
          obtain ⟨rfl, -⟩ := EStateM.Result.ok.inj h
          exact ⟨f, tail, .inr ⟨bits', hf, rfl⟩, hrest, rfl⟩
      | _ => cases hopens
  · rintro ⟨f, tail, hf | ⟨single, hf, rfl⟩, hrest, rfl⟩
    · exact hdouble hf r tail rfl hrest
    · exact hsingle hf r tail rfl hrest

end Reads

namespace Recovers

/-- The byte that a refusal depends on has been looked at only. -/
theorem behindPeek {g : UInt8 → Reader α} (h : ∀ code, Recovers (g code)) :
    Recovers (Reader.peek >>= g) := by
  intro r e r' herror
  rcases bind_error herror with hpeek | ⟨code, t, hpeek, hcode⟩
  · exact peek r e r' hpeek
  · obtain ⟨rfl, -⟩ := peek_ok hpeek
    exact h code t e r' hcode

theorem byte : Recovers Reader.byte := by
  refine behindPeek fun code => ?_
  rw [← map_eq_pure_bind]
  exact (advance 1).map _

theorem nil : Recovers Reader.nil := behindPeek fun _ => ite (advance 1) (throw _)

theorem raw (n : Nat) : Recovers (Reader.raw n) := by
  intro r e r' h
  unfold Reader.raw at h
  split at h
  · cases h
  · cases h
    rfl

theorem number (kind : NumberKind) : Recovers (Reader.number kind) := by
  intro r e r' h
  unfold Reader.number at h
  split at h
  · cases h
  · cases h
    rfl

end Recovers

end Reader

open Reader

variable {Γ : Schema} {op : ReadOp} {r : InStream}

namespace ReadOp

/-- An operation that does no more than to answer with what a reader returns. -/
theorem Atomic.of_reads {α : Type} {x : Reader α} {p : α → Form → Prop} {g : α → ReadAnswer}
    (hrun : op.run Γ = x >>= fun a => pure (g a)) (hop : ∀ bytes, op.taken bytes = bytes.length)
    (hreads : Reads x p) (hrecovers : Recovers x)
    (hto : ∀ a f, p a f → op.Accepts (g a) f)
    (hfrom : ∀ answer f, op.Accepts answer f → ∃ a, p a f ∧ answer = g a) : op.Atomic Γ r where
  ok_iff answer r' := by
    have haccepts answer f : (∃ a, p a f ∧ answer = g a) ↔ op.Accepts answer f :=
      ⟨fun ⟨a, ha, hanswer⟩ => hanswer ▸ hto a f ha, hfrom answer f⟩
    rw [hrun, (hreads.turn g).congr haccepts r answer r']
    simp only [hop]
  unmoved e r' herror := by
    rw [hrun, ← map_eq_pure_bind] at herror
    exact hrecovers.map g r e r' herror

theorem atomic_peek : ReadOp.peek.Atomic Γ r where
  ok_iff answer r' := by
    constructor
    · intro h
      obtain ⟨code, t, hpeek, hpure⟩ := bind_ok h
      obtain ⟨rfl, tail, hrest⟩ := peek_ok hpeek
      cases hpure
      exact ⟨_, tail, .peek code, hrest, rfl⟩
    · rintro ⟨_, tail, ⟨code⟩, hrest, rfl⟩
      exact bind_of_ok (peek_of_rest hrest)
  unmoved e r' h := by
    rcases bind_error h with hpeek | ⟨code, t, -, hpure⟩
    · exact Recovers.peek r e r' hpeek
    · cases hpure

/-- Every operation on headers and scalars takes a form as a whole, or fails and leaves the stream
as it was. -/
theorem atomic (hop : op.isElementary = true) (Γ : Schema) (r : InStream) : op.Atomic Γ r := by
  cases op with
  | value | fields | skip | seek | rewind | handOver => cases hop
  | peek => exact atomic_peek
  | byte =>
      refine .of_reads rfl (fun _ => rfl) .byte .byte ?_ fun answer f h => ?_
      · rintro code f rfl
        exact .byte code
      · cases h
        exact ⟨_, rfl, rfl⟩
  | number kind =>
      refine .of_reads rfl (fun _ => rfl) (.number kind) (.number kind) ?_ fun answer f h => ?_
      · rintro z f ⟨hz, rfl⟩
        exact .number hz
      · cases h with
        | number hz => exact ⟨_, ⟨hz, rfl⟩, rfl⟩
  | raw n =>
      refine .of_reads rfl (fun _ => rfl) (.raw n) (.raw n) ?_ fun answer f h => ?_
      · rintro bytes f ⟨rfl, rfl⟩
        exact .raw bytes
      · cases h
        exact ⟨_, ⟨rfl, rfl⟩, rfl⟩
  | mapHeader =>
      refine .of_reads rfl (fun _ => rfl) .mapHeader (.orRestore rudiments_still.mapHeader)
        (fun _ _ hf => .mapHeader hf) fun answer f h => ?_
      cases h with
      | mapHeader hf => exact ⟨_, hf, rfl⟩
  | arrayHeader =>
      refine .of_reads rfl (fun _ => rfl) .arrayHeader (.orRestore rudiments_still.arrayHeader)
        (fun _ _ hf => .arrayHeader hf) fun answer f h => ?_
      cases h with
      | arrayHeader hf => exact ⟨_, hf, rfl⟩
  | arrayHeaderOf n =>
      refine .of_reads rfl (fun _ => rfl)
        (Reads.arrayHeader.check (P := (· = n)) (fun _ => ()) (.countMismatch n)).orRestore
        (.orRestore (Head.arrayHeaderOf n).still) ?_ fun answer f h => ?_
      · rintro _ f ⟨_, hf, rfl, -⟩
        exact .arrayHeaderOf hf
      · cases h with
        | arrayHeaderOf hf => exact ⟨(), ⟨n, hf, rfl, rfl⟩, rfl⟩
  | mapHeaderOf n =>
      have hhead : Head (Reader.mapHeaderOf n) := .orRestore (.check .mapHeader)
      refine .of_reads rfl (fun _ => rfl)
        (Reads.mapHeader.check (P := (· = n)) (fun _ => ()) (.countMismatch n)).orRestore
        (.orRestore hhead.still) ?_ fun answer f h => ?_
      · rintro _ f ⟨_, hf, rfl, -⟩
        exact .mapHeaderOf hf
      · cases h with
        | mapHeaderOf hf => exact ⟨(), ⟨n, hf, rfl, rfl⟩, rfl⟩
  | blobHeader =>
      refine .of_reads rfl (fun _ => rfl) .blobHeader (.orRestore rudiments_still.blobHeader)
        (fun _ _ hf => .blobHeader hf) fun answer f h => ?_
      cases h with
      | blobHeader hf => exact ⟨_, hf, rfl⟩
  | blob =>
      refine .of_reads rfl (fun _ => rfl) .blob (.orRestore rudiments_still.blob)
        (fun _ _ hf => .blob hf) fun answer f h => ?_
      cases h with
      | blob hf => exact ⟨_, hf, rfl⟩
  | strHeader =>
      refine .of_reads rfl (fun _ => rfl) .strHeader (.orRestore rudiments_still.strHeader)
        (fun _ _ hf => .strHeader hf) fun answer f h => ?_
      cases h with
      | strHeader hf => exact ⟨_, hf, rfl⟩
  | str =>
      refine .of_reads rfl (fun _ => rfl) .str (.orRestore rudiments_still.str)
        (fun _ _ hf => .str hf) fun answer f h => ?_
      cases h with
      | str hf => exact ⟨_, hf, rfl⟩
  | extHeader =>
      refine .of_reads rfl (fun _ => rfl) .extHeader (.orRestore rudiments_still.extHeader)
        ?_ fun answer f h => ?_
      · rintro header f ⟨f', hf', hsubtype, rfl⟩
        exact .extHeader hf' hsubtype
      · cases h with
        | extHeader hf' hsubtype => exact ⟨(_, _), ⟨_, hf', hsubtype, rfl⟩, rfl⟩
  | ext =>
      refine .of_reads rfl (fun _ => rfl) .ext (.orRestore rudiments_still.ext)
        (fun _ _ hf => .ext hf) fun answer f h => ?_
      cases h with
      | ext hf => exact ⟨(_, _), hf, rfl⟩
  | nil =>
      refine .of_reads rfl (fun _ => rfl) .nil .nil (fun _ _ hf => .nil hf) fun answer f h => ?_
      cases h with
      | nil hf => exact ⟨(), hf, rfl⟩
  | bool =>
      refine .of_reads rfl (fun _ => rfl) .bool .bool (fun _ _ hf => .bool hf) fun answer f h => ?_
      cases h with
      | bool hf => exact ⟨_, hf, rfl⟩
  | uint =>
      refine .of_reads rfl (fun _ => rfl) .uint (.orRestore rudiments_still.uint)
        (fun _ _ hf => .uint hf) fun answer f h => ?_
      cases h with
      | uint hf => exact ⟨_, hf, rfl⟩
  | int =>
      refine .of_reads rfl (fun _ => rfl) .int (.orRestore rudiments_still.int)
        ?_ fun answer f h => ?_
      · rintro z f ⟨hf, hz⟩
        exact .int hf hz
      · cases h with
        | int hf hz => exact ⟨_, ⟨hf, hz⟩, rfl⟩
  | f32 =>
      refine .of_reads rfl (fun _ => rfl) .f32 (.orRestore rudiments_still.f32)
        (fun _ _ hf => .f32 hf) fun answer f h => ?_
      cases h with
      | f32 hf => exact ⟨_, hf, rfl⟩
  | f64 =>
      refine .of_reads rfl (fun _ => rfl) .f64 (.orRestore rudiments_still.f64)
        ?_ fun answer f h => ?_
      · rintro bits f (hf | ⟨single, hf, rfl⟩)
        · exact .f64 hf
        · exact .widened hf
      · cases h with
        | f64 hf => exact ⟨_, .inl hf, rfl⟩
        | widened hf => exact ⟨_, .inr ⟨_, hf, rfl⟩, rfl⟩

end ReadOp

/-- In every state that a stream comes to, the cursor is inside of its bytes and nothing that it
does is out of range, and headers and scalars are read whole or not at all. If no reader that comes
with a type or a field forgets the table, then whatever is done with the stream from there, an
object that is complete finds the place that was opened for it. -/
theorem InStream.Reached.reads_whole (hΓ : ∀ x, Γ.Foreign x → Composed x) (h : r.Reached Γ) :
    r.cursor.Sound ∧ (∀ op : ReadOp, op.isElementary = true → op.Atomic Γ r) ∧
      ((∀ x, Γ.Foreign x → Traced x) → ∀ ops, (∃ history, History Γ r ops history) ∧
        ∀ history, History Γ r ops history → ∀ serial, .lost serial ∉ history) := by
  refine ⟨ByteCursor.sound_of_inside (h.inside hΓ), fun _ hop => ReadOp.atomic hop Γ r, ?_⟩
  exact fun htraced ops => ⟨exists_history htraced ops r, fun _ hhistory => hhistory.lost_not_mem⟩

namespace Sample

theorem composed_readers_parcels : ∀ x, parcels.Foreign x → Composed x := by
  intro x hx
  rw [Schema.eq_of_foreign derived_parcels rfl hx]
  exact (Composed.head .blob).bind fun _ => .pure _

theorem traced_readers_parcels : ∀ x, parcels.Foreign x → Traced x := by
  intro x hx
  rw [Schema.eq_of_foreign derived_parcels rfl hx]
  exact (Traced.of_primitive (.head .blob)).bind fun _ => .of_primitive (.pure _)

/-- The header of an array of three, a text of two bytes that spell none, the code of a number of
two bytes with one of them, and nothing more. -/
def broken : ByteArray := packed [0x93, 0xa2, 0xc3, 0x28, 0xd1, 0xff]

/-- Another count is asked for, a parcel is looked for, and from the start again, the header is
taken, the text is refused and skipped, and neither is the number read nor a place past the end
gone to. -/
def stumbles : List ReadOp :=
  [.arrayHeaderOf 2, .value parcel, .rewind, .arrayHeader, .str, .skip, .int, .seek 7]

end Sample

/-- After operations most of which failed the cursor is where the last success left it. -/
theorem reads_whole_stumbles :
    let r := ReadOp.afterAll Sample.parcels Sample.stumbles
      (.ofBytes Sample.parcelTracked Sample.broken 0 none)
    r.pos = 4 ∧ (∀ x, Sample.parcels.Foreign x → Composed x) ∧
      (∀ x, Sample.parcels.Foreign x → Traced x) ∧ r.Reached Sample.parcels ∧
      r.cursor.Sound ∧ (∀ op : ReadOp, op.isElementary = true → op.Atomic Sample.parcels r) ∧
      ∃ history, History Sample.parcels r Sample.stumbles history ∧
        ∀ serial, .lost serial ∉ history := by
  intro r
  have hreached : r.Reached Sample.parcels :=
    .afterAll Sample.stumbles (.start Sample.parcelTracked Sample.broken 0 none)
  obtain ⟨hsound, hatomic, hplaces⟩ :=
    InStream.Reached.reads_whole Sample.composed_readers_parcels hreached
  obtain ⟨⟨history, hhistory⟩, hall⟩ := hplaces Sample.traced_readers_parcels Sample.stumbles
  exact ⟨by decide +kernel, Sample.composed_readers_parcels, Sample.traced_readers_parcels,
    hreached, hsound, hatomic, history, hhistory, hall history hhistory⟩

end ObjectStream
