import ObjectStream.Proofs.Costs
import ObjectStream.Proofs.Integer

/-!
# What stands at the cursor

Where the reader of a header, a text, an extension or an integer succeeds, a form of
what it returns stands at the cursor, and the stream goes on behind it; and of what
stands there it reads every form. So what such a reader accepts can be said of the
bytes alone.
-/

namespace ObjectStream

/-- The stream goes on with `bytes`, which are a complete form of the atom. -/
def InStream.Holds (r : InStream) (atom : Atom) (bytes : List UInt8) : Prop :=
  ∃ f tail, atom.Spelled f ∧ bytes = f r.context.byteOrder ∧ r.rest = bytes ++ tail

namespace Reader

variable {α : Type} {r r' : InStream} {n : Nat} {bytes : List UInt8}

/-- A reader that returns what an atom is about, for atoms of one kind and in every form. -/
theorem ok_iff_holds {x : Reader α} {nested : α → Nat} {p : Format.Family → Prop}
    (atom : α → Atom) (hagrees : Agrees x nested) (hwants : Wants x p)
    (hkind : ∀ other family, p family → Atom.Opens other family → ∃ a, other = atom a)
    (htakes : ∀ c a f, (atom a).Spelled f → Takes c x (f c.byteOrder) a) (a : α) :
    x r = .ok a r' ↔ ∃ bytes, r.Holds (atom a) bytes ∧ r' = r.skip bytes.length := by
  constructor
  · intro h
    obtain ⟨other, f, tail, hf, hrest, rfl⟩ := GoesOver.of_stepOver (hagrees r a r' h)
    obtain ⟨family, hp, hopens⟩ := hwants.opens hf hrest h
    obtain ⟨b, rfl⟩ := hkind other family hp hopens
    rw [htakes r.context b f hf r tail rfl hrest] at h
    obtain ⟨rfl, -⟩ := EStateM.Result.ok.inj h
    exact ⟨_, ⟨f, tail, hf, rfl, hrest⟩, rfl⟩
  · rintro ⟨_, ⟨f, tail, hf, rfl, hrest⟩, rfl⟩
    exact htakes r.context a f hf r tail rfl hrest

theorem mapHeader_ok_iff :
    mapHeader r = .ok n r' ↔ ∃ bytes, r.Holds (.map n) bytes ∧ r' = r.skip bytes.length := by
  refine ok_iff_holds .map .mapHeader .mapHeader ?_ ?_ n
  · rintro other family rfl hopens
    cases other with
    | map m => exact ⟨m, rfl⟩
    | _ => cases hopens
  · intro c m f hf
    cases hf with
    | map hf => exact .mapHeader_of_spells hf

theorem ext_ok_iff {subtype : Int} {payload : ByteArray} : ext r = .ok (subtype, payload) r' ↔
    ∃ bytes, r.Holds (.ext subtype payload) bytes ∧ r' = r.skip bytes.length := by
  refine ok_iff_holds (fun e => .ext e.1 e.2) .ext (.orRestore (.bind .extHeader _)) ?_ ?_
    (subtype, payload)
  · rintro other family rfl hopens
    cases other with
    | ext subtype payload => exact ⟨(subtype, payload), rfl⟩
    | _ => cases hopens
  · intro c e f hf
    cases hf with
    | ext hf hholds => exact .orRestore (Answers.extBytes hf hholds)

theorem strBytes_ok_iff {content : ByteArray} : (strHeader >>= raw) r = .ok content r' ↔
    ∃ bytes, r.Holds (.str content) bytes ∧ r' = r.skip bytes.length := by
  refine ok_iff_holds .str .strBytes (.bind .strHeader _) ?_ ?_ content
  · rintro other family rfl hopens
    cases other with
    | str content => exact ⟨content, rfl⟩
    | _ => cases hopens
  · intro c content f hf
    cases hf with
    | str hf => exact (Takes.strHeader_of_spells hf).bind (Answers.rawBytes content)

/-- The bytes of a text spell the text that is returned. -/
theorem str_ok_iff {text : String} : str r = .ok text r' ↔
    ∃ bytes, r.Holds (.str text.toUTF8) bytes ∧ r' = r.skip bytes.length := by
  have heq : str r = .ok text r' ↔ ((strHeader >>= raw) >>= textOf) r = .ok text r' := by
    rw [bind_assoc]
    exact orRestore_ok
  rw [heq]
  constructor
  · intro h
    obtain ⟨content, t, hbytes, htext⟩ := bind_ok h
    obtain ⟨-, -, -, ⟨rfl, -⟩, -⟩ := Costs.textOf content t text r' rfl htext
    rw [Stays.textOf _ t text r' htext]
    exact strBytes_ok_iff.1 hbytes
  · intro h
    rw [bind_of_ok (strBytes_ok_iff.2 h)]
    exact Takes.textOf text r' r'.rest rfl rfl

theorem uint_ok_iff :
    uint r = .ok n r' ↔ ∃ bytes, r.HoldsInteger n bytes ∧ r' = r.skip bytes.length := by
  constructor
  · intro h
    obtain ⟨z, bytes, hholds, hz⟩ := InStream.holdsInteger_of_uint h
    rw [uint_of_holds hholds hz] at h
    obtain ⟨rfl, rfl⟩ := EStateM.Result.ok.inj h
    rw [← Int.toNat_of_nonneg hz] at hholds
    exact ⟨bytes, hholds, rfl⟩
  · rintro ⟨bytes, hholds, rfl⟩
    exact uint_of_holds hholds (Int.natCast_nonneg n)

theorem unsigned_ok_iff {width : IntWidth} : unsigned width r = .ok n r' ↔
    n < 2 ^ width.bits ∧ ∃ bytes, r.HoldsInteger n bytes ∧ r' = r.skip bytes.length := by
  have hwidth (m : Nat) : width.holdsUnsigned m = true ↔ m < 2 ^ width.bits := by
    rw [IntWidth.holdsUnsigned_iff]
    exact ⟨fun h => by exact_mod_cast h.2, fun h => ⟨Int.natCast_nonneg m, by exact_mod_cast h⟩⟩
  rw [unsigned, orRestore_ok, ← uint_ok_iff]
  constructor
  · intro h
    obtain ⟨m, t, huint, hcheck⟩ := bind_ok h
    rcases ite_ok hcheck with ⟨hm, hpure⟩ | hthrow
    · cases hpure
      exact ⟨(hwidth n).1 hm, huint⟩
    · cases hthrow
  · rintro ⟨hn, huint⟩
    rw [bind_of_ok huint, if_pos ((hwidth n).2 hn)]
    rfl

end Reader

end ObjectStream
