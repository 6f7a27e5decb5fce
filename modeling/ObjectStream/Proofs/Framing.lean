import ObjectStream.Proofs.ReadPointer
import ObjectStream.Proofs.Still

/-!
# Bodies and references

The reader tells a body from a reference by the first byte behind the tag. The
writer refuses a body that starts as a reference does, but it has nothing to
refuse in a body without bytes, and the reader then looks at what is behind the
pointer. So a pointer that was written with its body is read as one if and only
if the body has a byte, or there is something behind the pointer that starts
with no integer.
-/

namespace ObjectStream

open InStream

/-- A writer and a reader of one object go together: what the one adds to a stream the other takes
from a stream, whatever is behind it, and returns a right value. As an object may refer to others,
the reader may have to be ready for what was written. -/
def RoundTrips (c : Context) (ready : OutStream → InStream → Prop) (x : Writer Unit)
    (y : Reader Value) (right : Value → Prop) : Prop :=
  ∀ s s', s.context = c → x s = .ok () s' →
    ∃ bytes, s'.sink = s.sink.append (packed bytes) ∧
      ∀ r tail, r.context = c → r.rest = bytes ++ tail → ready s r →
        ∃ w r' tags, y r = .ok w r' ∧ right w ∧ r'.cursor = r.cursor.skip bytes.length ∧
          Moved r r' tags

/-- What is conveyed without pointers needs nothing that was written before. -/
theorem Conveys.roundTrips {c : Context} {x : Writer Unit} {lead : List UInt8 → Prop}
    {y : Reader Value} {a : Value} (h : Conveys c x lead y a) :
    RoundTrips c (fun _ _ => True) x y (· = a) := by
  intro s s' hc hx
  obtain ⟨bytes, rfl, _, htakes⟩ := h s s' hc hx
  refine ⟨bytes, rfl, fun r tail hr hrest _ => ?_⟩
  exact ⟨a, _, [], htakes r tail hr hrest, rfl, rfl, Moved.skip r _⟩

def OutStream.inside (s : OutStream) (table : WrittenTable) (id : Identity) (tag : TypeTag) :
    OutStream :=
  (s.enter table id tag).append (Form.pointer tag s.context.byteOrder)

def InStream.inside (r : InStream) (tag : TypeTag) (target : Ty) : InStream :=
  ((r.skip (Form.pointer tag r.context.byteOrder).length).opened tag).noted
    (.constructing tag target)

/-- The reader has made an object of a right value by the constructor, and put it in the next place
of its table. The cursor is `size` bytes further. -/
structure BuildsObject (tag : TypeTag) (target : Ty) (upcast : Upcast) (right : Value → Prop)
    (size : Nat) (r r' : InStream) (object : Shared) : Prop where
  place : r'.slots[r.slots.length]? = some ⟨tag, some object⟩
  kind : object.target = target ∧ object.type = upcast.result
  body : ∃ w, right w ∧ object.body = upcast.convert w
  cursor : r'.cursor = r.cursor.skip size

def StartsNoInteger (bytes : List UInt8) : Prop :=
  StartsWith (fun code => (Format.family code).isInteger = false) bytes

namespace Reader

variable {r : InStream} {tag : TypeTag} {pointee : Ty} {read : Ty → Reader Value}

theorem peek_of_rest_nil (h : r.rest = []) : ∃ e, peek r = .error e r := by
  have hle : r.cursor.data.size ≤ r.cursor.pos := by
    rw [InStream.rest, List.drop_eq_nil_iff, length_unpacked] at h
    exact h
  have hnone : r.cursor.data[r.cursor.pos]? = none := by
    simpa [getElem?_def] using hle
  exact ⟨_, by simp [peek, ByteCursor.peek, hnone]; rfl⟩

/-- Behind the last byte there is neither a reference nor an object. -/
theorem sharedBehind_of_rest_nil (htracks : r.tracks = true) (h : r.rest = []) :
    ∃ e, sharedBehind tag pointee read r = .error e r := by
  have htracking : tracking r = .ok true r := by rw [tracking, ← htracks, InStream.tracks]
  obtain ⟨e, he⟩ := peek_of_rest_nil h
  refine ⟨e, ?_⟩
  simp only [sharedBehind, bind, EStateM.bind, htracking, if_true, he]

/-- The tag is taken off first. -/
theorem shared_of_rest (hnull : tag ≠ nullTag) (hlt : tag < 2 ^ 32) {tail : List UInt8}
    (hrest : r.rest = Form.pointer tag r.context.byteOrder ++ tail) :
    Reader.shared pointee read r =
      (some <$> sharedBehind tag pointee read : Reader (Option Shared))
        (r.skip (Form.pointer tag r.context.byteOrder).length) := by
  simp only [shared, bind, EStateM.bind, Takes.pointerTag hnull hlt r tail rfl hrest]

/-- Behind a reference there is no new place. -/
theorem slots_of_follow {object : Shared} {r' : InStream}
    (h : (do follow tag (← unsigned .w32) pointee : Reader Shared) r = .ok object r') :
    r'.slots = r.slots := by
  obtain ⟨serial, t, hserial, hfollow⟩ := bind_ok h
  obtain ⟨pos, hpos⟩ := rudiments_still.unsigned .w32 r
  simp only [stateAfter, hserial] at hpos
  subst hpos
  rcases follow_cases tag serial pointee { r with cursor := ⟨r.cursor.data, pos⟩ } with
    ⟨_, _, _, hres⟩ | ⟨_, e, r'', hres, _⟩
  · rw [hres] at hfollow
    cases hfollow
    rfl
  · rw [hres] at hfollow
    cases hfollow

end Reader

variable {tag : TypeTag} {type pointee : Ty} {upcast : Upcast} {right : Value → Prop}

/-- What the first pointer to an object has written when it succeeds: the tag, and a body that does
not start with an integer. -/
theorem RoundTrips.wrote_first {ready : OutStream → InStream → Prop} {body : Writer Unit}
    {y : Reader Value} {s s' : OutStream} (hpair : RoundTrips s.context ready body y right)
    {table : WrittenTable} {id : Identity} (hshared : s.shared = some table)
    (hnew : table.find? id = none) (htag : s.context.registry.tag? type = some tag)
    (hwrite : Writer.shared id type body s = .ok () s') :
    ∃ bytes, s'.sink = s.sink.append (packed (Form.pointer tag s.context.byteOrder ++ bytes)) ∧
      (bytes ≠ [] → StartsNoInteger bytes) ∧
      ∀ r tail, r.context = s.context → r.rest = bytes ++ tail →
        ready (s.inside table id tag) r →
        ∃ w r' tags, y r = .ok w r' ∧ right w ∧ r'.cursor = r.cursor.skip bytes.length ∧
          Moved r r' tags := by
  rcases Writer.shared_ok htag hwrite with
    ⟨hnone, _⟩ | ⟨table', tag', serial, hsome, hfind, _⟩ |
      ⟨table', t, hsome, _, ht, hbody, hcheck⟩
  · rw [hshared] at hnone
    cases hnone
  · rw [hshared] at hsome
    cases hsome
    rw [hnew] at hfind
    cases hfind
  · rw [hshared] at hsome
    cases hsome
    subst ht
    obtain ⟨bytes, hsink, hread⟩ := hpair (s.inside table id tag) s' rfl hbody
    refine ⟨bytes, ?_, fun hne => ?_, hread⟩
    · rw [hsink]
      exact congrArg OutStream.sink ((s.enter table id tag).append_append _ bytes)
    · obtain ⟨code, rest, rfl⟩ := List.exists_cons_of_ne_nil hne
      refine ⟨code, rest, rfl, hcheck code ?_⟩
      rw [hsink]
      exact ByteSink.getElem?_append _ code rest

/-- Bytes that start with no integer are read as a body. -/
theorem exists_buildsObject {read : Ty → Reader Value} {bytes tail : List UInt8} {r : InStream}
    (hnull : tag ≠ nullTag) (hlt : tag < 2 ^ 32) (htracks : r.tracks = true)
    (hup : r.context.registry.upcast? tag pointee = some upcast)
    (hrest : r.rest = Form.pointer tag r.context.byteOrder ++ (bytes ++ tail))
    (hstart : StartsNoInteger (bytes ++ tail))
    (hread : ∃ w r' tags, read upcast.source (r.inside tag pointee) = .ok w r' ∧ right w ∧
      r'.cursor = (r.inside tag pointee).cursor.skip bytes.length ∧
      Moved (r.inside tag pointee) r' tags) :
    ∃ object r', Reader.shared pointee read r = .ok (some object) r' ∧
      BuildsObject tag pointee upcast right
        (Form.pointer tag r.context.byteOrder ++ bytes).length r r' object := by
  have hbehind := InStream.rest_skip_append hrest
  obtain ⟨code, rest, hcode, hinteger⟩ := hstart
  rw [hcode] at hbehind
  obtain ⟨w, r', tags, hres, hw, hcursor, hmoved⟩ := hread
  have hplace : r'.slots[r.slots.length]? = some ⟨tag, none⟩ :=
    hmoved.of_noted.place (r := r.skip _) htracks
  refine ⟨⟨r'.nextObject, pointee, upcast.result, upcast.convert w⟩,
    r'.filled tag r.slots.length pointee upcast.result (upcast.convert w), ?_, ?_,
    ⟨rfl, rfl⟩, ⟨w, hw, rfl⟩, ?_⟩
  · rw [Reader.shared_of_rest hnull hlt hrest]
    simp only [Functor.map, EStateM.map]
    rw [Reader.sharedBehind_tracked (r := r.skip _) htracks hbehind, if_neg (by simp [hinteger]),
      Reader.makeTracked_eq (r := r.skip _) hup]
    have hres' : read upcast.source (((r.skip (Form.pointer tag r.context.byteOrder).length).opened
        tag).noted (.constructing tag pointee)) = .ok w r' := hres
    have hplace' : r'.slots[(r.skip (Form.pointer tag r.context.byteOrder).length).slots.length]? =
        some ⟨tag, none⟩ := hplace
    have hfill := Reader.fillSlot_of_place (r := { r' with nextObject := r'.nextObject + 1 })
      tag ⟨r'.nextObject, pointee, upcast.result, upcast.convert w⟩ hplace'
    simp only [bind, EStateM.bind, hres', Reader.newObject, hfill]
    rfl
  · rw [slots_filled, List.getElem?_set_self (List.getElem?_eq_some_iff.1 hplace).1]
  · rw [List.length_append]
    refine hcursor.trans ?_
    simp [InStream.inside, InStream.opened, InStream.noted, InStream.skip, ByteCursor.skip,
      Nat.add_assoc]

/-- Bytes that start with an integer, and no bytes, are not. -/
theorem not_buildsObject {read : Ty → Reader Value} {behind : List UInt8} {r r' : InStream}
    {object : Shared} {size : Nat} (hnull : tag ≠ nullTag) (hlt : tag < 2 ^ 32)
    (htracks : r.tracks = true)
    (hrest : r.rest = Form.pointer tag r.context.byteOrder ++ behind)
    (hstart : ¬ StartsNoInteger behind)
    (hres : Reader.shared pointee read r = .ok (some object) r') :
    ¬ BuildsObject tag pointee upcast right size r r' object := by
  intro hbuilds
  have hbehind := InStream.rest_skip_append hrest
  rw [Reader.shared_of_rest hnull hlt hrest, map_eq_pure_bind] at hres
  obtain ⟨found, t, hfound, hdone⟩ := bind_ok hres
  cases hdone
  cases behind with
  | nil =>
      obtain ⟨e, he⟩ := Reader.sharedBehind_of_rest_nil (r := r.skip _) htracks hbehind
      rw [he] at hfound
      cases hfound
  | cons code rest =>
      have hinteger : (Format.family code).isInteger = true := by
        by_contra hnot
        exact hstart ⟨code, rest, rfl, by simpa using hnot⟩
      rw [Reader.sharedBehind_tracked (r := r.skip _) htracks hbehind, if_pos hinteger] at hfound
      have hslots := Reader.slots_of_follow hfound
      have hplace := hbuilds.place
      rw [hslots] at hplace
      have hlt := (List.getElem?_eq_some_iff.1 hplace).1
      exact Nat.lt_irrefl _ hlt

/-- The writer's check is what the reader needs, if and only if the body is not empty or something
that is no integer stands behind the pointer. -/
theorem exists_buildsObject_iff {s s' : OutStream} (hc : s.context.WellFormed)
    (htag : s.context.registry.tag? type = some tag)
    (hup : s.context.registry.upcast? tag pointee = some upcast) {table : WrittenTable}
    {id : Identity} (hshared : s.shared = some table) (hnew : table.find? id = none)
    {ready : OutStream → InStream → Prop} {body : Writer Unit} {read : Ty → Reader Value}
    (hpair : RoundTrips s.context ready body (read upcast.source) right)
    (hwrite : Writer.shared id type body s = .ok () s') :
    ∃ bytes, s'.sink = s.sink.append (packed (Form.pointer tag s.context.byteOrder ++ bytes)) ∧
      ∀ r tail, r.context = s.context → r.tracks = true →
        r.rest = Form.pointer tag s.context.byteOrder ++ (bytes ++ tail) →
        ready (s.inside table id tag) (r.inside tag pointee) →
        ((∃ object r', Reader.shared pointee read r = .ok (some object) r' ∧
          BuildsObject tag pointee upcast right
            (Form.pointer tag s.context.byteOrder ++ bytes).length r r' object) ↔
          bytes ≠ [] ∨ StartsNoInteger tail) := by
  obtain ⟨hnull, hlt⟩ := hc.tags type tag htag
  obtain ⟨bytes, hsink, hstart, hread⟩ := hpair.wrote_first hshared hnew htag hwrite
  refine ⟨bytes, hsink, fun r tail hcontext htracks hrest hready => ?_⟩
  rw [← hcontext] at hrest hup ⊢
  have hstarts : StartsNoInteger (bytes ++ tail) ↔ bytes ≠ [] ∨ StartsNoInteger tail := by
    cases bytes with
    | nil => simp
    | cons code bytes =>
        refine iff_of_true ?_ (.inl (List.cons_ne_nil _ _))
        exact (hstart (List.cons_ne_nil _ _)).append tail
  rw [← hstarts]
  constructor
  · rintro ⟨object, r', hres, hbuilds⟩
    by_contra hnot
    exact not_buildsObject hnull hlt htracks hrest hnot hres hbuilds
  · intro hno
    have hbehind : (r.inside tag pointee).rest = bytes ++ tail :=
      InStream.rest_skip_append (r := r) hrest
    exact exists_buildsObject hnull hlt htracks hup hrest hno
      (hread (r.inside tag pointee) tail hcontext hbehind hready)

def Ty.nothing : Ty := .named "Nothing" []

def Context.nothings : Context :=
  { Context.standard with
    dedup := true
    registry := Registry.empty.enter .nothing 13 }

theorem Context.wellFormed_nothings : Context.nothings.WellFormed where
  tags := by
    intro t tag h
    simp only [nothings, Registry.tag?_enter] at h
    split at h
    · cases h
      decide
    · cases h
  places := by decide

def Reader.nothing (_ : Ty) : Reader Value := pure (.list [])

/-- Nothing in front of a number is taken for a reference. -/
theorem not_buildsObject_nothing :
    ∃ s, Writer.shared 0 .nothing (pure ()) (OutStream.ofSink .nothings .growable none) = .ok () s ∧
      ¬ ∃ object r,
        Reader.shared .nothing Reader.nothing
          (.ofBytes .nothings (s.sink.data ++ packed [5]) 0 none) = .ok (some object) r ∧
        BuildsObject 13 .nothing (.plain .nothing) (· = .list []) 2
          (.ofBytes .nothings (s.sink.data ++ packed [5]) 0 none) r object := by
  have htag : Context.nothings.registry.tag? .nothing = some 13 := rfl
  have hup : Context.nothings.registry.upcast? 13 .nothing = some (.plain .nothing) := rfl
  have hpair : RoundTrips .nothings (fun _ _ => True) (pure ()) (Reader.nothing .nothing)
      (· = .list []) := (Conveys.nothing (.list [])).roundTrips
  have hwrite : Writer.shared 0 .nothing (pure ()) (OutStream.ofSink .nothings .growable none) =
      .ok () (((OutStream.ofSink .nothings .growable none).enter .empty 0 13).append
        [0x92, 13]) := rfl
  obtain ⟨bytes, hsink, hiff⟩ :=
    exists_buildsObject_iff Context.wellFormed_nothings htag hup rfl rfl hpair hwrite
  refine ⟨_, hwrite, ?_⟩
  have hbytes : bytes = [] := by
    have happend : [0x92, 13] ++ [] = [0x92, 13] ++ bytes := ByteSink.append_injective hsink
    exact (List.append_cancel_left happend).symm
  subst hbytes
  intro hbuilds
  rcases (hiff _ [5] rfl rfl rfl trivial).1 hbuilds with hne | ⟨code, rest, hcode, hinteger⟩
  · exact hne rfl
  · cases hcode
    cases hinteger

end ObjectStream
