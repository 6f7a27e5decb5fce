import ObjectStream.Proofs.Bounded
import ObjectStream.Proofs.Sketch
import ObjectStream.Proofs.Stream
import ObjectStream.Proofs.Unshared

/-!
# Tracking is transparent

A stream that tracks shared objects writes the body of each of them once. What
it writes is what a stream without tracking writes, but for the back-references:
with the framing of its object in the place of each of them, the bytes are the
same. A body that starts with an integer is the one thing that is refused for
the sake of tracking.

Both runs carry out one sketch. While the stream with tracking does so, all
framings that have ended are known in full, and no pointer leads to an object
whose body is still being written, since such an object would be within itself.
-/

namespace ObjectStream

variable {Γ : Schema} {c : Context} {H : Heap}

/-! ## Documents -/

/-- Written bytes with the framings of shared objects told apart. A back-reference has the rank of
its object in the order in which the framings start. -/
inductive Document
  | plain (bytes : List UInt8)
  | append (a b : Document)
  | object (id : Identity) (tag : TypeTag) (body : Document)
  | reference (id : Identity) (tag : TypeTag) (rank : Nat)

/-- The expanded framings in the order in which they start, those that have ended with their
bytes. -/
abbrev Framings := List (Identity × Option (List UInt8))

namespace Document

/-- The bytes as they are written. The serial of a back-reference is the rank in 32 bits. -/
def wire (order : ByteOrder) : Document → List UInt8
  | plain bytes => bytes
  | append a b => wire order a ++ wire order b
  | object _ tag body => Form.pointer tag order ++ wire order body
  | reference _ tag rank => Form.reference tag (rank % 2 ^ 32) order

def ids : Document → List Identity
  | plain _ => []
  | append a b => ids a ++ ids b
  | object id _ body => id :: ids body
  | reference id _ _ => [id]

/-- Puts the expanded framing of its object in the place of each back-reference, in order. -/
def expand (order : ByteOrder) : Document → Framings → Option (List UInt8 × Framings)
  | plain bytes, framings => some (bytes, framings)
  | append a b, framings => do
      let (first, framings) ← expand order a framings
      let (second, framings) ← expand order b framings
      some (first ++ second, framings)
  | object id tag body, framings => do
      let (bytes, after) ← expand order body (framings ++ [(id, none)])
      let framing := Form.pointer tag order ++ bytes
      some (framing, after.set framings.length (id, some framing))
  | reference id _ rank, framings =>
      match framings[rank]? with
      | some (id', some framing) => if id' = id then some (framing, framings) else none
      | _ => none

variable {order : ByteOrder} {framings after last : Framings} {bytes more : List UInt8}

theorem expand_append {a b : Document} (ha : a.expand order framings = some (bytes, after))
    (hb : b.expand order after = some (more, last)) :
    (append a b).expand order framings = some (bytes ++ more, last) := by
  simp [expand, ha, hb]

theorem expand_object {body : Document} {id : Identity} (tag : TypeTag)
    (hbody : body.expand order (framings ++ [(id, none)]) = some (bytes, after)) :
    (object id tag body).expand order framings =
      some (Form.pointer tag order ++ bytes,
        after.set framings.length (id, some (Form.pointer tag order ++ bytes))) := by
  simp [expand, hbody]

theorem expand_reference {id : Identity} (tag : TypeTag) {rank : Nat}
    (h : framings[rank]? = some (id, some bytes)) :
    (reference id tag rank).expand order framings = some (bytes, framings) := by
  simp [expand, h]

/-- The framings that an expansion adds are those of the pointers, and nothing is replaced, where no
object occurs twice. -/
theorem expand_of_nodup {d : Document} (h : d.expand order framings = some (bytes, after))
    (hnodup : (framings.map Prod.fst ++ d.ids).Nodup) :
    d.wire order = bytes ∧ after.map Prod.fst = framings.map Prod.fst ++ d.ids := by
  induction d generalizing framings after bytes with
  | plain b =>
      cases h
      exact ⟨rfl, (List.append_nil _).symm⟩
  | append a b iha ihb =>
      simp only [expand, bind, Option.bind_eq_some_iff] at h
      obtain ⟨⟨first, between⟩, ha, ⟨second, last⟩, hb, hall⟩ := h
      cases hall
      rw [ids, ← List.append_assoc] at hnodup
      obtain ⟨hwire, hids⟩ := iha ha hnodup.of_append_left
      obtain ⟨hwire', hids'⟩ := ihb hb (hids ▸ hnodup)
      exact ⟨by rw [wire, hwire, hwire'], by rw [hids', hids, ids, List.append_assoc]⟩
  | object id tag body ih =>
      simp only [expand, bind, Option.bind_eq_some_iff] at h
      obtain ⟨⟨inner, between⟩, hbody, hall⟩ := h
      cases hall
      have hstart : (framings ++ [(id, none)]).map Prod.fst ++ body.ids =
          framings.map Prod.fst ++ (object id tag body).ids := by simp [ids]
      obtain ⟨hwire, hids⟩ := ih hbody (hstart ▸ hnodup)
      refine ⟨by rw [wire, hwire], ?_⟩
      rw [List.map_set, hids, hstart, ids]
      simp
  | reference id tag rank =>
      unfold expand at h
      split at h
      · next id' framing hrank =>
          split at h
          · next hid =>
              subst hid
              have hmem : id' ∈ framings.map Prod.fst :=
                List.mem_map.2 ⟨_, List.mem_of_getElem? hrank, rfl⟩
              exact absurd rfl ((List.nodup_append.1 hnodup).2.2 id' hmem id' (by simp [ids]))
          · cases h
      · cases h

end Document

/-! ## Runs that succeed -/

def Writer.reached? (x : Writer Unit) (s : OutStream) : Option OutStream :=
  match x s with
  | .ok _ s' => some s'
  | .error _ _ => none

/-- The bytes that a value is on a fresh stream, if it is written. -/
def encoded (Γ : Schema) (c : Context) (t : Ty) (v : Value) : Option (List UInt8) :=
  (Writer.reached? (encode Γ t v) (.ofSink c .growable none)).map fun s => unpacked s.sink.data

def StartsInteger (bytes : List UInt8) : Prop :=
  StartsWith (fun code => (Format.family code).isInteger = true) bytes

/-- Appending behind some bytes. -/
theorem OutStream.append_behind (s : OutStream) (bytes : List UInt8) :
    (s.append bytes).append = fun more => s.append (bytes ++ more) :=
  funext fun more => s.append_append bytes more

namespace Writer

variable {s : OutStream}

theorem reached?_of_ok {x : Writer Unit} {s' : OutStream} (h : x s = .ok () s') :
    reached? x s = some s' := by
  rw [reached?, h]

theorem reached?_of_error {x : Writer Unit} {e : StreamError} {s' : OutStream}
    (h : x s = .error e s') : reached? x s = none := by
  rw [reached?, h]

theorem reached?_congr {x y : Writer Unit} {t : OutStream} (h : x s = y t) :
    reached? x s = reached? y t := by
  rw [reached?, h, reached?]

theorem reached?_bind (x y : Writer Unit) (s : OutStream) :
    reached? (do x; y) s = (reached? x s).bind (reached? y) := by
  simp only [reached?, bind, EStateM.bind]
  cases x s <;> rfl

theorem spell_growing (h : s.sink.limit = none) (f : Form) :
    spell f s = .ok () (s.append (f s.context.byteOrder)) := by
  simp only [spell, raw, ByteSink.refusal?_growing h]
  rfl

/-- The start of a pointer is written in one piece. -/
theorem pointer_growing (h : s.sink.limit = none) (tag : TypeTag) {α : Type} (x : Writer α) :
    (do spell (.array 2); spell (.uint tag); x) s =
      x (s.append (Form.pointer tag s.context.byteOrder)) := by
  have hafter : (s.append (Form.array 2 s.context.byteOrder)).sink.limit = none := h
  simp only [bind, EStateM.bind, spell_growing h, spell_growing hafter]
  rw [OutStream.append_append]
  rfl

theorem reference_growing (h : s.sink.limit = none) (tag : TypeTag) (serial : Nat) :
    reference tag serial s = .ok () (s.append (Form.reference tag serial s.context.byteOrder)) := by
  have hafter : (s.append (Form.pointer tag s.context.byteOrder)).sink.limit = none := h
  rw [reference, pointer_growing h, spell_growing hafter, OutStream.append_append]
  rfl

theorem firstBody_growing (h : s.sink.limit = none) (type : Ty) (tag : TypeTag)
    (body : Writer Unit) :
    firstBody type tag body s =
      (do body; checkBody type (s.append (Form.pointer tag s.context.byteOrder)).size)
        (s.append (Form.pointer tag s.context.byteOrder)) := by
  rw [firstBody, pointer_growing h]
  rfl

end Writer

/-! ## Without tracking -/

def framed? (c : Context) (type : Ty) (body? : Option (List UInt8)) : Option (List UInt8) :=
  (c.registry.tag? type).bind fun tag => body?.map (Form.pointer tag c.byteOrder ++ ·)

namespace Sketch

/-- What a sketch comes to without tracking, if it comes to an end. -/
def plain (c : Context) : Sketch → Option (List UInt8)
  | done => some []
  | refused _ | oversized _ _ => none
  | form f rest => (plain c rest).map (f c.byteOrder ++ ·)
  | object _ type body rest =>
      (framed? c type (plain c body)).bind fun framing => (plain c rest).map (framing ++ ·)

theorem refuses_of_plain {k : Sketch} {bytes : List UInt8} (h : k.plain c = some bytes) :
    k.refuses = false := by
  induction k generalizing bytes with
  | done => rfl
  | refused | oversized => cases h
  | form f rest ih =>
      obtain ⟨more, hmore, -⟩ := Option.map_eq_some_iff.1 h
      exact ih hmore
  | object id type body rest ihbody ihrest =>
      obtain ⟨framing, hframing, hrest⟩ := Option.bind_eq_some_iff.1 h
      obtain ⟨tag, -, hbody⟩ := Option.bind_eq_some_iff.1 hframing
      obtain ⟨inner, hinner, -⟩ := Option.map_eq_some_iff.1 hbody
      obtain ⟨more, hmore, -⟩ := Option.map_eq_some_iff.1 hrest
      exact Bool.or_eq_false_iff.2 ⟨ihbody hinner, ihrest hmore⟩

/-- A growing stream without tracking is longer by what the sketch comes to. -/
theorem reached?_run (k : Sketch) {s : OutStream} (hs : s.context.untracked = c.untracked)
    (hgrowing : s.sink.limit = none) (hshared : s.shared = none) :
    Writer.reached? k.run s = (k.plain c).map s.append := by
  have horder := Context.byteOrder_of_untracked hs
  induction k generalizing s with
  | done => simp [run, plain, Writer.reached?, pure, EStateM.pure]
  | refused e => rfl
  | oversized n e =>
      simp only [run, plain, Writer.reached?, bind, EStateM.bind, Writer.ensureRoom,
        ByteSink.refusal?_growing hgrowing]
      rfl
  | form f rest ih =>
      have hrest := ih (s := s.append (f c.byteOrder)) hs hgrowing hshared horder
      rw [run, Writer.reached?_bind, Writer.reached?_of_ok (Writer.spell_growing hgrowing f),
        Option.bind_some, horder, hrest, plain, Option.map_map, OutStream.append_behind]
      rfl
  | object id type body rest ihbody ihrest =>
      rw [run, Writer.reached?_bind, plain, framed?, ← Context.registry_of_untracked hs]
      cases htag : s.context.registry.tag? type with
      | none =>
          have hrun : Writer.shared id type body.run s =
              .error (.unregisteredType (.type type)) s := by
            rw [Writer.shared_run, Registry.requireTag, htag]
          rw [Writer.reached?_of_error hrun]
          rfl
      | some tag =>
          have hrun : Writer.reached? (Writer.shared id type body.run) s =
              (body.plain c).map (s.append (Form.pointer tag c.byteOrder)).append := by
            rw [← ihbody (s := s.append (Form.pointer tag c.byteOrder)) hs hgrowing hshared horder,
              Writer.reached?, Writer.reached?, Writer.shared_run, Registry.requireTag, htag,
              hshared]
            dsimp only
            rw [Writer.taggedBody_eq, Writer.pointer_growing hgrowing, horder]
          rw [hrun, Option.bind_some]
          cases body.plain c with
          | none => rfl
          | some inner =>
              have hrest := ihrest (s := (s.append (Form.pointer tag c.byteOrder)).append inner) hs
                hgrowing hshared horder
              rw [Option.map_some, Option.map_some, Option.bind_some, Option.bind_some, hrest,
                Option.map_map, OutStream.append_append, OutStream.append_behind]
              rfl

end Sketch

/-- The first byte behind what was written. -/
theorem ByteSink.getElem?_size_append (sink : ByteSink) (bytes : List UInt8) :
    (sink.append (packed bytes)).data[sink.size]? = bytes.head? := by
  cases bytes with
  | nil =>
      rw [append_nil, List.head?_nil]
      exact getElem?_neg sink.data sink.size (Nat.lt_irrefl sink.data.size)
  | cons code bytes => exact sink.getElem?_append code bytes

theorem startsInteger_iff {bytes : List UInt8} :
    StartsInteger bytes ↔
      ∃ code, bytes.head? = some code ∧ (Format.family code).isInteger = true := by
  cases bytes with
  | nil => simp [StartsInteger, StartsWith]
  | cons code bytes => simp [StartsInteger, StartsWith]

theorem StartsInteger.congr {a b : List UInt8} (h : StartsInteger a) (hhead : a.head? = b.head?) :
    StartsInteger b := by
  rw [startsInteger_iff] at h ⊢
  rwa [← hhead]

/-- A body is refused if and only if it starts with an integer. -/
theorem Writer.reached?_checkBody (type : Ty) {s s' : OutStream} {bytes : List UInt8}
    (hsink : s'.sink = s.sink.append (packed bytes)) :
    reached? (checkBody type s.size) s' = none ∧ StartsInteger bytes ∨
      reached? (checkBody type s.size) s' = some s' ∧ ¬ StartsInteger bytes := by
  have hcode : s'.sink.data[s.size]? = bytes.head? := by
    rw [hsink]
    exact s.sink.getElem?_size_append bytes
  rw [startsInteger_iff]
  simp only [reached?, checkBody, bind, EStateM.bind, byteAt?, hcode]
  cases bytes.head? with
  | none => exact .inr ⟨rfl, by simp⟩
  | some code =>
      cases hinteger : (Format.family code).isInteger with
      | true =>
          simp only [hinteger, if_true]
          exact .inl ⟨rfl, code, rfl, hinteger⟩
      | false =>
          simp only [hinteger]
          exact .inr ⟨rfl, by simp [hinteger]⟩

/-- Without tracking the bytes of a value are what its sketch comes to. -/
theorem Sketches.encoded_eq {t : Ty} {v : Value} {k : Sketch} (h : Sketches c (encode Γ t v) k) :
    encoded Γ c.untracked t v = k.plain c := by
  have hrun := k.reached?_run (c := c) (s := .ofSink c.untracked .growable none) rfl rfl rfl
  rw [encoded, Writer.reached?, h _ rfl, ← Writer.reached?, hrun, Option.map_map]
  cases k.plain c <;> rfl

/-! ## With tracking -/

def Heap.node (H : Heap) (id : Identity) : Node := ⟨id, (H id).type, (H id).body⟩

/-- The body of the object, behind its tag, would be taken for a back-reference. -/
def Node.Ambiguous (Γ : Schema) (c : Context) (n : Node) : Prop :=
  ∃ bytes, encoded Γ c.untracked n.type n.body = some bytes ∧ StartsInteger bytes

section Ledgers

variable (Γ : Schema) (c : Context) (H : Heap)

/-- The framing of an object has ended. Its bytes are what the object is without tracking, and
neither its body nor one within it is ambiguous. -/
structure Ended (id : Identity) (framing? : Option (List UInt8)) : Prop where
  framing : ∃ bytes, framing? = some bytes ∧
    framed? c (H id).type (encoded Γ c.untracked (H id).type (H id).body) = some bytes
  clear : ¬ (H.node id).Ambiguous Γ c
  within : ∀ m ∈ (H id).body.nodes, ¬ (H.node m.id).Ambiguous Γ c

/-- The framings are those of the stream's objects. All but the open ones have ended. -/
structure Ledger (opened : List Identity) (framings : Framings) (s : OutStream) : Prop where
  growing : s.sink.limit = none
  places : framings.map Prod.fst = s.entered
  ended : ∀ q ∈ framings, q.1 ∉ opened → Ended Γ c H q.1 q.2

structure Condensed (opened : List Identity) (framings : Framings) (s s' : OutStream)
    (ids : List Identity) (bytes : List UInt8) (d : Document) (framings' : Framings) : Prop where
  wrote : Wrote c H ids (d.wire c.byteOrder) s s'
  ids : d.ids = ids
  expands : d.expand c.byteOrder framings = some (bytes, framings')
  ledger : Ledger Γ c H opened framings' s'
  head : (d.wire c.byteOrder).head? = bytes.head?

/-- A run of a writer with tracking, beside what the writer comes to without: it succeeds and what
it writes expands to this, or it fails, and either the writer comes to nothing or the body of one of
the objects is ambiguous. -/
def Compares (opened : List Identity) (framings : Framings) (s : OutStream) (x : Writer Unit)
    (plain? : Option (List UInt8)) (objects ids : List Identity) : Prop :=
  (∃ s' bytes d framings', x.reached? s = some s' ∧ plain? = some bytes ∧
    (∀ id ∈ objects, ¬ (H.node id).Ambiguous Γ c) ∧
    Condensed Γ c H opened framings s s' ids bytes d framings') ∨
  (x.reached? s = none ∧ (plain? = none ∨ ∃ id ∈ objects, (H.node id).Ambiguous Γ c))

/-- A writer compares with what it comes to without tracking, as long as none of its objects is open
in the stream. -/
def Condenses (x : Writer Unit) (plain? : Option (List UInt8)) (objects : List Identity)
    (sight : List Identity → List Identity) : Prop :=
  ∀ s opened framings, s.Coherent c H → s.tracks = true → Ledger Γ c H opened framings s →
    (∀ id ∈ objects, id ∉ opened) →
    Compares Γ c H opened framings s x plain? objects (sight s.entered)

end Ledgers

namespace Ledger

variable {opened : List Identity} {framings : Framings} {s : OutStream}

theorem append (h : Ledger Γ c H opened framings s) (bytes : List UInt8) :
    Ledger Γ c H opened framings (s.append bytes) := ⟨h.growing, h.places, h.ended⟩

theorem noted (h : Ledger Γ c H opened framings s) (event : Event) :
    Ledger Γ c H opened framings (s.noted event) := ⟨h.growing, h.places, h.ended⟩

/-- An object that is entered is open. -/
theorem enter (h : Ledger Γ c H opened framings s) {table : WrittenTable}
    (hshared : s.shared = some table) (id : Identity) (tag : TypeTag) :
    Ledger Γ c H (id :: opened) (framings ++ [(id, none)]) (s.enter table id tag) where
  growing := h.growing
  places := by
    rw [OutStream.entered_enter hshared, List.map_append, h.places]
    rfl
  ended q hq hopened := by
    rw [List.mem_cons, not_or] at hopened
    rcases List.mem_append.1 hq with hq | hq
    · exact h.ended q hq hopened.2
    · rw [List.mem_singleton.1 hq] at hopened
      exact absurd rfl hopened.1

/-- The framing of an object that was open has ended. -/
theorem close {id : Identity} {k : Nat} {framing? : Option (List UInt8)}
    (h : Ledger Γ c H (id :: opened) framings s) (hnodup : s.entered.Nodup)
    (hk : s.entered[k]? = some id) (hended : Ended Γ c H id framing?) :
    Ledger Γ c H opened (framings.set k (id, framing?)) s where
  growing := h.growing
  places := by
    obtain ⟨hlt, hget⟩ := List.getElem?_eq_some_iff.1 hk
    rw [List.map_set, h.places, ← hget, List.set_getElem_self]
  ended q hq hopened := by
    obtain ⟨l, hl⟩ := List.mem_iff_getElem?.1 hq
    rw [List.getElem?_set] at hl
    split at hl
    · split at hl
      · cases hl
        exact hended
      · cases hl
    · next hne =>
        have hplace : s.entered[l]? = some q.1 := by
          rw [← h.places, List.getElem?_map, hl]
          rfl
        refine h.ended q (List.mem_of_getElem? hl) ?_
        rw [List.mem_cons, not_or]
        refine ⟨fun hid => hne ?_, hopened⟩
        exact (List.getElem?_inj (List.getElem?_eq_some_iff.1 hk).1 hnodup).1
          (by rw [hk, hplace, hid])

/-- The framing at the place of an object. -/
theorem exists_framing (h : Ledger Γ c H opened framings s) {k : Nat} {id : Identity}
    (hk : s.entered[k]? = some id) (hopened : id ∉ opened) :
    ∃ bytes, framings[k]? = some (id, some bytes) ∧ Ended Γ c H id (some bytes) := by
  rw [← h.places, List.getElem?_map, Option.map_eq_some_iff] at hk
  obtain ⟨⟨id', framing?⟩, hk, rfl⟩ := hk
  have hended := h.ended _ (List.mem_of_getElem? hk) hopened
  obtain ⟨bytes, rfl, -⟩ := hended.framing
  exact ⟨bytes, hk, hended⟩

end Ledger

theorem Wrote.entered_of_tracks {s s' : OutStream} {ids : List Identity} {bytes : List UInt8}
    (h : Wrote c H ids bytes s s') (htracks : s.tracks = true) :
    s'.entered = enterAll s.entered ids := by
  rw [h.entered, OutStream.enteredWith, if_pos htracks]

namespace Condensed

/-- A pointer to an object that was written before. -/
theorem seen {s : OutStream} {opened : List Identity} {framings : Framings} {id : Identity}
    {tag : TypeTag} {table : WrittenTable} {serial : Nat} (hs : s.Coherent c H)
    (hledger : Ledger Γ c H opened framings s) (hopened : id ∉ opened)
    (hshared : s.shared = some table) (hfind : table.find? id = some (tag, serial)) :
    ∃ bytes d, Ended Γ c H id (some bytes) ∧
      Condensed Γ c H opened framings s
        ((s.noted (.backReference tag serial)).append (Form.reference tag serial c.byteOrder))
        [id] bytes d framings := by
  obtain ⟨k, hk, hserial, htag⟩ := hs.found table id tag serial hshared hfind
  obtain ⟨bytes, hframing, hended⟩ := hledger.exists_framing hk hopened
  obtain ⟨_, hbytes, hframed⟩ := hended.framing
  cases hbytes
  have hwrote := Wrote.seen hs hshared hfind (.backReference tag serial)
  have hwire : (Document.reference id tag k).wire c.byteOrder =
      Form.reference tag serial c.byteOrder := by rw [Document.wire, hserial]
  refine ⟨bytes, .reference id tag k, hended, hwire ▸ hwrote, rfl,
    Document.expand_reference tag hframing, (hledger.noted _).append _, ?_⟩
  rw [framed?, htag, Option.bind_some, Option.map_eq_some_iff] at hframed
  obtain ⟨body, -, rfl⟩ := hframed
  rfl

/-- A pointer to an object that is new. -/
theorem first {s s' : OutStream} {opened : List Identity} {framings framings' : Framings}
    {id : Identity} {tag : TypeTag} {table : WrittenTable} {ids : List Identity}
    {body : List UInt8} {d : Document} (hs : s.Coherent c H)
    (hledger : Ledger Γ c H opened framings s)
    (hshared : s.shared = some table) (hnew : table.find? id = none)
    (htag : c.registry.tag? (H id).type = some tag)
    (hbody : Condensed Γ c H (id :: opened) (framings ++ [(id, none)])
      ((s.enter table id tag).append (Form.pointer tag c.byteOrder)) s' ids body d framings')
    (hended : Ended Γ c H id (some (Form.pointer tag c.byteOrder ++ body))) :
    Condensed Γ c H opened framings s s' (id :: ids) (Form.pointer tag c.byteOrder ++ body)
      (.object id tag d)
      (framings'.set framings.length (id, some (Form.pointer tag c.byteOrder ++ body))) where
  wrote := Wrote.first hs hshared hnew htag hbody.wrote
  ids := by rw [Document.ids, hbody.ids]
  expands := Document.expand_object tag hbody.expands
  ledger := by
    refine hbody.ledger.close hbody.wrote.coherent.nodup ?_ hended
    have hlength : framings.length = s.entered.length := by
      rw [← hledger.places, List.length_map]
    refine getElem?_of_isPrefix hbody.wrote.entered_grows ?_
    rw [show ((s.enter table id tag).append _).entered = s.entered ++ [id] from
      OutStream.entered_enter hshared id tag, hlength, List.getElem?_concat_length]
  head := rfl

end Condensed

namespace Condenses

variable {x y : Writer Unit} {plain? plain?' : Option (List UInt8)} 
  {objects objects' ids : List Identity} {sight sight' : List Identity → List Identity}

theorem failed (h : ∀ s, s.sink.limit = none → x.reached? s = none) :
    Condenses Γ c H x none objects sight :=
  fun s _ _ _ _ hledger _ => .inr ⟨h s hledger.growing, .inl rfl⟩

theorem done : Condenses Γ c H (pure ()) (some []) [] fun _ => [] := by
  intro s opened framings hs htracks hledger _
  have hwrote := Wrote.bytes hs []
  rw [OutStream.append_nil] at hwrote
  exact .inl ⟨s, [], .plain [], framings, rfl, rfl, nofun, hwrote, rfl, rfl, hledger, rfl⟩

theorem spell (f : Form) :
    Condenses Γ c H (Writer.spell f) (some (f c.byteOrder)) [] fun _ => [] := by
  intro s opened framings hs htracks hledger _
  have hrun := Writer.reached?_of_ok (Writer.spell_growing hledger.growing f)
  rw [hs.context] at hrun
  exact .inl ⟨_, _, .plain (f c.byteOrder), framings, hrun, rfl, nofun, Wrote.bytes hs _, rfl, rfl,
    hledger.append _, rfl⟩

theorem seq (hx : Condenses Γ c H x plain? objects sight)
    (hy : Condenses Γ c H y plain?' objects' sight') :
    Condenses Γ c H (do x; y) (plain?.bind fun a => plain?'.map (a ++ ·)) (objects ++ objects')
      (sightBoth sight sight') := by
  intro s opened framings hs htracks hledger hopened
  rw [List.forall_mem_append] at hopened
  rw [Compares, Writer.reached?_bind]
  rcases hx s opened framings hs htracks hledger hopened.1 with
    ⟨t, a, d, between, hreached, rfl, hclear, hfirst⟩ | ⟨hreached, hplain⟩
  · have hentered := hfirst.wrote.entered_of_tracks htracks
    rw [hreached, Option.bind_some]
    rcases hy t opened between hfirst.wrote.coherent (hfirst.wrote.tracks.trans htracks)
      hfirst.ledger hopened.2 with
      ⟨s', b, d', framings', hreached', rfl, hclear', hsecond⟩ | ⟨hreached', hplain'⟩
    · refine .inl ⟨s', a ++ b, .append d d', framings', hreached', rfl,
        List.forall_mem_append.2 ⟨hclear, hclear'⟩, ?_⟩
      have hids : sightBoth sight sight' s.entered = sight s.entered ++ sight' t.entered := by
        rw [sightBoth, hentered]
      rw [hids]
      refine ⟨hfirst.wrote.trans hsecond.wrote, by rw [Document.ids, hfirst.ids, hsecond.ids],
        Document.expand_append hfirst.expands hsecond.expands, hsecond.ledger, ?_⟩
      rw [Document.wire, List.head?_append, List.head?_append, hfirst.head, hsecond.head]
    · refine .inr ⟨hreached', ?_⟩
      rcases hplain' with rfl | ⟨id, hid, h⟩
      · exact .inl rfl
      · exact .inr ⟨id, List.mem_append_right _ hid, h⟩
  · rw [hreached]
    refine .inr ⟨rfl, ?_⟩
    rcases hplain with rfl | ⟨id, hid, h⟩
    · exact .inl rfl
    · exact .inr ⟨id, List.mem_append_left _ hid, h⟩

section Pointers

variable {s : OutStream} {opened : List Identity} {framings : Framings} {id : Identity}
  {tag : TypeTag} {table : WrittenTable}

/-- A back-reference leads to an object whose framing has ended. -/
theorem compares_seen (hs : s.Coherent c H) (hledger : Ledger Γ c H opened framings s)
    (hopened : id ∉ opened) (hshared : s.shared = some table) {serial : Nat}
    (hfind : table.find? id = some (tag, serial))
    (hplain : plain? = encoded Γ c.untracked (H id).type (H id).body)
    (hwithin : ∀ id' ∈ objects, ∃ m ∈ (H id).body.nodes, id' = m.id) :
    Compares Γ c H opened framings s (Writer.shared id (H id).type x)
      (framed? c (H id).type plain?) (id :: objects) [id] := by
  obtain ⟨_, _, _, htag⟩ := hs.found table id tag serial hshared hfind
  obtain ⟨bytes, d, hended, hcondensed⟩ := Condensed.seen hs hledger hopened hshared hfind
  obtain ⟨_, hbytes, hframed⟩ := hended.framing
  cases hbytes
  have hrun : Writer.shared id (H id).type x s =
      .ok () ((s.noted (.backReference tag serial)).append
        (Form.reference tag serial c.byteOrder)) := by
    rw [Writer.shared_run, hs.context, Registry.requireTag, htag, hshared]
    dsimp only
    rw [hfind]
    dsimp only
    rw [Writer.reference_growing (hledger.noted (.backReference tag serial)).growing,
      show (s.noted (.backReference tag serial)).context = c from hs.context]
  refine .inl ⟨_, bytes, d, framings, Writer.reached?_of_ok hrun, hplain ▸ hframed,
    List.forall_mem_cons.2 ⟨hended.clear, fun id' hid' => ?_⟩, hcondensed⟩
  obtain ⟨m, hm, rfl⟩ := hwithin id' hid'
  exact hended.within m hm

/-- The body of a new object is written while the object is open, and looked at then. -/
theorem compares_first (hs : s.Coherent c H) (hledger : Ledger Γ c H opened framings s)
    (hshared : s.shared = some table) (hnew : table.find? id = none)
    (htag : c.registry.tag? (H id).type = some tag)
    (hbody : Compares Γ c H (id :: opened) (framings ++ [(id, none)])
      ((s.enter table id tag).append (Form.pointer tag c.byteOrder)) x plain? objects ids)
    (hplain : plain? = encoded Γ c.untracked (H id).type (H id).body)
    (hwhole : ∀ bytes, plain? = some bytes → ∀ m ∈ (H id).body.nodes, m.id ∈ objects) :
    Compares Γ c H opened framings s (Writer.shared id (H id).type x)
      (framed? c (H id).type plain?) (id :: objects) (id :: ids) := by
  have hrun : Writer.shared id (H id).type x s =
      (do x; Writer.checkBody (H id).type
              ((s.enter table id tag).append (Form.pointer tag c.byteOrder)).size)
        ((s.enter table id tag).append (Form.pointer tag c.byteOrder)) := by
    rw [Writer.shared_run, hs.context, Registry.requireTag, htag, hshared]
    dsimp only
    rw [hnew]
    dsimp only
    rw [Writer.firstBody_growing (hledger.enter hshared id tag).growing,
      show (s.enter table id tag).context = c from hs.context]
  have hreached := (Writer.reached?_congr hrun).trans (Writer.reached?_bind _ _ _)
  rcases hbody with ⟨s', body, d, framings', hx, rfl, hclear, hcondensed⟩ | ⟨hx, hfailed⟩
  · have hframed : framed? c (H id).type (some body) =
        some (Form.pointer tag c.byteOrder ++ body) := by
      rw [framed?, htag]
      rfl
    rw [hx, Option.bind_some] at hreached
    rcases Writer.reached?_checkBody (H id).type hcondensed.wrote.sink with
      ⟨hcheck, hinteger⟩ | ⟨hcheck, hinteger⟩
    · -- the body starts like an integer, so the object itself is refused
      exact .inr ⟨hreached.trans hcheck, .inr ⟨id, List.mem_cons_self, body, hplain.symm,
        hinteger.congr hcondensed.head⟩⟩
    · have hself : ¬ (H.node id).Ambiguous Γ c := by
        rintro ⟨bytes, hbytes, hstarts⟩
        obtain rfl : body = bytes := Option.some.inj (hplain.trans hbytes)
        exact hinteger (hstarts.congr hcondensed.head.symm)
      have hended : Ended Γ c H id (some (Form.pointer tag c.byteOrder ++ body)) :=
        ⟨⟨_, rfl, hplain ▸ hframed⟩, hself, fun m hm => hclear m.id (hwhole body rfl m hm)⟩
      exact .inl ⟨s', _, _, _, hreached.trans hcheck, hframed,
        List.forall_mem_cons.2 ⟨hself, hclear⟩,
        Condensed.first hs hledger hshared hnew htag hcondensed hended⟩
  · rw [hx] at hreached
    refine .inr ⟨hreached, ?_⟩
    rcases hfailed with rfl | ⟨id', hid', h⟩
    · rw [framed?, htag]
      exact .inl rfl
    · exact .inr ⟨id', List.mem_cons_of_mem _ hid', h⟩

end Pointers

/-- Behind the first pointer to an object stands its body, and no object is within itself. -/
theorem shared {id : Identity} (hbody : Condenses Γ c H x plain? objects sight)
    (hplain : plain? = encoded Γ c.untracked (H id).type (H id).body)
    (hwithin : ∀ id' ∈ objects, ∃ m ∈ (H id).body.nodes, id' = m.id)
    (hwhole : ∀ bytes, plain? = some bytes → ∀ m ∈ (H id).body.nodes, m.id ∈ objects)
    (hself : id ∉ objects) :
    Condenses Γ c H (Writer.shared id (H id).type x) (framed? c (H id).type plain?)
      (id :: objects) (Writes.sightShared id sight) := by
  intro s opened framings hs htracks hledger hopened
  rw [List.forall_mem_cons] at hopened
  obtain ⟨table, hshared⟩ := Option.isSome_iff_exists.1 htracks
  cases htag : c.registry.tag? (H id).type with
  | none =>
      have hrun : Writer.shared id (H id).type x s =
          .error (.unregisteredType (.type (H id).type)) s := by
        rw [Writer.shared_run, hs.context, Registry.requireTag, htag]
      exact .inr ⟨Writer.reached?_of_error hrun, .inl (by rw [framed?, htag]; rfl)⟩
  | some tag =>
      cases hfind : table.find? id with
      | some found =>
          obtain ⟨k, hk, -⟩ := hs.found table id found.1 found.2 hshared hfind
          rw [Writes.sightShared, if_pos (List.mem_of_getElem? hk)]
          exact compares_seen hs hledger hopened.1 hshared hfind hplain hwithin
      | none =>
          have hentered : ((s.enter table id tag).append (Form.pointer tag c.byteOrder)).entered =
              s.entered ++ [id] := OutStream.entered_enter hshared id tag
          rw [Writes.sightShared, if_neg (hs.known table id hshared hfind), ← hentered]
          refine compares_first hs hledger hshared hfind htag ?_ hplain hwhole
          refine hbody _ (id :: opened) _ (Wrote.bytes (hs.enter hshared hfind htag) _).coherent rfl
            ((hledger.enter hshared id tag).append _) fun id' hid' hmem => ?_
          rcases List.mem_cons.1 hmem with rfl | hmem
          · exact hself hid'
          · exact hopened.2 id' hid' hmem

end Condenses

/-! ## Graphs -/

namespace Value

mutual

/-- What is behind a pointer in a value is smaller than the value, and has none but its pointers. -/
theorem nodes_of_mem (v : Value) {n : Node} (h : n ∈ v.nodes) :
    sizeOf n.body < sizeOf v ∧ n.body.nodes ⊆ v.nodes := by
  cases v with
  | list vs =>
      obtain ⟨hlt, hsub⟩ := nodesIn_of_mem vs h
      exact ⟨by simp only [Value.list.sizeOf_spec]; omega, hsub⟩
  | present v =>
      obtain ⟨hlt, hsub⟩ := nodes_of_mem v h
      exact ⟨by simp only [Value.present.sizeOf_spec]; omega, hsub⟩
  | variant index vs =>
      obtain ⟨hlt, hsub⟩ := nodesIn_of_mem vs h
      exact ⟨by simp only [Value.variant.sizeOf_spec]; omega, hsub⟩
  | shared id type body =>
      rcases List.mem_cons.1 h with rfl | h
      · exact ⟨by simp only [Value.shared.sizeOf_spec]; omega, List.subset_cons_self _ _⟩
      · obtain ⟨hlt, hsub⟩ := nodes_of_mem body h
        exact ⟨by simp only [Value.shared.sizeOf_spec]; omega,
          List.Subset.trans hsub (List.subset_cons_self _ _)⟩
  | unique type body =>
      obtain ⟨hlt, hsub⟩ := nodes_of_mem body h
      exact ⟨by simp only [Value.unique.sizeOf_spec]; omega, hsub⟩
  | scalar | errorCode | absent => cases h

theorem nodesIn_of_mem (vs : List Value) {n : Node} (h : n ∈ nodesIn vs) :
    sizeOf n.body < sizeOf vs ∧ n.body.nodes ⊆ nodesIn vs := by
  cases vs with
  | nil => cases h
  | cons v vs =>
      rcases List.mem_append.1 h with h | h
      · obtain ⟨hlt, hsub⟩ := nodes_of_mem v h
        exact ⟨by simp only [List.cons.sizeOf_spec]; omega,
          List.Subset.trans hsub (List.subset_append_left _ _)⟩
      · obtain ⟨hlt, hsub⟩ := nodesIn_of_mem vs h
        exact ⟨by simp only [List.cons.sizeOf_spec]; omega,
          List.Subset.trans hsub (List.subset_append_right _ _)⟩

end

mutual

/-- Pointers are sighted in their order, some of them not at all. -/
theorem sightings_sublist (v : Value) (seen : List Identity) :
    (v.sightings seen).Sublist (v.nodes.map Node.id) := by
  cases v with
  | list vs => exact sightingsIn_sublist vs seen
  | present v => exact sightings_sublist v seen
  | variant index vs => exact sightingsIn_sublist vs seen
  | shared id type body =>
      rw [sightings]
      split
      · exact (List.nil_sublist _).cons_cons id
      · exact (sightings_sublist body _).cons_cons id
  | unique type body => exact sightings_sublist body seen
  | scalar | errorCode | absent => exact List.nil_sublist _

theorem sightingsIn_sublist (vs : List Value) (seen : List Identity) :
    (sightingsIn seen vs).Sublist ((nodesIn vs).map Node.id) := by
  cases vs with
  | nil => exact List.nil_sublist _
  | cons v vs =>
      rw [sightingsIn, nodesIn, List.map_append]
      exact (sightings_sublist v seen).append (sightingsIn_sublist vs _)

end

def IsGraph (v : Value) : Prop := ∀ n ∈ v.nodes, ∀ m ∈ v.nodes, n.id = m.id → n = m

theorem IsGraph.exists_heap {v : Value} (h : v.IsGraph) :
    ∃ H : Heap, ∀ n ∈ v.nodes, H.node n.id = n := by
  classical
  refine ⟨fun id => if hid : ∃ n ∈ v.nodes, n.id = id
    then ⟨hid.choose.type, hid.choose.type, hid.choose.body⟩ else ⟨.unit, .unit, .absent⟩,
    fun n hn => ?_⟩
  have hid : ∃ m ∈ v.nodes, m.id = n.id := ⟨n, hn, rfl⟩
  obtain ⟨hmem, heq⟩ := hid.choose_spec
  simp only [Heap.node, dif_pos hid, h _ hmem n hn heq]

end Value

/-- A sketch whose objects are those of a heap, none of them within itself. -/
theorem Sketch.condenses (k : Sketch) (hshows : ∀ o ∈ k.objects, Shows Γ c o (H.node o.1))
    (hfounded : ∀ o ∈ k.objects, ∀ m ∈ (H o.1).body.nodes, o.1 ≠ m.id) :
    Condenses Γ c H k.run (k.plain c) (k.objects.map Prod.fst) fun seen => k.sightings seen := by
  induction k with
  | done => exact .done
  | refused e => exact .failed fun _ _ => rfl
  | oversized n e =>
      refine .failed fun s hgrowing => ?_
      simp only [run, Writer.reached?, bind, EStateM.bind, Writer.ensureRoom,
        ByteSink.refusal?_growing hgrowing]
      rfl
  | form f rest ih => exact (Condenses.spell f).seq (ih hshows hfounded)
  | object id type body rest ihbody ihrest =>
      rw [objects, List.forall_mem_cons, List.forall_mem_append] at hshows hfounded
      obtain ⟨hshow, hbody, hrest⟩ := hshows
      obtain ⟨hself, hbody', hrest'⟩ := hfounded
      obtain rfl : type = (H id).type := hshow.type
      have hwithin : ∀ id' ∈ body.objects.map Prod.fst, ∃ m ∈ (H id).body.nodes, id' = m.id := by
        intro id' hid'
        obtain ⟨o, ho, rfl⟩ := List.mem_map.1 hid'
        exact hshow.within o ho
      have hshared := Condenses.shared (ihbody hbody hbody') hshow.body.encoded_eq.symm hwithin
        (fun bytes hbytes m hm => by
          obtain ⟨o, ho, heq⟩ := hshow.whole (refuses_of_plain hbytes) m hm
          exact heq ▸ List.mem_map_of_mem ho)
        fun hid => by
          obtain ⟨m, hm, heq⟩ := hwithin id hid
          exact hself m hm heq
      have hboth := hshared.seq (ihrest hrest hrest')
      rw [objects, List.map_cons, List.map_append]
      exact hboth

/-! ## Transparency -/

/-- The objects in a sketch of a graph are those of a heap, none of them within itself. -/
theorem Value.IsGraph.exists_shows {v : Value} (h : v.IsGraph) {k : Sketch}
    (hk : ∀ o ∈ k.objects, ∃ n ∈ v.nodes, Shows Γ c o n) :
    ∃ H : Heap, (∀ n ∈ v.nodes, H.node n.id = n) ∧ (∀ o ∈ k.objects, Shows Γ c o (H.node o.1)) ∧
      ∀ o ∈ k.objects, ∀ m ∈ (H o.1).body.nodes, o.1 ≠ m.id := by
  obtain ⟨H, hH⟩ := h.exists_heap
  have hnode : ∀ o ∈ k.objects, ∃ n ∈ v.nodes, Shows Γ c o n ∧ H.node o.1 = n := by
    intro o ho
    obtain ⟨n, hn, hshows⟩ := hk o ho
    exact ⟨n, hn, hshows, by rw [hshows.id, hH n hn]⟩
  refine ⟨H, hH, fun o ho => ?_, fun o ho m hm heq => ?_⟩
  · obtain ⟨n, -, hshows, hn⟩ := hnode o ho
    rwa [hn]
  · obtain ⟨n, hn, -, rfl⟩ := hnode o ho
    obtain ⟨hlt, -⟩ := (H o.1).body.nodes_of_mem hm
    have hm' : m ∈ v.nodes := (v.nodes_of_mem hn).2 hm
    obtain rfl : H.node o.1 = m := h _ hn m hm' heq
    exact Nat.lt_irrefl _ hlt

/-- A fresh stream has no framings. -/
theorem Ledger.fresh (Γ : Schema) (c : Context) (H : Heap) :
    Ledger Γ c H [] [] (.ofSink c .growable none) :=
  ⟨rfl, (OutStream.entered_ofSink c .growable none).symm, nofun⟩

/-- On a fresh stream with tracking a sketch is carried out to an end, and its document expands to
what it comes to without tracking; or it is not, and either it comes to nothing or the body of one
of its objects is ambiguous. -/
theorem Sketches.encoded_cases (hdedup : c.dedup = true) {t : Ty} {v : Value} {k : Sketch}
    (hk : Sketches c (encode Γ t v) k) (hshows : ∀ o ∈ k.objects, Shows Γ c o (H.node o.1))
    (hfounded : ∀ o ∈ k.objects, ∀ m ∈ (H o.1).body.nodes, o.1 ≠ m.id) :
    (∃ (plain : List UInt8) (d : Document) (framings : Framings),
      encoded Γ c t v = some (d.wire c.byteOrder) ∧ k.plain c = some plain ∧
      (∀ o ∈ k.objects, ¬ (H.node o.1).Ambiguous Γ c) ∧ d.ids = k.sightings [] ∧
      d.expand c.byteOrder [] = some (plain, framings) ∧
      framings.map Prod.fst = enterAll [] d.ids) ∨
    (encoded Γ c t v = none ∧
      (k.plain c = none ∨ ∃ o ∈ k.objects, (H.node o.1).Ambiguous Γ c)) := by
  have htracks : (OutStream.ofSink c .growable none).tracks = true :=
    OutStream.tracks_ofSink.trans hdedup
  have hfresh := OutStream.entered_ofSink c .growable none
  have hrun := Writer.reached?_congr (hk (.ofSink c .growable none) rfl)
  have hcompared := k.condenses hshows hfounded (.ofSink c .growable none) [] []
    OutStream.coherent_ofSink htracks (.fresh Γ c H) (fun _ _ => List.not_mem_nil)
  rw [hfresh, Compares, List.forall_mem_map] at hcompared
  rw [encoded, hrun]
  rcases hcompared with ⟨s', plain, d, framings, hreached, hsome, hclear, hcondensed⟩ |
    ⟨hreached, hfailed⟩
  · refine .inl ⟨plain, d, framings, ?_, hsome, hclear, hcondensed.ids, hcondensed.expands, ?_⟩
    · rw [hreached, Option.map_some, hcondensed.wrote.sink]
      rfl
    · rw [hcondensed.ledger.places, hcondensed.wrote.entered_of_tracks htracks, hfresh,
        hcondensed.ids]
  · rw [hreached]
    refine .inr ⟨rfl, ?_⟩
    rcases hfailed with hnone | ⟨id, hid, h⟩
    · exact .inl hnone
    · obtain ⟨o, ho, rfl⟩ := List.mem_map.1 hid
      exact .inr ⟨o, ho, h⟩

/-- A value graph is written with tracking if and only if it is written without and no body of a
shared object starts with an integer. What is written is then the same but for the back-references:
with the expanded framing of its object in the place of each, in order, the bytes are those that are
written without tracking. There is one framing for each object, so where no object occurs twice the
bytes are the same as they stand. -/
theorem Schema.Placed.transparent (hdedup : c.dedup = true) {t : Ty} {v : Value}
    (hv : Γ.Placed c (.whole t) v) (hgraph : v.IsGraph) :
    ((encoded Γ c t v).isSome ↔
      (encoded Γ c.untracked t v).isSome ∧ ∀ n ∈ v.nodes, ¬ n.Ambiguous Γ c) ∧
    ∀ bytes, encoded Γ c t v = some bytes →
      ∃ (plain : List UInt8) (d : Document) (framings : Framings),
        encoded Γ c.untracked t v = some plain ∧ d.wire c.byteOrder = bytes ∧
        d.ids = v.sightings [] ∧ d.expand c.byteOrder [] = some (plain, framings) ∧
        framings.map Prod.fst = enterAll [] (v.sightings []) ∧
        ((v.nodes.map Node.id).Nodup → bytes = plain) := by
  obtain ⟨k, hk, hdepicts⟩ := Schema.draws_writePart hv
  have hplain : encoded Γ c.untracked t v = k.plain c := hk.encoded_eq
  obtain ⟨H, hH, hshows, hfounded⟩ := hgraph.exists_shows hdepicts.sound
  rw [hplain]
  rcases Sketches.encoded_cases hdedup hk hshows hfounded with
    ⟨plain, d, framings, hencoded, hsome, hclear, hids, hexpands, hplaces⟩ | ⟨hencoded, hfailed⟩
  · have hends := Sketch.refuses_of_plain hsome
    have hnodes : ∀ n ∈ v.nodes, ¬ n.Ambiguous Γ c := by
      intro n hn
      obtain ⟨o, ho, hshow⟩ := hdepicts.complete hends n hn
      rw [← hH n hn, ← hshow.id]
      exact hclear o ho
    rw [hdepicts.sighted hends] at hids
    rw [hencoded, hsome]
    refine ⟨⟨fun _ => ⟨rfl, hnodes⟩, fun _ => rfl⟩, fun bytes hbytes => ?_⟩
    cases hbytes
    refine ⟨plain, d, framings, rfl, rfl, hids, hexpands, hids ▸ hplaces, fun hnodup => ?_⟩
    have hnodup' : d.ids.Nodup := hids ▸ hnodup.sublist (v.sightings_sublist [])
    exact (Document.expand_of_nodup hexpands hnodup').1
  · rw [hencoded]
    refine ⟨iff_of_false Bool.false_ne_true ?_, by simp⟩
    rintro ⟨hsome, hnodes⟩
    rcases hfailed with hnone | ⟨o, ho, hambiguous⟩
    · rw [hnone] at hsome
      cases hsome
    · obtain ⟨n, hn, hshow⟩ := hdepicts.sound o ho
      rw [hshow.id, hH n hn] at hambiguous
      exact hnodes n hn hambiguous

namespace Sample

theorem placed_links (c : Context) (p : Part) (v : Value) : links.Placed c p v where
  codec q w codec _ hcodec := by
    have hnone : links.partCodec? (q.asked w) = none :=
      Schema.partCodec?_of_derived derived_graphs _
    rw [hnone] at hcodec
    cases hcodec
  bare t name args item index vs _ _ hplan := by
    obtain ⟨fields, hfields, -⟩ := plan_of_links hplan
    cases hfields

/-- A pointer to the last node, and two to the first one, which is linked to the last one. -/
def linkedNodes : Value := .list [.present lastNode, .present firstNode, .present firstNode]

theorem isGraph_linkedNodes : linkedNodes.IsGraph := by
  let last : Node := ⟨1, node, .list [.scalar (.int 2), .absent]⟩
  let first : Node := ⟨0, node, .list [.scalar (.int 1), .present lastNode]⟩
  have hnodes : linkedNodes.nodes = [last, first, last, first, last] := rfl
  have hmem : ∀ n ∈ linkedNodes.nodes, n = last ∨ n = first := by
    rw [hnodes]
    simp
  intro n hn m hm hid
  rcases hmem n hn with rfl | rfl <;> rcases hmem m hm with rfl | rfl
  · rfl
  · cases hid
  · cases hid
  · rfl

end Sample

/-- The last node is in the framing of the first one as a back-reference, and the third pointer is a
back-reference to that framing. -/
theorem transparent_linkedNodes :
    ∃ (d : Document) (framings : Framings),
      encoded Sample.links (Sample.registered true) (.vec (.option (.shared Sample.node)))
        Sample.linkedNodes = some (d.wire .bigEndian) ∧
      d.wire .bigEndian = [0x93, 0x92, 7, 0x92, 2, 0x92, 0, 0xc0, 0x92, 7, 0x92, 1, 0x92, 7, 0,
        0x92, 7, 1] ∧
      d.ids = [1, 0, 1, 0] ∧
      d.expand .bigEndian [] = some ([0x93, 0x92, 7, 0x92, 2, 0x92, 0, 0xc0, 0x92, 7, 0x92, 1,
        0x92, 7, 0x92, 2, 0x92, 0, 0xc0, 0x92, 7, 0x92, 1, 0x92, 7, 0x92, 2, 0x92, 0, 0xc0],
        framings) ∧
      encoded Sample.links (Sample.registered false) (.vec (.option (.shared Sample.node)))
        Sample.linkedNodes = (d.expand .bigEndian []).map Prod.fst := by
  have htracked : encoded Sample.links (Sample.registered true)
      (.vec (.option (.shared Sample.node))) Sample.linkedNodes =
      some [0x93, 0x92, 7, 0x92, 2, 0x92, 0, 0xc0, 0x92, 7, 0x92, 1, 0x92, 7, 0, 0x92, 7, 1] := by
    decide +kernel
  have huntracked : encoded Sample.links (Sample.registered true).untracked
      (.vec (.option (.shared Sample.node))) Sample.linkedNodes =
      some [0x93, 0x92, 7, 0x92, 2, 0x92, 0, 0xc0, 0x92, 7, 0x92, 1, 0x92, 7, 0x92, 2, 0x92, 0,
        0xc0, 0x92, 7, 0x92, 1, 0x92, 7, 0x92, 2, 0x92, 0, 0xc0] := by
    decide +kernel
  obtain ⟨plain, d, framings, hplain, hwire, hids, hexpands, -⟩ :=
    (Schema.Placed.transparent rfl (Sample.placed_links (Sample.registered true) _ _)
      Sample.isGraph_linkedNodes).2 _ htracked
  rw [huntracked] at hplain
  obtain rfl := Option.some.inj hplain
  refine ⟨d, framings, ?_, hwire, hids, hexpands, ?_⟩
  · rw [htracked]
    exact congrArg some hwire.symm
  · exact huntracked.trans (congrArg (Option.map Prod.fst) hexpands.symm)

end ObjectStream
