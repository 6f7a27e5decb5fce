import ObjectStream.Proofs.Layout
import ObjectStream.Proofs.Still
import ObjectStream.Sample
import ObjectStream.Writer.Operation

/-!
# Writers composed of forms and pointers

Every writer of the library is put together from a few pieces: it appends forms,
it frames pointers, it looks at the context or the position, and it fails.
Nothing that was written is taken back, and no failure is caught. `Composed`
says so of a writer, and the writing of values is composed if the writers that
come with types and fields are. What a property of all writing needs is then one
lemma for each piece, as `Pieces` lists them; for what merely has to be kept from
one state of the stream to the next, `Kept` asks for less. The writers that come
with types and fields need not be composed for it: they only have to have the
property.
-/

namespace ObjectStream

namespace Writer

/-- The writer of one header or one scalar: it writes a form or refuses to. -/
inductive Atomic : Writer Unit → Prop
  | spell (f : Form) : Atomic (Writer.spell f)
  | throw (e : StreamError) : Atomic (MonadExcept.throw e)
  /-- A piece that is too long for its form is refused, for its length or for want of room. -/
  | oversized (n : Nat) (e : StreamError) : Atomic (do ensureRoom n; MonadExcept.throw e)

namespace Atomic

theorem ite {P : Prop} [Decidable P] {x y : Writer Unit} (hx : Atomic x) (hy : Atomic y) :
    Atomic (if P then x else y) := by
  split
  · exact hx
  · exact hy

theorem arrayHeader (count : Nat) : Atomic (Writer.arrayHeader count) := by
  rw [arrayHeader_eq]
  exact ite (spell _) (throw _)

theorem mapHeader (count : Nat) : Atomic (Writer.mapHeader count) := by
  rw [mapHeader_eq]
  exact ite (spell _) (throw _)

theorem blobHeader (length : Nat) : Atomic (Writer.blobHeader length) := by
  rw [blobHeader_eq]
  exact ite (spell _) (throw _)

theorem blob (bytes : ByteArray) : Atomic (Writer.blob bytes) := by
  rw [blob_eq]
  exact ite (spell _) (oversized _ _)

theorem str (text : String) : Atomic (Writer.str text) := by
  rw [str_eq]
  exact ite (spell _) (oversized _ _)

theorem extHeader (subtype : Int) (length : Nat) : Atomic (Writer.extHeader subtype length) := by
  rw [extHeader_eq]
  exact ite (spell _) (throw _)

theorem ext (subtype : Int) (payload : ByteArray) : Atomic (Writer.ext subtype payload) := by
  rw [ext_eq]
  exact ite (spell _) (throw _)

theorem uint (value : Nat) : Atomic (Writer.uint value) := by
  rw [uint_eq]
  exact spell _

theorem int (value : Int) : Atomic (Writer.int value) := by
  rw [int_eq]
  exact spell _

theorem f32 (bits : UInt32) : Atomic (Writer.f32 bits) := by
  rw [f32_eq]
  exact spell _

theorem f64 (bits : UInt64) : Atomic (Writer.f64 bits) := by
  rw [f64_eq]
  exact spell _

theorem nil : Atomic Writer.nil := spell .nil

theorem bool (b : Bool) : Atomic (Writer.bool b) := spell (.bool b)

theorem raw (bytes : ByteArray) : Atomic (Writer.raw bytes) := spell (.plain (unpacked bytes))

theorem number (kind : NumberKind) (value : Int) : Atomic (Writer.number kind value) :=
  spell (.number kind value)

theorem nullPointer : Atomic Writer.nullPointer := by
  rw [nullPointer_eq]
  exact spell _

theorem instant (s : Scalar) (nanos : Int) : Atomic (Writer.instant s nanos) :=
  ite (int nanos) (throw _)

theorem scalar (s : Scalar) (d : Datum) : Atomic (Writer.scalar s d) := by
  refine ite ?_ (throw _)
  split
  · exact bool _
  · exact uint _
  · exact uint _
  · exact uint _
  · exact int _
  · exact f32 _
  · exact f64 _
  · exact str _
  · exact str _
  · exact str _
  · exact blob _
  · exact blob _
  · exact ite (uint _) (throw _)
  · rw [Writer.clock_ofNanos]
    exact instant _ _
  · exact instant _ _
  · exact ext _ _
  · exact throw _

theorem absent (t : Ty) : Atomic (encodeAbsent t) := ite nullPointer nil

end Atomic

/-- The writer is put together from pieces that append. -/
inductive Composed : {α : Type} → Writer α → Prop
  | pure {α : Type} (a : α) : Composed (Pure.pure a)
  | throw {α : Type} (e : StreamError) : Composed (MonadExcept.throw e : Writer α)
  | bind {α β : Type} {x : Writer α} {f : α → Writer β} :
      Composed x → (∀ a, Composed (f a)) → Composed (x >>= f)
  | context : Composed Writer.context
  | position : Composed Writer.position
  | spell (f : Form) : Composed (Writer.spell f)
  /-- A piece that is too long for its form is refused, for its length or for want of room. -/
  | oversized (n : Nat) (e : StreamError) :
      Composed (do ensureRoom n; MonadExcept.throw e : Writer Unit)
  | shared (id : Identity) (type : Ty) {body : Writer Unit} :
      Composed body → Composed (Writer.shared id type body)

namespace Composed

theorem atomic {x : Writer Unit} (hx : Atomic x) : Composed x := by
  cases hx with
  | spell f => exact spell f
  | throw e => exact throw e
  | oversized n e => exact oversized n e

theorem errorCode (code : ErrorCode) : Composed (Writer.errorCode code) := by
  refine context.bind fun c => ?_
  split
  · exact throw _
  · exact (atomic (.arrayHeader 2)).bind fun _ => (atomic (.uint _)).bind fun _ => atomic (.int _)

theorem requireTag_eq (type : Ty) :
    requireTag type = (do
      match (← Writer.context).registry.requireTag type with
      | .ok tag => Pure.pure tag
      | .error e => MonadExcept.throw e) := by
  funext s
  simp only [requireTag, Bind.bind, EStateM.bind, Writer.context]
  cases s.context.registry.requireTag type <;> rfl

end Composed

/-! ## Properties of all composed writers -/

/-- A property of writers that passes from the parts of composed writers to the whole. -/
structure Closed (M : {α : Type} → Writer α → Prop) : Prop where
  pure : ∀ {α : Type} (a : α), M (Pure.pure a : Writer α)
  throw : ∀ {α : Type} (e : StreamError), M (MonadExcept.throw e : Writer α)
  bind : ∀ {α β : Type} {x : Writer α} {f : α → Writer β}, M x → (∀ a, M (f a)) → M (x >>= f)
  context : M Writer.context
  position : M Writer.position
  spell : ∀ f : Form, M (Writer.spell f)
  oversized : ∀ (n : Nat) (e : StreamError), M (do ensureRoom n; MonadExcept.throw e : Writer Unit)
  shared : ∀ (id : Identity) (type : Ty) {body : Writer Unit}, M body →
    M (Writer.shared id type body)

theorem Composed.closed : Closed Composed where
  pure := .pure
  throw := .throw
  bind := .bind
  context := .context
  position := .position
  spell := .spell
  oversized := .oversized
  shared := .shared

namespace Closed

variable {M : {α : Type} → Writer α → Prop}

theorem of_composed (hM : Closed M) {α : Type} {x : Writer α} (hx : x.Composed) : M x := by
  induction hx with
  | pure a => exact hM.pure a
  | throw e => exact hM.throw e
  | bind _ _ ihx ihf => exact hM.bind ihx ihf
  | context => exact hM.context
  | position => exact hM.position
  | spell f => exact hM.spell f
  | oversized n e => exact hM.oversized n e
  | shared id type _ ih => exact hM.shared id type ih

theorem atomic (hM : Closed M) {x : Writer Unit} (hx : Atomic x) : M x :=
  hM.of_composed (.atomic hx)

theorem ite (_ : Closed M) {α : Type} {P : Prop} [Decidable P] {x y : Writer α} (hx : M x)
    (hy : M y) : M (if P then x else y) := by
  split
  · exact hx
  · exact hy

theorem unique (hM : Closed M) (type : Ty) {body : Writer Unit} (hbody : M body) :
    M (Writer.unique type body) := by
  rw [Writer.unique, Composed.requireTag_eq]
  refine hM.bind (hM.bind hM.context fun c => ?_) fun tag =>
    hM.bind (hM.atomic (.arrayHeader 2)) fun _ => hM.bind (hM.atomic (.uint tag)) fun _ => hbody
  split
  · exact hM.pure _
  · exact hM.throw _

end Closed

/-- A property of writers that every piece has, and that passes from parts to the whole. -/
structure Pieces (M : {α : Type} → Writer α → Prop) : Prop where
  pure : ∀ {α : Type} (a : α), M (Pure.pure a : Writer α)
  throw : ∀ {α : Type} (e : StreamError), M (MonadExcept.throw e : Writer α)
  bind : ∀ {α β : Type} {x : Writer α} {f : α → Writer β}, M x → (∀ a, M (f a)) → M (x >>= f)
  context : M Writer.context
  position : M Writer.position
  spell : ∀ f : Form, M (Writer.spell f)
  oversized : ∀ (n : Nat) (e : StreamError), M (do ensureRoom n; MonadExcept.throw e : Writer Unit)
  checkBody : ∀ (type : Ty) (start : Nat), M (Writer.checkBody type start)
  shared : ∀ (id : Identity) (type : Ty) {body : Writer Unit}, M body →
    (∀ tag, M (taggedBody tag body)) → (∀ tag serial, M (reference tag serial)) →
    (∀ tag, M (firstBody type tag body)) → M (Writer.shared id type body)

theorem Pieces.closed {M : {α : Type} → Writer α → Prop} (hM : Pieces M) : Closed M where
  pure := hM.pure
  throw := hM.throw
  bind := hM.bind
  context := hM.context
  position := hM.position
  spell := hM.spell
  oversized := hM.oversized
  shared id type body hbody := by
    apply hM.shared id type hbody
    · intro tag
      rw [taggedBody_eq]
      exact hM.bind (hM.spell _) fun _ => hM.bind (hM.spell _) fun _ => hbody
    · intro tag serial
      exact hM.bind (hM.spell _) fun _ => hM.bind (hM.spell _) fun _ => hM.spell _
    · intro tag
      exact hM.bind (hM.spell _) fun _ => hM.bind (hM.spell _) fun _ =>
        hM.bind hM.position fun start => hM.bind hbody fun _ => hM.checkBody type start

theorem Composed.of_pieces {M : {α : Type} → Writer α → Prop} (hM : Pieces M) {α : Type}
    {x : Writer α} (hx : x.Composed) : M x := hM.closed.of_composed hx

/-- A property of streams that is kept if bytes are appended that there is room for, if an event is
noted, and if a new object is entered. -/
structure Kept (P : OutStream → Prop) : Prop where
  append : ∀ (s : OutStream) (bytes : List UInt8), s.sink.refusal? (packed bytes).size = none →
    P s → P (s.append bytes)
  noted : ∀ (s : OutStream) (event : Event), P s → P (s.noted event)
  enter : ∀ (s : OutStream) (table : WrittenTable) (id : Identity) (tag : TypeTag),
    s.shared = some table → table.find? id = none → P s → P (s.enter table id tag)

/-- What is kept at every step is kept by all pieces. -/
theorem Kept.pieces {P : OutStream → Prop} (hP : Kept P) :
    Pieces fun x => ∀ s, P s → P (stateAfter x s) := by
  constructor
  case pure | throw => exact fun _ _ hs => hs
  case context | position => exact fun _ hs => hs
  case bind =>
    intro α β x f hx hf s hs
    rcases stateAfter_bind_cases x f s with hend | ⟨a, hend⟩
    · rw [hend]
      exact hx s hs
    · rw [hend]
      exact hf a _ (hx s hs)
  case spell =>
    intro f s hs
    simp only [stateAfter, Writer.spell, Writer.raw]
    cases hroom : s.sink.refusal? (packed (f s.context.byteOrder)).size with
    | some e => exact hs
    | none => exact hP.append s _ hroom hs
  case oversized =>
    intro n e s hs
    simp only [stateAfter, Bind.bind, EStateM.bind, ensureRoom]
    cases s.sink.refusal? n with
    | some e => exact hs
    | none => exact hs
  case checkBody =>
    intro type start s hs
    rw [stateAfter]
    rcases checkBody_cases type start s with h | ⟨e, h⟩
    · rw [h]
      exact hs
    · rw [h]
      exact hs
  case shared =>
    intro id type body _ hpair hreference hfirst s hs
    rcases shared_cases id type body s with
      ⟨e, h⟩ | ⟨tag, -, h⟩ | ⟨tag, serial, h⟩ | ⟨table, tag, hshared, hnew, h⟩
    · rw [stateAfter, h]
      exact hs
    · rw [stateAfter, h]
      exact hpair tag s hs
    · rw [stateAfter, h]
      exact hreference tag serial _ (hP.noted s _ hs)
    · rw [stateAfter, h]
      exact hfirst tag _ (hP.enter s table id tag hshared hnew hs)

/-- What is kept at every step holds after a writer, whether it succeeds or fails. -/
theorem Composed.kept {P : OutStream → Prop} (hP : Kept P) {α : Type} {x : Writer α}
    (hx : x.Composed) (s : OutStream) (hs : P s) : P (stateAfter x s) :=
  of_pieces hP.pieces hx s hs

end Writer

namespace Schema

variable {Γ : Schema}

/-- The writers that come with types and fields are composed. -/
structure Composed (Γ : Schema) : Prop where
  types : ∀ t codec, Γ.codec? t = some codec → ∀ v, (codec.write v).Composed
  rules : ∀ path codec, Γ.rule? path = some codec → ∀ v, (codec.write v).Composed

theorem Composed.part (hΓ : Γ.Composed) {p : Part} {codec : Codec}
    (h : Γ.partCodec? p = some codec) (v : Value) : (codec.write v).Composed := by
  cases p with
  | whole t => exact hΓ.types _ codec h v
  | fields t => cases h
  | rule path t => exact hΓ.rules path codec h v

theorem lookup_of_derived (h : ∀ q ∈ Γ.types, ∃ item, q.2 = .derived item) (name : String)
    (codec : Codec) (hooks : OptionHooks) :
    Γ.types.lookup name ≠ some (.custom codec hooks) := by
  intro hcodec
  obtain ⟨before, after, hsplit, -⟩ := List.lookup_eq_some_iff.1 hcodec
  obtain ⟨item, hitem⟩ := h (name, .custom codec hooks) (by rw [hsplit]; simp)
  cases hitem

/-- Derived types come with nothing, nor do options of them. -/
theorem codec?_of_derived (h : ∀ q ∈ Γ.types, ∃ item, q.2 = .derived item) (t : Ty) :
    Γ.codec? t = none := by
  refine Option.eq_none_iff_forall_ne_some.2 fun codec hcodec => ?_
  rcases codec?_cases hcodec with ⟨_, _, _, -, hlookup⟩ | ⟨_, _, _, _, -, hlookup, -⟩
  · exact lookup_of_derived h _ _ _ hlookup
  · exact lookup_of_derived h _ _ _ hlookup

/-- With one rule alone, that rule is the only one to be found. -/
theorem eq_of_rule? {path only : String} {codec known : Codec} (hrules : Γ.rules = [(only, known)])
    (h : Γ.rule? path = some codec) : codec = known := by
  rw [rule?, hrules, List.lookup_cons, List.lookup_nil] at h
  split at h
  · exact (Option.some.inj h).symm
  · cases h

/-- Where all types are derived and there is one rule alone, nothing comes with a part but the
rule. -/
theorem eq_of_partCodec? (h : ∀ q ∈ Γ.types, ∃ item, q.2 = .derived item) {only : String}
    {codec known : Codec} (hrules : Γ.rules = [(only, known)]) {p : Part}
    (hcodec : Γ.partCodec? p = some codec) : codec = known := by
  cases p with
  | whole t =>
      rw [partCodec?, codec?_of_derived h] at hcodec
      cases hcodec
  | fields t => cases hcodec
  | rule path t => exact eq_of_rule? hrules hcodec

theorem partCodec?_of_derived {types : List (String × Declaration)}
    {order : Ty → KeyOrder}
    (h : ∀ q ∈ types, ∃ item, q.2 = .derived item) (p : Part) :
    Schema.partCodec? ⟨types, [], order⟩ p = none := by
  cases p with
  | whole t => exact codec?_of_derived h _
  | fields t | rule path t => rfl

theorem Composed.of_derived {types : List (String × Declaration)}
    {order : Ty → KeyOrder}
    (h : ∀ q ∈ types, ∃ item, q.2 = .derived item) : Schema.Composed ⟨types, [], order⟩ where
  types := by
    intro t codec hcodec
    rw [codec?_of_derived h t] at hcodec
    cases hcodec
  rules := nofun

section WritePart

variable {M : {α : Type} → Writer α → Prop}

theorem closed_writeParts (hM : Writer.Closed M) {vs : List Value}
    (h : ∀ v ∈ vs, ∀ p, M (Γ.writePart p v)) (ps : List Part) : M (Γ.writeParts ps vs) := by
  induction vs generalizing ps with
  | nil =>
      cases ps with
      | nil => exact hM.pure ()
      | cons p ps => exact hM.throw _
  | cons v vs ih =>
      rw [List.forall_mem_cons] at h
      cases ps with
      | nil => exact hM.throw _
      | cons p ps => exact hM.bind (h.1 p) fun _ => ih h.2 ps

theorem closed_writeEntries (hM : Writer.Closed M) {vs : List Value}
    (h : ∀ v ∈ vs, ∀ p, M (Γ.writePart p v)) (ps : List (String × Part)) :
    M (Γ.writeEntries ps vs) := by
  induction vs generalizing ps with
  | nil =>
      cases ps with
      | nil => exact hM.pure ()
      | cons p ps => exact hM.throw _
  | cons v vs ih =>
      rw [List.forall_mem_cons] at h
      cases ps with
      | nil => exact hM.throw _
      | cons p ps =>
          exact hM.bind (hM.atomic (.str p.1)) fun _ => hM.bind (h.1 p.2) fun _ => ih h.2 ps

/-- What the writers have that come with types and fields, all writing has, whether the value is one
of the type or not. -/
theorem closed_writePart (hM : Writer.Closed M)
    (hΓ : ∀ p codec, Γ.partCodec? p = some codec → ∀ v, M (codec.write v)) (p : Part) (v : Value) :
    M (Γ.writePart p v) := by
  have hlayout := Γ.layout p v
  generalize Γ.writePart p v = x at hlayout
  cases hlayout with
  | refused _ _ e => exact hM.throw e
  | codec _ hcodec => exact hΓ _ _ hcodec v
  | scalar d _ => exact hM.atomic (.scalar _ d)
  | errorCode code _ => exact hM.of_composed (.errorCode code)
  | @array t n ps vs _ =>
      refine hM.bind (hM.atomic (.arrayHeader n)) fun _ =>
        closed_writeParts hM (fun w hw p => ?_) ps
      have hsize := List.sizeOf_lt_of_mem hw
      exact closed_writePart hM hΓ p w
  | map vs _ _ =>
      refine hM.bind (hM.atomic (.mapHeader _)) fun _ =>
        closed_writeEntries hM (fun w hw p => ?_) _
      have hsize := List.sizeOf_lt_of_mem hw
      exact closed_writePart hM hΓ p w
  | fields vs _ =>
      refine closed_writeParts hM (fun w hw p => ?_) _
      have hsize := List.sizeOf_lt_of_mem hw
      exact closed_writePart hM hΓ p w
  | absent _ => exact hM.atomic (.absent _)
  | @present t inner w _ =>
      have hw := closed_writePart hM hΓ (.whole inner) w
      exact hM.ite (hM.bind (hM.atomic (.arrayHeader 1)) fun _ => hw) hw
  | discriminant _ _ d _ _ => exact hM.atomic (.int _)
  | variant vs _ _ _ =>
      refine hM.bind (hM.atomic (.arrayHeader _)) fun _ => hM.bind (hM.atomic (.uint _)) fun _ =>
        closed_writeParts hM (fun w hw p => ?_) _
      have hsize := List.sizeOf_lt_of_mem hw
      exact closed_writePart hM hΓ p w
  | shared id body _ _ => exact hM.shared id _ (closed_writePart hM hΓ _ body)
  | unique body _ _ => exact hM.unique _ (closed_writePart hM hΓ _ body)
termination_by sizeOf v

/-- All writing is composed, whether the value is one of the type or not. -/
theorem composed_writePart (hΓ : Γ.Composed) (p : Part) (v : Value) :
    (Γ.writePart p v).Composed :=
  closed_writePart Writer.Composed.closed (fun _ _ => hΓ.part) p v

end WritePart

end Schema

namespace WriteOp

/-- Whether an operation only ever appends. The others go back or start afresh. -/
def appends : WriteOp → Bool
  | .backTo _ | .clear | .handOver => false
  | _ => true

theorem after_eq (Γ : Schema) (op : WriteOp) (s : OutStream) :
    op.after Γ s = stateAfter (op.run Γ) s := by
  rw [after, stateAfter]
  cases op.run Γ s <;> rfl

/-- What an operation does: it writes a header or a scalar in one piece, a value or the fields of
one, or it goes back. -/
inductive Does (Γ : Schema) (op : WriteOp) : Prop
  | atomic {x : Writer Unit} (hx : x.Atomic) (hrun : op.run Γ = (do x; pure WriteAnswer.done))
  | value (t : Ty) (v : Value) (hop : op = .value t v)
  | fields (t : Ty) (v : Value) (hop : op = .fields t v)
  | back (hop : op.appends = false)

theorem does (Γ : Schema) (op : WriteOp) : op.Does Γ := by
  cases op with
  | number kind n => exact .atomic (.number kind n) rfl
  | raw b => exact .atomic (.raw b) rfl
  | mapHeader n => exact .atomic (.mapHeader n) rfl
  | arrayHeader n => exact .atomic (.arrayHeader n) rfl
  | objectHeader n => exact .atomic (.arrayHeader n) rfl
  | blobHeader n => exact .atomic (.blobHeader n) rfl
  | blob b => exact .atomic (.blob b) rfl
  | str text => exact .atomic (.str text) rfl
  | extHeader subtype n => exact .atomic (.extHeader subtype n) rfl
  | ext subtype b => exact .atomic (.ext subtype b) rfl
  | nil => exact .atomic .nil rfl
  | nullPointer => exact .atomic .nullPointer rfl
  | bool b => exact .atomic (.bool b) rfl
  | uint n => exact .atomic (.uint n) rfl
  | int n => exact .atomic (.int n) rfl
  | f32 bits => exact .atomic (.f32 bits) rfl
  | f64 bits => exact .atomic (.f64 bits) rfl
  | value t v => exact .value t v rfl
  | fields t v => exact .fields t v rfl
  | backTo pos | clear | handOver => exact .back rfl

/-- What the writers have that come with types and fields, all operations have that append. -/
theorem closed_run {Γ : Schema} {M : {α : Type} → Writer α → Prop} (hM : Writer.Closed M)
    (hΓ : ∀ p codec, Γ.partCodec? p = some codec → ∀ v, M (codec.write v)) {op : WriteOp}
    (h : op.appends = true) : M (op.run Γ) := by
  rcases op.does Γ with ⟨hx, hrun⟩ | ⟨t, v, rfl⟩ | ⟨t, v, rfl⟩ | hback
  · rw [hrun]
    exact hM.bind (hM.atomic hx) fun _ => hM.pure _
  · exact hM.bind (Schema.closed_writePart hM hΓ (.whole t) v) fun _ => hM.pure _
  · exact hM.bind (Schema.closed_writePart hM hΓ (.fields t) v) fun _ => hM.pure _
  · rw [hback] at h
    cases h

theorem composed_run {Γ : Schema} (hΓ : Γ.Composed) {op : WriteOp} (h : op.appends = true) :
    (op.run Γ).Composed :=
  closed_run Writer.Composed.closed (fun _ _ => hΓ.part) h

end WriteOp

/-! ## Linked nodes -/

namespace Sample

def links : Schema where
  types := graphs
  rules := []

def node : Ty := type "Node"

def tracked : Context :=
  { Context.standard with
    dedup := true
    registry := Registry.empty.enter node 7 }

def lastNode : Value := .shared 1 node (.list [.scalar (.int 2), .absent])

def firstNode : Value := .shared 0 node (.list [.scalar (.int 1), .present lastNode])

theorem derived_graphs : ∀ q ∈ graphs, ∃ item, q.2 = .derived item := by
  intro q hq
  simp only [graphs, List.mem_cons, List.not_mem_nil, or_false] at hq
  rcases hq with rfl | rfl | rfl | rfl <;> exact ⟨_, rfl⟩

theorem composed_links : links.Composed := .of_derived derived_graphs

end Sample

end ObjectStream
