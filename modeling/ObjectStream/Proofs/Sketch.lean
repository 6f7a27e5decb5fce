import ObjectStream.Proofs.Composed
import ObjectStream.Proofs.Gathering

/-!
# Sketches of what is written

What a writer of values is going to do can be told before it runs: which forms
it writes, where it refuses, and which pointers to shared objects it writes in
between. It goes by all that the context of the stream says, except for whether
the stream tracks objects. So two streams that differ in this alone carry out
one sketch, and what one of them writes can be told from the other.
-/

namespace ObjectStream

/-- What a writer is going to do. Behind a pointer to a shared object stands its body. -/
inductive Sketch
  | done
  | refused (e : StreamError)
  /-- A piece is refused for its length, or for want of room. -/
  | oversized (n : Nat) (e : StreamError)
  | form (f : Form) (rest : Sketch)
  | object (id : Identity) (type : Ty) (body rest : Sketch)

def Context.untracked (c : Context) : Context := { c with dedup := false }

namespace Context

variable {c c' : Context}

theorem registry_of_untracked (h : c'.untracked = c.untracked) : c'.registry = c.registry :=
  congrArg (fun d => d.registry) h

theorem categories_of_untracked (h : c'.untracked = c.untracked) :
    c'.categories = c.categories := congrArg (fun d => d.categories) h

theorem byteOrder_of_untracked (h : c'.untracked = c.untracked) : c'.byteOrder = c.byteOrder :=
  congrArg (fun d => d.byteOrder) h

end Context

namespace Sketch

def run : Sketch → Writer Unit
  | done => pure ()
  | refused e => throw e
  | oversized n e => do
      Writer.ensureRoom n
      throw e
  | form f rest => do
      Writer.spell f
      run rest
  | object id type body rest => do
      Writer.shared id type (run body)
      run rest

def andThen : Sketch → Sketch → Sketch
  | done, k => k
  | refused e, _ => refused e
  | oversized n e, _ => oversized n e
  | form f rest, k => form f (andThen rest k)
  | object id type body rest, k => object id type body (andThen rest k)

/-- Whether the sketch is given up before its end, here or in a body. -/
def refuses : Sketch → Bool
  | done => false
  | refused _ | oversized _ _ => true
  | form _ rest => refuses rest
  | object _ _ body rest => refuses body || refuses rest

/-- The pointers to shared objects, those in bodies included, with their bodies. -/
def objects : Sketch → List (Identity × Ty × Sketch)
  | form _ rest => objects rest
  | object id type body rest => (id, type, body) :: (objects body ++ objects rest)
  | _ => []

/-- The pointers in the order in which they are written, given the objects that were seen before. -/
def sightings (seen : List Identity) : Sketch → List Identity
  | form _ rest => sightings seen rest
  | object id _ body rest =>
      let ids := if id ∈ seen then [id] else id :: sightings (seen ++ [id]) body
      ids ++ sightings (enterAll seen ids) rest
  | _ => []

variable {k k' : Sketch}

theorem composed_run (k : Sketch) : k.run.Composed := by
  induction k with
  | done => exact .pure ()
  | refused e => exact .throw e
  | oversized n e => exact .oversized n e
  | form f rest ih => exact (Writer.Composed.spell f).bind fun _ => ih
  | object id type body rest ihbody ihrest => exact (ihbody.shared id type).bind fun _ => ihrest

theorem context_run {s s' : OutStream} (h : k.run s = .ok () s') : s'.context = s.context := by
  have hkept := k.composed_run.kept (P := fun t => t.context = s.context)
    ⟨fun _ _ _ => id, fun _ _ => id, fun _ _ _ _ _ _ => id⟩ s rfl
  rwa [stateAfter_of_ok h] at hkept

theorem run_andThen (k k' : Sketch) : (k.andThen k').run = (do k.run; k'.run) := by
  induction k with
  | done => rfl
  | refused e => rfl
  | oversized n e =>
      rw [andThen, run, bind_assoc]
      rfl
  | form f rest ih => rw [andThen, run, run, ih, bind_assoc]
  | object id type body rest _ ih => rw [andThen, run, run, ih, bind_assoc]

theorem refuses_andThen (h : (k.andThen k').refuses = false) :
    k.refuses = false ∧ k'.refuses = false := by
  induction k with
  | done => exact ⟨rfl, h⟩
  | refused e | oversized n e => cases h
  | form f rest ih => exact ih h
  | object id type body rest _ ih =>
      obtain ⟨hbody, hrest⟩ := Bool.or_eq_false_iff.1 h
      obtain ⟨hk, hk'⟩ := ih hrest
      exact ⟨Bool.or_eq_false_iff.2 ⟨hbody, hk⟩, hk'⟩

theorem mem_objects_andThen {o : Identity × Ty × Sketch} (h : o ∈ (k.andThen k').objects) :
    o ∈ k.objects ∨ o ∈ k'.objects := by
  induction k with
  | done => exact .inr h
  | refused e | oversized n e => cases h
  | form f rest ih => exact ih h
  | object id type body rest _ ih =>
      rw [objects, List.mem_cons, List.mem_append]
      rcases List.mem_cons.1 h with rfl | h
      · exact .inl (.inl rfl)
      · rcases List.mem_append.1 h with h | h
        · exact .inl (.inr (.inl h))
        · exact (ih h).imp_left fun hk => .inr (.inr hk)

theorem objects_andThen (h : k.refuses = false) :
    (k.andThen k').objects = k.objects ++ k'.objects := by
  induction k with
  | done => rfl
  | refused e | oversized n e => cases h
  | form f rest ih => exact ih h
  | object id type body rest _ ih =>
      rw [andThen, objects, objects, ih (Bool.or_eq_false_iff.1 h).2, List.cons_append,
        List.append_assoc]

theorem sightings_andThen (h : k.refuses = false) (seen : List Identity) :
    (k.andThen k').sightings seen =
      k.sightings seen ++ k'.sightings (enterAll seen (k.sightings seen)) := by
  induction k generalizing seen with
  | done => rfl
  | refused e | oversized n e => cases h
  | form f rest ih => exact ih h seen
  | object id type body rest _ ih =>
      simp only [andThen, sightings, ih (Bool.or_eq_false_iff.1 h).2, enterAll_append,
        List.append_assoc]

theorem sightings_of_objects (h : k.objects = []) (seen : List Identity) :
    k.sightings seen = [] := by
  induction k with
  | done | refused e | oversized n e => rfl
  | form f rest ih => exact ih h
  | object id type body rest => cases h

end Sketch

/-! ## Writers with sketches -/

section Sketches

variable {c : Context} {x y : Writer Unit} {k k' : Sketch}

/-- The writer does what is in the sketch wherever the context says what `c` says. -/
def Sketches (c : Context) (x : Writer Unit) (k : Sketch) : Prop :=
  ∀ s, s.context.untracked = c.untracked → x s = k.run s

namespace Sketches

theorem run (k : Sketch) : Sketches c k.run k := fun _ _ => rfl

theorem throw (e : StreamError) : Sketches c (MonadExcept.throw e) (.refused e) := fun _ _ => rfl

theorem seq (hx : Sketches c x k) (hy : Sketches c y k') :
    Sketches c (do x; y) (k.andThen k') := by
  intro s hs
  simp only [Sketch.run_andThen, bind, EStateM.bind, hx s hs]
  cases hres : k.run s with
  | error e s' => rfl
  | ok a s' =>
      refine hy s' ?_
      rw [Sketch.context_run hres, hs]

/-- The sketch of a header or a scalar has no pointers to shared objects. -/
theorem atomic (hx : Writer.Atomic x) : ∃ k, Sketches c x k ∧ k.objects = [] := by
  cases hx with
  | spell f =>
      refine ⟨.form f .done, fun s _ => ?_, rfl⟩
      rw [Sketch.run, Sketch.run, bind_pure_unit]
  | throw e => exact ⟨.refused e, throw e, rfl⟩
  | oversized n e => exact ⟨.oversized n e, fun _ _ => rfl, rfl⟩

/-- Forms in front make no difference. -/
theorem behind (f : Form) (h : ∀ s, s.context.untracked = c.untracked → x s = y s) (s : OutStream)
    (hs : s.context.untracked = c.untracked) :
    (do Writer.spell f; x : Writer Unit) s = (do Writer.spell f; y : Writer Unit) s := by
  simp only [bind, EStateM.bind]
  cases hres : Writer.spell f s with
  | error e s' => rfl
  | ok a s' =>
      obtain rfl := Writer.spell_ok hres
      exact h _ hs

theorem shared (id : Identity) (type : Ty) (hx : Sketches c x k) :
    Sketches c (Writer.shared id type x) (.object id type k .done) := by
  intro s hs
  rw [Sketch.run, Sketch.run, bind_pure_unit, Writer.shared_run, Writer.shared_run]
  cases s.context.registry.requireTag type with
  | error e => rfl
  | ok tag =>
      cases hshared : s.shared with
      | none =>
          dsimp only
          rw [Writer.taggedBody_eq, Writer.taggedBody_eq]
          exact behind _ (behind _ hx) s hs
      | some table =>
          dsimp only
          cases table.find? id with
          | some found => rfl
          | none =>
              refine behind _ (behind _ fun s hs => ?_) (s.enter table id tag) hs
              simp only [bind, EStateM.bind, Writer.position, hx s hs]

end Sketches

end Sketches

/-! ## Values in sketches -/

namespace Value

mutual

/-- Where there are no pointers none is sighted. -/
theorem sightings_of_nodes (v : Value) (h : v.nodes = []) (seen : List Identity) :
    v.sightings seen = [] := by
  cases v with
  | list vs => exact sightingsIn_of_nodes vs h seen
  | present v => exact sightings_of_nodes v h seen
  | variant index vs => exact sightingsIn_of_nodes vs h seen
  | shared id type body => cases h
  | unique type body => exact sightings_of_nodes body h seen
  | scalar | errorCode | absent => rfl

theorem sightingsIn_of_nodes (vs : List Value) (h : nodesIn vs = []) (seen : List Identity) :
    sightingsIn seen vs = [] := by
  cases vs with
  | nil => rfl
  | cons v vs =>
      obtain ⟨hv, hvs⟩ := List.append_eq_nil_iff.1 h
      rw [sightingsIn, sightings_of_nodes v hv, sightingsIn_of_nodes vs hvs]
      rfl

end

end Value

/-- The object in a sketch is that of a node: its body is written as the node's body is, and has
pointers to no other objects. -/
structure Shows (Γ : Schema) (c : Context) (o : Identity × Ty × Sketch) (n : Node) : Prop where
  id : o.1 = n.id
  type : o.2.1 = n.type
  body : Sketches c (Γ.writePart (.whole n.type) n.body) o.2.2
  within : ∀ o' ∈ o.2.2.objects, ∃ m ∈ n.body.nodes, o'.1 = m.id
  whole : o.2.2.refuses = false → ∀ m ∈ n.body.nodes, ∃ o' ∈ o.2.2.objects, o'.1 = m.id

/-- A sketch of some nodes: it shows nothing else, and if it is not given up it shows all of them,
sighted in their order. -/
structure Depicts (Γ : Schema) (c : Context) (k : Sketch) (ns : List Node)
    (sight : List Identity → List Identity) : Prop where
  sound : ∀ o ∈ k.objects, ∃ n ∈ ns, Shows Γ c o n
  complete : k.refuses = false → ∀ n ∈ ns, ∃ o ∈ k.objects, Shows Γ c o n
  sighted : k.refuses = false → ∀ seen, k.sightings seen = sight seen

def Schema.Draws (Γ : Schema) (c : Context) (x : Writer Unit) (ns : List Node)
    (sight : List Identity → List Identity) : Prop :=
  ∃ k, Sketches c x k ∧ Depicts Γ c k ns sight

variable {Γ : Schema} {c : Context} {x y : Writer Unit} {ns ns' : List Node}
  {sight sight' : List Identity → List Identity}

namespace Depicts

variable {k k' : Sketch} {n : Node}

theorem of_objects (h : k.objects = []) : Depicts Γ c k [] fun _ => [] where
  sound o ho := by
    rw [h] at ho
    cases ho
  complete _ n hn := by cases hn
  sighted _ := k.sightings_of_objects h

theorem refused (e : StreamError) : Depicts Γ c (.refused e) ns sight := ⟨nofun, nofun, nofun⟩

theorem andThen (h : Depicts Γ c k ns sight) (h' : Depicts Γ c k' ns' sight') :
    Depicts Γ c (k.andThen k') (ns ++ ns') (sightBoth sight sight') where
  sound o ho := by
    rcases Sketch.mem_objects_andThen ho with ho | ho
    · obtain ⟨n, hn, hshows⟩ := h.sound o ho
      exact ⟨n, List.mem_append_left _ hn, hshows⟩
    · obtain ⟨n, hn, hshows⟩ := h'.sound o ho
      exact ⟨n, List.mem_append_right _ hn, hshows⟩
  complete hends n hn := by
    obtain ⟨hk, hk'⟩ := Sketch.refuses_andThen hends
    rw [Sketch.objects_andThen hk]
    rcases List.mem_append.1 hn with hn | hn
    · obtain ⟨o, ho, hshows⟩ := h.complete hk n hn
      exact ⟨o, List.mem_append_left _ ho, hshows⟩
    · obtain ⟨o, ho, hshows⟩ := h'.complete hk' n hn
      exact ⟨o, List.mem_append_right _ ho, hshows⟩
  sighted hends seen := by
    obtain ⟨hk, hk'⟩ := Sketch.refuses_andThen hends
    rw [Sketch.sightings_andThen hk, h.sighted hk, h'.sighted hk']
    rfl

theorem shows (h : Depicts Γ c k n.body.nodes sight)
    (hx : Sketches c (Γ.writePart (.whole n.type) n.body) k) : Shows Γ c (n.id, n.type, k) n where
  id := rfl
  type := rfl
  body := hx
  within o ho := by
    obtain ⟨m, hm, hshows⟩ := h.sound o ho
    exact ⟨m, hm, hshows.id⟩
  whole hends m hm := by
    obtain ⟨o, ho, hshows⟩ := h.complete hends m hm
    exact ⟨o, ho, hshows.id⟩

theorem object (h : Depicts Γ c k n.body.nodes sight)
    (hx : Sketches c (Γ.writePart (.whole n.type) n.body) k) :
    Depicts Γ c (.object n.id n.type k .done) (n :: n.body.nodes)
      (Writes.sightShared n.id sight) where
  sound o ho := by
    rcases List.mem_cons.1 ho with rfl | ho
    · exact ⟨n, List.mem_cons_self, h.shows hx⟩
    · obtain ⟨m, hm, hshows⟩ := h.sound o (by simpa [Sketch.objects] using ho)
      exact ⟨m, List.mem_cons_of_mem _ hm, hshows⟩
  complete hends m hm := by
    rcases List.mem_cons.1 hm with rfl | hm
    · exact ⟨_, List.mem_cons_self, h.shows hx⟩
    · obtain ⟨o, ho, hshows⟩ := h.complete (Bool.or_eq_false_iff.1 hends).1 m hm
      exact ⟨o, List.mem_cons_of_mem _ (List.mem_append_left _ ho), hshows⟩
  sighted hends seen := by
    simp only [Sketch.sightings, h.sighted (Bool.or_eq_false_iff.1 hends).1, List.append_nil]
    rfl

end Depicts

namespace Schema

namespace Draws

theorem refused (e : StreamError) : Γ.Draws c (throw e) ns sight :=
  ⟨.refused e, .throw e, .refused e⟩

theorem atomic (hx : Writer.Atomic x) : Γ.Draws c x [] fun _ => [] := by
  obtain ⟨k, hk, hobjects⟩ := Sketches.atomic hx
  exact ⟨k, hk, .of_objects hobjects⟩

theorem seq (hx : Γ.Draws c x ns sight) (hy : Γ.Draws c y ns' sight') :
    Γ.Draws c (do x; y) (ns ++ ns') (sightBoth sight sight') := by
  obtain ⟨k, hk, hdepicts⟩ := hx
  obtain ⟨k', hk', hdepicts'⟩ := hy
  exact ⟨k.andThen k', hk.seq hk', hdepicts.andThen hdepicts'⟩

/-- There are no nodes in a header or a scalar. -/
theorem behind (hx : Writer.Atomic x) (hy : Γ.Draws c y ns sight) :
    Γ.Draws c (do x; y) ns sight := (atomic hx).seq hy

theorem unique (type : Ty) (hx : Γ.Draws c x ns sight) :
    Γ.Draws c (Writer.unique type x) ns sight := by
  cases htag : c.registry.requireTag type with
  | error e =>
      refine ⟨.refused e, fun s hs => ?_, .refused e⟩
      have hregistry := Context.registry_of_untracked hs
      simp only [Writer.unique, bind, EStateM.bind, Writer.requireTag, hregistry, htag]
      rfl
  | ok tag =>
      obtain ⟨k, hk, hdepicts⟩ := behind (.arrayHeader 2) (behind (.uint tag) hx)
      refine ⟨k, fun s hs => ?_, hdepicts⟩
      have hregistry := Context.registry_of_untracked hs
      rw [← hk s hs]
      simp only [Writer.unique, bind, EStateM.bind, Writer.requireTag, hregistry, htag,
        Writer.taggedBody]

theorem errorCode (code : ErrorCode) : Γ.Draws c (Writer.errorCode code) [] fun _ => [] := by
  have hrun (y : Writer Unit) (hy : ∀ s, s.context.categories = c.categories →
      Writer.errorCode code s = y s) (hdraws : Γ.Draws c y [] fun _ => []) :
      Γ.Draws c (Writer.errorCode code) [] fun _ => [] := by
    obtain ⟨k, hk, hdepicts⟩ := hdraws
    exact ⟨k, fun s hs => (hy s (Context.categories_of_untracked hs)).trans (hk s hs), hdepicts⟩
  cases hplace : c.categories.placeOf? code.category.name with
  | none =>
      refine hrun (throw (.unregisteredType (.category code.category.name))) (fun s hs => ?_)
        (.refused _)
      simp only [Writer.errorCode, bind, EStateM.bind, Writer.context, hs, hplace]
  | some place =>
      refine hrun (do Writer.arrayHeader 2; Writer.uint place; Writer.int code.value)
        (fun s hs => ?_) (.behind (.arrayHeader 2) (.behind (.uint place) (.atomic (.int _))))
      simp only [Writer.errorCode, bind, EStateM.bind, Writer.context, hs, hplace]

theorem parts {ps : List Part} {vs : List Value} (h : ∀ q ∈ ps.zip vs,
      Γ.Draws c (Γ.writePart q.1 q.2) q.2.nodes fun seen => q.2.sightings seen) :
    Γ.Draws c (Γ.writeParts ps vs) (Value.nodesIn vs) fun seen => Value.sightingsIn seen vs := by
  induction ps generalizing vs with
  | nil =>
      cases vs with
      | nil => exact ⟨.done, .run .done, .of_objects rfl⟩
      | cons v vs => exact .refused _
  | cons p ps ih =>
      cases vs with
      | nil => exact .refused _
      | cons v vs =>
          rw [List.zip_cons_cons, List.forall_mem_cons] at h
          rw [← sightBoth_sightings]
          exact h.1.seq (ih h.2)

theorem entries {ps : List (String × Part)} {vs : List Value}
    (h : ∀ q ∈ (ps.map Prod.snd).zip vs,
      Γ.Draws c (Γ.writePart q.1 q.2) q.2.nodes fun seen => q.2.sightings seen) :
    Γ.Draws c (Γ.writeEntries ps vs) (Value.nodesIn vs)
      fun seen => Value.sightingsIn seen vs := by
  induction ps generalizing vs with
  | nil =>
      cases vs with
      | nil => exact ⟨.done, .run .done, .of_objects rfl⟩
      | cons v vs => exact .refused _
  | cons p ps ih =>
      cases vs with
      | nil => exact .refused _
      | cons v vs =>
          rw [List.map_cons, List.zip_cons_cons, List.forall_mem_cons] at h
          rw [← sightBoth_sightings]
          exact behind (.str p.1) (h.1.seq (ih h.2))

end Draws

/-- In the writing of a value as a part another value is written as a part. -/
inductive Reaches (Γ : Schema) : Part → Value → Part → Value → Prop
  | refl (p : Part) (v : Value) : Reaches Γ p v p v
  | element {t n ps vs p v} {q : Part × Value} : Γ.Members t.deref vs.length n ps →
      q ∈ ps.zip vs → Reaches Γ q.1 q.2 p v → Reaches Γ (.whole t) (.list vs) p v
  | entry {t name args item fields vs p v} {q : Part × Value} : t.deref = .named name args →
      Γ.plan? name = some (item, .struct true fields) →
      q ∈ (fields.map (MarkedField.part (arguments item args))).zip vs →
      Reaches Γ q.1 q.2 p v → Reaches Γ (.whole t) (.list vs) p v
  | field {name args item asMap fields vs p v} {q : Part × Value} :
      Γ.plan? name = some (item, .struct asMap fields) →
      q ∈ (fields.map (MarkedField.part (arguments item args))).zip vs →
      Reaches Γ q.1 q.2 p v → Reaches Γ (.fields (.named name args)) (.list vs) p v
  | present {t inner w p v} : t.deref = .option inner → Reaches Γ (.whole inner) w p v →
      Reaches Γ (.whole t) (.present w) p v
  | variant {t name args item fieldss fields index vs p v} {q : Part × Value} :
      t.deref = .named name args → Γ.plan? name = some (item, .variants fieldss) →
      fieldss[index]? = some fields →
      q ∈ (fields.map (MarkedField.part (arguments item args))).zip vs →
      Reaches Γ q.1 q.2 p v → Reaches Γ (.whole t) (.variant index vs) p v
  | shared {t id type body p v} : Reaches Γ (.whole type) body p v →
      Reaches Γ (.whole t) (.shared id type body) p v
  | unique {t type body p v} : Reaches Γ (.whole type) body p v →
      Reaches Γ (.whole t) (.unique type body) p v

theorem Reaches.nodes_subset {p q : Part} {v w : Value} (h : Γ.Reaches p v q w) :
    w.nodes ⊆ v.nodes := by
  have hmember {ps : List Part} {vs : List Value} {q : Part × Value} (hq : q ∈ ps.zip vs) :
      q.2.nodes ⊆ Value.nodesIn vs := by
    rw [Value.nodesIn_eq]
    exact fun n hn => List.mem_flatMap.2 ⟨q.2, (List.of_mem_zip hq).2, hn⟩
  induction h with
  | refl => exact List.Subset.refl _
  | element _ hq _ ih => exact List.Subset.trans ih (hmember hq)
  | entry _ _ hq _ ih => exact List.Subset.trans ih (hmember hq)
  | field _ hq _ ih => exact List.Subset.trans ih (hmember hq)
  | present _ _ ih => exact ih
  | variant _ _ _ hq _ ih => exact List.Subset.trans ih (hmember hq)
  | shared _ ih => exact List.Subset.trans ih (List.subset_cons_self _ _)
  | unique _ ih => exact ih

/-- The writing of the value comes to all its pointers. A writer that comes with a type or a field
and that is given some of them can be told before, and the variants of an enum without fields have
none. -/
structure Placed (Γ : Schema) (c : Context) (p : Part) (v : Value) : Prop where
  codec : ∀ q w codec, Γ.Reaches p v q w → Γ.partCodec? (q.asked w) = some codec →
    Γ.Draws c (codec.write w) w.nodes fun seen => w.sightings seen
  bare : ∀ t name args item index vs, Γ.Reaches p v (.whole t) (.variant index vs) →
    t.deref = .named name args → Γ.plan? name = some (item, .bare) → Value.nodesIn vs = []

/-- What the writers that come with types and fields write for values without pointers can be
told before. -/
def Drawn (Γ : Schema) (c : Context) : Prop :=
  ∀ p codec, Γ.partCodec? p = some codec → ∀ v, v.nodes = [] →
    Γ.Draws c (codec.write v) [] fun _ => []

/-- Derived types come with no writers. -/
theorem Drawn.of_derived {types : List (String × Declaration)}
    {order : Ty → KeyOrder}
    (h : ∀ q ∈ types, ∃ item, q.2 = .derived item) : Drawn ⟨types, [], order⟩ c := by
  intro p codec hcodec
  rw [partCodec?_of_derived h] at hcodec
  cases hcodec

/-- A value without pointers has none that the writing of the value does not come to. -/
theorem Placed.of_nodes (hΓ : Γ.Drawn c) {p : Part} {v : Value} (h : v.nodes = []) :
    Γ.Placed c p v where
  codec q w codec hreaches hcodec := by
    have hnodes : w.nodes = [] := List.subset_nil.1 (h ▸ hreaches.nodes_subset)
    have hsight : (fun seen => w.sightings seen) = fun _ => [] :=
      funext fun seen => w.sightings_of_nodes hnodes seen
    rw [hnodes, hsight]
    exact hΓ (q.asked w) codec hcodec w hnodes
  bare t name args item index vs hreaches _ _ := List.subset_nil.1 (h ▸ hreaches.nodes_subset)

/-- What is written in the writing of a value has its pointers in place if the value has. -/
theorem Placed.of_reaches {p q : Part} {v w : Value} (h : Γ.Placed c p v)
    (hreaches : ∀ r u, Γ.Reaches q w r u → Γ.Reaches p v r u) : Γ.Placed c q w where
  codec r u codec hr := h.codec r u codec (hreaches r u hr)
  bare t name args item index vs hr := h.bare t name args item index vs (hreaches _ _ hr)

/-- All writing of values can be told before. -/
theorem draws_writePart {p : Part} {v : Value} (hv : Γ.Placed c p v) :
    Γ.Draws c (Γ.writePart p v) v.nodes fun seen => v.sightings seen := by
  have hlayout := Γ.layout p v
  generalize Γ.writePart p v = x at hlayout
  cases hlayout with
  | refused _ _ e => exact .refused e
  | codec _ hcodec => exact hv.codec p v _ (.refl p v) hcodec
  | scalar d _ => exact .atomic (.scalar _ d)
  | errorCode code _ => exact .errorCode code
  | @array t n ps vs hmembers =>
      refine .behind (.arrayHeader n) (.parts fun q hq => ?_)
      have hsize := List.sizeOf_lt_of_mem (List.of_mem_zip hq).2
      exact draws_writePart (hv.of_reaches fun _ _ hw => (.element hmembers hq hw))
  | map vs ht hplan =>
      refine .behind (.mapHeader _) (.entries fun q hq => ?_)
      rw [List.map_map] at hq
      have hsize := List.sizeOf_lt_of_mem (List.of_mem_zip hq).2
      exact draws_writePart (hv.of_reaches fun _ _ hw => (.entry ht hplan hq hw))
  | fields vs hplan =>
      refine .parts fun q hq => ?_
      have hsize := List.sizeOf_lt_of_mem (List.of_mem_zip hq).2
      exact draws_writePart (hv.of_reaches fun _ _ hw => (.field hplan hq hw))
  | absent _ => exact .atomic (.absent _)
  | @present t inner w ht =>
      have hw := draws_writePart (hv.of_reaches fun _ _ hu => .present ht hu)
      cases inner.deref.isOption with
      | true => exact .behind (.arrayHeader 1) hw
      | false => exact hw
  | discriminant index vs d ht hplan =>
      have hnodes := hv.bare _ _ _ _ _ _ (.refl _ _) ht hplan
      have hsight : (fun seen => (Value.variant index vs).sightings seen) = fun _ => [] :=
        funext fun seen => Value.sightingsIn_of_nodes vs hnodes seen
      rw [hsight, Value.nodes, hnodes]
      exact .atomic (.int _)
  | variant vs ht hplan hfields =>
      refine .behind (.arrayHeader _) (.behind (.uint _) (.parts fun q hq => ?_))
      have hsize := List.sizeOf_lt_of_mem (List.of_mem_zip hq).2
      exact draws_writePart (hv.of_reaches fun _ _ hw => (.variant ht hplan hfields hq hw))
  | @shared t pointee type id body _ _ =>
      obtain ⟨k, hk, hdepicts⟩ := draws_writePart (hv.of_reaches fun _ _ hw => .shared hw)
      exact ⟨_, hk.shared id type, hdepicts.object (n := ⟨id, type, body⟩) hk⟩
  | unique body _ _ =>
      exact .unique _ (draws_writePart (hv.of_reaches fun _ _ hw => .unique hw))
termination_by sizeOf v
decreasing_by all_goals (subst_vars; decreasing_tactic)

end Schema

end ObjectStream
