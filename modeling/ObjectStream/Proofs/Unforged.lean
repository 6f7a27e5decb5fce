import ObjectStream.Proofs.Deeds
import ObjectStream.Proofs.Objects
import ObjectStream.Proofs.Stream
import ObjectStream.Reader.Operation

/-!
# References cannot be forged

Whatever the bytes are and whatever is read from them, with whatever failures in
between, a reference yields an object that the stream finished before under the
serial, or an error. So what a stream hands over has no cycles: bytes cannot say
that an object is part of itself.
-/

namespace ObjectStream

open Reader

variable {Γ : Schema} {c : Context} {r : InStream} {ops : List ReadOp}

/-- The readers that come with types and fields are put together from those of the stream, and the
pointers in what they return are pointers that they have read. -/
structure Schema.Sincere (Γ : Schema) (c : Context) : Prop where
  traced : ∀ x, Γ.Foreign x → Traced x
  backs : ∀ x, Γ.Foreign x → Gives (Backs c) [] x Value.nodes

def ReadAnswer.nodes : ReadAnswer → List Node
  | .value v => v.nodes
  | _ => []

namespace ReadOp

/-- An operation reads something that has nothing to do with shared objects, or it reads a value, or
it forgets the table. -/
inductive Does (Γ : Schema) (op : ReadOp) : Prop
  | primitive {α : Type} {x : Reader α} {f : α → ReadAnswer} (hx : Primitive x)
      (hrun : op.run Γ = x >>= fun a => pure (f a)) (hnodes : ∀ a, (f a).nodes = [])
  | value (t : Ty) (hop : op = .value t)
  | fields (t : Ty) (hop : op = .fields t)
  | forgets (hop : op = .rewind ∨ op = .handOver)

theorem does (Γ : Schema) (op : ReadOp) : op.Does Γ := by
  cases op with
  | peek => exact .primitive .peek rfl fun _ => rfl
  | byte => exact .primitive .byte rfl fun _ => rfl
  | number kind => exact .primitive (.number kind) rfl fun _ => rfl
  | raw n => exact .primitive (.raw n) rfl fun _ => rfl
  | mapHeader => exact .primitive (.head .mapHeader) rfl fun _ => rfl
  | arrayHeader => exact .primitive (.head .arrayHeader) rfl fun _ => rfl
  | arrayHeaderOf n => exact .primitive (.head (.arrayHeaderOf n)) rfl fun _ => rfl
  | mapHeaderOf n => exact .primitive (.head (.orRestore (.check .mapHeader))) rfl fun _ => rfl
  | blobHeader => exact .primitive .blobHeader rfl fun _ => rfl
  | blob => exact .primitive (.head .blob) rfl fun _ => rfl
  | strHeader => exact .primitive .strHeader rfl fun _ => rfl
  | str => exact .primitive (.head .str) rfl fun _ => rfl
  | extHeader => exact .primitive .extHeader rfl fun _ => rfl
  | ext => exact .primitive (.head .ext) rfl fun _ => rfl
  | nil => exact .primitive (.head .nil) rfl fun _ => rfl
  | bool => exact .primitive (.head .bool) rfl fun _ => rfl
  | uint => exact .primitive (.head .uint) rfl fun _ => rfl
  | int => exact .primitive (.head .int) rfl fun _ => rfl
  | f32 => exact .primitive (.head .f32) rfl fun _ => rfl
  | f64 => exact .primitive (.head .f64) rfl fun _ => rfl
  | value t => exact .value t rfl
  | fields t => exact .fields t rfl
  | skip => exact .primitive .skip rfl fun _ => rfl
  | seek pos => exact .primitive (.seek pos) rfl fun _ => rfl
  | rewind => exact .forgets (.inl rfl)
  | handOver => exact .forgets (.inr rfl)

theorem after_eq (op : ReadOp) (r : InStream) : op.after Γ r = stateAfter (op.run Γ) r := by
  unfold after stateAfter
  cases op.run Γ r <;> rfl

/-- Rewinding and handing over leave no table. -/
theorem after_forget {op : ReadOp} (h : op = .rewind ∨ op = .handOver) (r : InStream) :
    ∃ cursor, op.after Γ r = { r with cursor, shared := r.shared.map fun _ => #[] } := by
  rcases h with rfl | rfl
  · exact ⟨_, rfl⟩
  · exact ⟨_, rfl⟩

def yields (Γ : Schema) (op : ReadOp) (r : InStream) : List Value :=
  match op.run Γ r with
  | .ok (.value v) _ => [v]
  | _ => []

def returned (Γ : Schema) : List ReadOp → InStream → List Value
  | [], _ => []
  | op :: ops, r => op.yields Γ r ++ returned Γ ops (op.after Γ r)

end ReadOp

inductive History (Γ : Schema) : InStream → List ReadOp → List Deed → Prop
  | nil {r : InStream} : History Γ r [] []
  | read {r : InStream} {op : ReadOp} {ops : List ReadOp} {ds ds' : List Deed} :
      Traces (op.run Γ) r ds → History Γ (op.after Γ r) ops ds' →
        History Γ r (op :: ops) (ds ++ ds')
  | forget {r : InStream} {op : ReadOp} {ops : List ReadOp} {ds : List Deed} :
      op = .rewind ∨ op = .handOver → History Γ (op.after Γ r) ops ds →
      History Γ r (op :: ops) (.forgotten :: ds)

/-! ## Deeds -/

namespace Reader.Traced

theorem decode (hΓ : ∀ x, Γ.Foreign x → Traced x) (t : Ty) : Traced (ObjectStream.decode Γ t) :=
  (of_primitive .remaining).bind fun _ => pieces_traced.decodeWithin hΓ _ t

theorem decodeFields (hΓ : ∀ x, Γ.Foreign x → Traced x) (t : Ty) :
    Traced (ObjectStream.decodeFields Γ t) :=
  (of_primitive .remaining).bind fun _ =>
    pieces_traced.of_shape hΓ (Shape.decodeFieldList _ t) (pieces_traced.decodeWithin hΓ _)

end Reader.Traced

/-- Every history of operations leaves deeds. -/
theorem exists_history (hΓ : ∀ x, Γ.Foreign x → Traced x) (ops : List ReadOp) (r : InStream) :
    ∃ ds, History Γ r ops ds := by
  induction ops generalizing r with
  | nil => exact ⟨[], .nil⟩
  | cons op ops ih =>
      obtain ⟨ds', hds'⟩ := ih (op.after Γ r)
      have hread (h : Traced (op.run Γ)) : ∃ ds, History Γ r (op :: ops) ds := by
        obtain ⟨ds, hds⟩ := h r
        exact ⟨ds ++ ds', .read hds hds'⟩
      cases op.does Γ with
      | primitive hx hrun _ =>
          refine hread ?_
          rw [hrun]
          exact (Traced.of_primitive hx).bind fun _ => .of_primitive (.pure _)
      | value t hop =>
          subst hop
          exact hread ((Traced.decode hΓ t).bind fun _ => .of_primitive (.pure _))
      | fields t hop =>
          subst hop
          exact hread ((Traced.decodeFields hΓ t).bind fun _ => .of_primitive (.pure _))
      | forgets hop => exact ⟨_, .forget hop hds'⟩

/-- Along every history each object that is complete has its place. -/
theorem History.lost_not_mem {ds : List Deed} (h : History Γ r ops ds) (serial : Nat) :
    .lost serial ∉ ds := by
  induction h with
  | nil => exact List.not_mem_nil
  | read htraces _ ih => exact List.mem_append.not.2 (not_or.2 ⟨htraces.grows.2 serial, ih⟩)
  | forget _ _ ih => exact List.mem_cons.not.2 (not_or.2 ⟨nofun, ih⟩)

namespace InStream.Recalls

/-- A stream without a history recalls nothing. -/
theorem fresh_ofBytes (hc : c.dedup = true) (bytes : ByteArray) (next : Identity)
    (journal : Journal) : (InStream.ofBytes c bytes next journal).Recalls [] := by
  have hslots := slots_ofBytes c bytes next journal
  constructor
  · rw [tracks_ofBytes, hc]
  · rw [hslots]
    rfl
  · intro serial object
    rw [held?, hslots]
    exact iff_of_false (by simp) List.not_mem_nil
  · exact List.nodup_nil
  · simp [Deed.ids]

/-- A stream that is rewound or handed over recalls nothing recent. -/
theorem forget {past : List Deed} (h : r.Recalls past) {op : ReadOp}
    (hop : op = .rewind ∨ op = .handOver) : (op.after Γ r).Recalls (past ++ [.forgotten]) := by
  obtain ⟨table, hshared⟩ := Option.isSome_iff_exists.1 h.tracks
  have hids : Deed.ids (past ++ [.forgotten]) = Deed.ids past := by simp [Deed.ids, Deed.id?]
  obtain ⟨cursor, hafter⟩ := ReadOp.after_forget (Γ := Γ) hop r
  have hslots : (op.after Γ r).slots = [] := by rw [hafter, slots, hshared]; rfl
  constructor
  · simp [hafter, InStream.tracks, hshared]
  · rw [hslots, Deed.recent_forgotten]
    rfl
  · intro serial object
    rw [held?, hslots, Deed.recent_forgotten]
    exact iff_of_false (by simp) List.not_mem_nil
  · rw [hids]
    exact h.distinct
  · rw [hids, hafter]
    exact h.fresh

end InStream.Recalls

/-- Along every history the table is what the deeds say, and of references comes what has to. -/
theorem History.recalls {ds : List Deed} (h : History Γ r ops ds) {past : List Deed}
    (hr : r.Recalls past) :
    (ReadOp.afterAll Γ ops r).Recalls (past ++ ds) ∧ Judged past ds := by
  induction h generalizing past with
  | nil => exact ⟨(List.append_nil past).symm ▸ hr, trivial⟩
  | @read r op ops ds ds' htraces _ ih =>
      have hadds := htraces.adds hr
      rw [← ReadOp.after_eq] at hadds
      obtain ⟨hrecalls, hjudged⟩ := ih hadds.recalls
      rw [List.append_assoc] at hrecalls
      exact ⟨hrecalls, judged_append.2 ⟨hadds.judged, hjudged⟩⟩
  | @forget r op ops ds hop _ ih =>
      obtain ⟨hrecalls, hjudged⟩ := ih (hr.forget hop)
      rw [List.append_assoc] at hrecalls
      exact ⟨hrecalls, nofun, hjudged⟩

/-! ## Objects -/

section Gathering

variable {K : InStream → InStream → List Node → Prop}

/-- What reading gathers, an operation gathers, if forgetting the table does no harm. -/
theorem gathers_after (hK : Gathers K) (hΓ : ∀ x, Γ.Foreign x → Gives K [] x Value.nodes)
    (hforget : ∀ (r : InStream) cursor,
      K r { r with cursor, shared := r.shared.map fun _ => #[] } [])
    (op : ReadOp) (r : InStream) : K r (op.after Γ r) (Value.nodesIn (op.yields Γ r)) := by
  have hread (h : Gives K [] (op.run Γ) ReadAnswer.nodes) :
      K r (op.after Γ r) (Value.nodesIn (op.yields Γ r)) := by
    have hrun := h r r (hK.refl r)
    rw [ReadOp.after_eq, stateAfter, ReadOp.yields]
    cases hres : op.run Γ r with
    | error e r' =>
        rw [hres] at hrun
        exact hrun
    | ok a r' =>
        rw [hres] at hrun
        cases a with
        | value v =>
            have hnodes : Value.nodesIn [v] = v.nodes := List.append_nil _
            exact hnodes ▸ hrun
        | _ => exact hrun
  have hdecode := Gives.decodeWithin hK hΓ
  have hremaining : Gives K [] Reader.remaining fun _ => [] :=
    .of_still hK Primitive.remaining.still
  cases op.does Γ with
  | primitive hx hrun hnodes =>
      refine hread ?_
      rw [hrun]
      exact (Gives.of_still hK hx.still).bind fun a => .pure hK (hnodes a ▸ List.Subperm.refl _)
  | value t hop =>
      subst hop
      exact hread <| (hremaining.bind fun n => hdecode _ t).bind fun v =>
        .pure hK (List.Subperm.refl _)
  | fields t hop =>
      subst hop
      exact hread <| (hremaining.bind fun n =>
        Gives.decodeFieldList hK hΓ (hdecode _) _ t).bind fun v =>
          .pure hK (List.Subperm.refl _)
  | forgets hop =>
      obtain ⟨cursor, hafter⟩ := ReadOp.after_forget (Γ := Γ) hop r
      have hnone : op.yields Γ r = [] := by rcases hop with rfl | rfl <;> rfl
      rw [hnone, hafter]
      exact hforget r cursor

/-- What reading gathers, a history of operations gathers. -/
theorem gathers_returned (hK : Gathers K) (hΓ : ∀ x, Γ.Foreign x → Gives K [] x Value.nodes)
    (hforget : ∀ (r : InStream) cursor,
      K r { r with cursor, shared := r.shared.map fun _ => #[] } [])
    (ops : List ReadOp) (r : InStream) :
    K r (ReadOp.afterAll Γ ops r) (Value.nodesIn (ReadOp.returned Γ ops r)) := by
  induction ops generalizing r with
  | nil => exact hK.refl r
  | cons op ops ih =>
      have hall := hK.trans (gathers_after hK hΓ hforget op r) (ih (op.after Γ r))
      rw [ReadOp.returned, Value.nodesIn_append]
      exact hall

end Gathering

/-- Nothing is held once the table is forgotten. -/
theorem InStream.held?_forgotten (r : InStream) (cursor : ByteCursor) (serial : Nat) :
    held? { r with cursor, shared := r.shared.map fun _ => #[] } serial = none := by
  unfold held? slots
  cases r.shared <;> rfl

/-- All that a history of operations returns is backed by one heap. -/
theorem backs_returned (hc : c.registry.Converts) (hΓ : Γ.Sincere c) (ops : List ReadOp)
    (r : InStream) :
    Backs c r (ReadOp.afterAll Γ ops r) (Value.nodesIn (ReadOp.returned Γ ops r)) := by
  refine gathers_returned (gathers_backs hc) hΓ.backs (fun r cursor => ?_) ops r
  refine backs_of_held rfl (fun serial object hobject => ?_) (Nat.le_refl _)
  rw [InStream.held?_forgotten] at hobject
  cases hobject

/-- A stream without a history is backed by no objects at all. -/
theorem InStream.Backed.fresh_ofBytes (c : Context) (bytes : ByteArray) (next : Identity)
    (journal : Journal) : (InStream.ofBytes c bytes next journal).Backed [] where
  distinct := List.nodup_nil
  fresh := nofun
  older := nofun
  table serial object hobject := by
    rw [held?, slots_ofBytes] at hobject
    cases hobject

/-- Derived types come with readers of the stream alone. -/
theorem Schema.Sincere.of_derived {types : List (String × Declaration)}
    {order : Ty → KeyOrder}
    (h : ∀ q ∈ types, ∃ item, q.2 = .derived item) (c : Context) :
    Schema.Sincere ⟨types, [], order⟩ c :=
  ⟨fun x hx => absurd hx (Schema.not_foreign_of_derived h x),
    fun x hx => absurd hx (Schema.not_foreign_of_derived h x)⟩

/-- Whatever is read from whatever bytes, of every reference comes an object that was finished
under its serial since the table was last forgotten, or an error that says what is wrong, and no two
objects that were finished are the same. If conversions make no pointers, the values returned are
graphs of objects without cycles. -/
theorem Schema.Sincere.unforged (hΓ : Γ.Sincere c) (hc : c.dedup = true) (bytes : ByteArray)
    (next : Identity) (journal : Journal) (ops : List ReadOp) :
    let r := InStream.ofBytes c bytes next journal
    let vs := ReadOp.returned Γ ops r
    (∃ history, History Γ r ops history) ∧
      (∀ history, History Γ r ops history → (Deed.ids history).Nodup ∧
        ∀ before tag serial target answer after,
          history = before ++ .followed tag serial target answer :: after →
          Verdict (Deed.recent before) tag serial target answer) ∧
      (c.registry.Converts →
        (∀ n ∈ Value.nodesIn vs, ∀ m ∈ Value.nodesIn vs, n.id = m.id → n = m) ∧
          ∀ id, ¬ Relation.TransGen (Refers vs) id id) := by
  intro r vs
  refine ⟨exists_history hΓ.traced ops r, fun history hhistory => ?_, fun hconverts => ?_⟩
  · obtain ⟨hrecalls, hjudged⟩ := hhistory.recalls (.fresh_ofBytes hc bytes next journal)
    exact ⟨hrecalls.distinct, fun before tag serial target answer after hsplit =>
      hjudged.verdict hsplit⟩
  · obtain ⟨-, hbacks⟩ := backs_returned hconverts hΓ ops r rfl
    obtain ⟨heap, -, hheap, hnodes⟩ := hbacks [] (.fresh_ofBytes c bytes next journal)
    exact ⟨fun n hn m hm => hheap.eq_of_id (hnodes hn) (hnodes hm), hheap.acyclic hnodes⟩

namespace Sample

/-- Bytes that forge references: a node that is linked to itself, a node linked to none, and
references to the second node, to the first, and to a third. -/
def forged : ByteArray := packed
  [0x92, 7, 0x92, 1, 0x92, 7, 0, 0x92, 7, 0x92, 2, 0x92, 0, 0xc0, 0x92, 7, 1, 0x92, 7, 0,
    0x92, 7, 2]

/-- A pointer to a node is read five times, and a reference once more when the table was
forgotten. -/
def attempts : List ReadOp :=
  List.replicate 5 (.value (.shared node)) ++ [.rewind, .seek 14, .value (.shared node)]

theorem converts_tracked : tracked.registry.Converts := by
  intro tag target upcast hupcast v
  simp only [tracked, Registry.upcast?_enter] at hupcast
  split at hupcast
  · cases hupcast
    exact List.Subset.refl _
  · cases hupcast

end Sample

/-- Of six attempts to read a pointer two yield one and the same node, and the others nothing. -/
theorem unforged_attempts :
    let r := InStream.ofBytes Sample.tracked Sample.forged 0 none
    let vs := ReadOp.returned Sample.links Sample.attempts r
    (Value.nodesIn vs).map Node.id = [0, 0] ∧
      (∃ history, History Sample.links r Sample.attempts history ∧ (Deed.ids history).Nodup) ∧
      ∀ id, ¬ Relation.TransGen (Refers vs) id id := by
  intro r vs
  have hlinks : Sample.links.Sincere Sample.tracked := .of_derived Sample.derived_graphs _
  obtain ⟨⟨history, hhistory⟩, hall, hgraph⟩ :=
    Schema.Sincere.unforged hlinks rfl Sample.forged 0 none Sample.attempts
  exact ⟨by decide +kernel, ⟨history, hhistory, (hall history hhistory).1⟩,
    (hgraph Sample.converts_tracked).2⟩

end ObjectStream
