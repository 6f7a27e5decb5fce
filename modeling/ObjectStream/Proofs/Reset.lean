import ObjectStream.Proofs.Aloof
import ObjectStream.Proofs.Lenient
import ObjectStream.Proofs.Parallel
import ObjectStream.Proofs.Rollback
import ObjectStream.Proofs.Unforged

/-!
# Streams that start afresh

An output stream that is cleared or hands over its bytes, and an input stream that
is rewound, keep nothing of their past but what they were set up with. Whatever
happened before, and however much of it failed, from then on they cannot be told
from new streams. An input stream goes on with the numbering of its objects: what
it reads again are new objects, which have the same pointers to one another as the
objects that a new stream would read, and none of the objects read before is among
them.
-/

namespace ObjectStream

open Reader

variable {Γ : Schema} {c : Context}

/-! ## Output streams -/

/-- The streams were set up alike: in one context, with one limit, and both track objects or
neither. -/
structure OutStream.Akin (s t : OutStream) : Prop where
  context : t.context = s.context
  limit : t.sink.limit = s.sink.limit
  tracks : t.tracks = s.tracks

namespace OutStream.Akin

variable {s t u : OutStream}

theorem refl (s : OutStream) : s.Akin s := ⟨rfl, rfl, rfl⟩

theorem trans (h : s.Akin t) (h' : t.Akin u) : s.Akin u :=
  ⟨h'.context.trans h.context, h'.limit.trans h.limit, h'.tracks.trans h.tracks⟩

theorem of_map (t : OutStream) (sink : ByteSink) (f : WrittenTable → WrittenTable)
    (h : sink.limit = t.sink.limit) : t.Akin { t with sink, shared := t.shared.map f } :=
  ⟨rfl, h, by rw [OutStream.tracks, OutStream.tracks, Option.isSome_map]⟩

theorem kept (s : OutStream) : Writer.Kept s.Akin where
  append _ _ _ h := ⟨h.context, h.limit, h.tracks⟩
  noted _ _ h := ⟨h.context, h.limit, h.tracks⟩
  enter t table id tag hshared _ h := by
    refine ⟨h.context, h.limit, ?_⟩
    rw [← h.tracks, OutStream.tracks, OutStream.tracks, hshared]
    rfl

end OutStream.Akin

/-- Whether it succeeds or fails, the writer leaves alone what the stream was set up with. -/
def Writer.Steady {α : Type} (x : Writer α) : Prop := ∀ s : OutStream, s.Akin (stateAfter x s)

theorem Writer.Composed.steady {α : Type} {x : Writer α} (hx : x.Composed) : x.Steady :=
  fun s => hx.kept (OutStream.Akin.kept s) s (.refl s)

namespace WriteOp

/-- An operation leaves alone what the stream was set up with. -/
theorem akin_after (hΓ : ∀ p codec, Γ.partCodec? p = some codec → ∀ v, (codec.write v).Steady)
    (op : WriteOp) (s : OutStream) : s.Akin (op.after Γ s) := by
  have happends (h : op.appends = true) : s.Akin (op.after Γ s) := by
    rw [after_eq]
    refine closed_run (OutStream.Akin.kept s).pieces.closed (fun p codec hcodec v t ht => ?_) h s
      (.refl s)
    exact ht.trans (hΓ p codec hcodec v t)
  cases op with
  | backTo pos =>
      by_cases hpos : s.size < pos
      · have hafter : (WriteOp.backTo pos).after Γ s = s := by
          simp only [after, run, Bind.bind, EStateM.bind, Writer.backTo, if_pos hpos]
        rw [hafter]
        exact .refl s
      · have hafter : (WriteOp.backTo pos).after Γ s =
            { s with sink := s.sink.truncate pos, shared := s.shared.map (·.truncate pos) } := by
          simp only [after, run, Bind.bind, EStateM.bind, Writer.backTo, if_neg hpos]
          rfl
        rw [hafter]
        exact .of_map s _ _ rfl
  | clear | handOver => exact .of_map s s.sink.clear _ rfl
  | _ => exact happends rfl

theorem akin_afterAll (hΓ : ∀ p codec, Γ.partCodec? p = some codec → ∀ v, (codec.write v).Steady)
    (ops : List WriteOp) (s : OutStream) : s.Akin (afterAll Γ ops s) := by
  induction ops generalizing s with
  | nil => exact .refl s
  | cons op ops ih => exact (akin_after hΓ op s).trans (ih (op.after Γ s))

/-- A stream that has been cleared or has handed over its bytes is like new, but for what was
observed. -/
theorem unobserved_emptied {sink : ByteSink} {journal journal' : Journal} {t : OutStream}
    (ht : (OutStream.ofSink c sink journal).Akin t) {op : WriteOp}
    (hop : op = .clear ∨ op = .handOver) :
    (op.after Γ t).unobserved = (OutStream.ofSink c sink.clear journal').unobserved := by
  have hshared : (t.shared.map fun _ => WrittenTable.empty) =
      (OutStream.ofSink c sink.clear journal').shared := by
    have htracks := ht.tracks
    rw [OutStream.tracks_ofSink, OutStream.tracks] at htracks
    unfold OutStream.ofSink
    cases hdedup : c.dedup with
    | true =>
        rw [hdedup] at htracks
        obtain ⟨table, htable⟩ := Option.isSome_iff_exists.1 htracks
        rw [htable]
        rfl
    | false =>
        rw [hdedup] at htracks
        rw [Option.not_isSome_iff_eq_none.1 (Bool.eq_false_iff.1 htracks)]
        rfl
  have hsink : t.sink.clear = sink.clear := by rw [ByteSink.clear, ht.limit]; rfl
  have hcontext : t.context = c := ht.context
  have hafter : (op.after Γ t).unobserved = ⟨t.context, t.sink.clear,
      t.shared.map fun _ => WrittenTable.empty, none⟩ := by
    rcases hop with rfl | rfl <;> rfl
  rw [hafter, hcontext, hsink, hshared]
  rfl

end WriteOp

/-! ## Input streams -/

structure InStream.Akin (r r' : InStream) : Prop where
  context : r'.context = r.context
  data : r'.cursor.data = r.cursor.data
  tracks : r'.tracks = r.tracks

theorem InStream.Akin.refl (r : InStream) : r.Akin r := ⟨rfl, rfl, rfl⟩

theorem InStream.Akin.trans {r s t : InStream} (h : r.Akin s) (h' : s.Akin t) : r.Akin t :=
  ⟨h'.context.trans h.context, h'.data.trans h.data, h'.tracks.trans h.tracks⟩

namespace Reader

def Steady {α : Type} (x : Reader α) : Prop := ∀ r : InStream, r.Akin (stateAfter x r)

namespace Steady

variable {α β : Type} {x : Reader α}

theorem of_still (hx : Still x) : Steady x := by
  intro r
  obtain ⟨pos, hpos⟩ := hx r
  rw [hpos]
  exact ⟨rfl, rfl, rfl⟩

theorem bind {f : α → Reader β} (hx : Steady x) (hf : ∀ a, Steady (f a)) : Steady (x >>= f) := by
  intro r
  rcases stateAfter_bind_cases x f r with hend | ⟨a, hend⟩
  · rw [hend]
    exact hx r
  · rw [hend]
    exact (hx r).trans (hf a _)

theorem ite {P : Prop} [Decidable P] {y : Reader α} (hx : Steady x) (hy : Steady y) :
    Steady (if P then x else y) := by
  split
  · exact hx
  · exact hy

theorem pure (a : α) : Steady (Pure.pure a) := of_still (.pure a)

theorem note (event : Event) : Steady (Reader.note event) := fun _ => ⟨rfl, rfl, rfl⟩

theorem newObject (target type : Ty) (body : Value) :
    Steady (Reader.newObject target type body) := fun _ => ⟨rfl, rfl, rfl⟩

theorem openSlot (tag : TypeTag) : Steady (Reader.openSlot tag) := by
  intro r
  rw [stateAfter_of_ok (openSlot_eq tag r)]
  exact ⟨rfl, rfl, InStream.tracks_opened r tag⟩

theorem fillSlot (tag : TypeTag) (serial : Nat) (object : Shared) :
    Steady (Reader.fillSlot tag serial object) := by
  intro r
  rcases fillSlot_cases tag serial object r with ⟨-, hfill⟩ | ⟨slot, -, hfill⟩ | ⟨-, -, hfill⟩
  · rw [stateAfter_of_ok hfill]
    exact ⟨rfl, rfl, rfl⟩
  · rw [stateAfter_of_ok hfill]
    exact ⟨rfl, rfl, Option.isSome_map⟩
  · rw [stateAfter_of_error hfill]
    exact ⟨rfl, rfl, rfl⟩

theorem follow (tag : TypeTag) (serial : Nat) (target : Ty) :
    Steady (Reader.follow tag serial target) := by
  intro r
  obtain ⟨journal, hstate⟩ := stateAfter_follow tag serial target r
  rw [hstate]
  exact ⟨rfl, rfl, rfl⟩

theorem nilOr {x : Reader Value} (hx : Steady x) : Steady (Reader.nilOr x) :=
  (of_still .peek).bind fun _ =>
    ite ((of_still rudiments_still.nil).bind fun _ => pure _) (hx.bind fun _ => pure _)

theorem sharedBehind (tag : TypeTag) (target : Ty) {read : Ty → Reader Value}
    (h : ∀ t, Steady (read t)) : Steady (Reader.sharedBehind tag target read) := by
  have hcontext : Steady Reader.context := of_still Primitive.context.still
  have hbuild (c : Context) : Steady (Reader.build c.registry tag target read) := by
    unfold Reader.build
    split
    · exact of_still (.throw _)
    · exact (note _).bind fun _ => (h _).bind fun _ => pure _
  have hmake : Steady (Reader.makeShared tag target read) :=
    hcontext.bind fun c => (hbuild c).bind fun p => newObject _ _ _
  refine (of_still Primitive.tracking.still).bind fun _ =>
    ite ((of_still .peek).bind fun _ => ite ?_ ?_) hmake
  · exact (of_still (rudiments_still.unsigned .w32)).bind fun _ => follow _ _ _
  · exact (openSlot tag).bind fun _ => hmake.bind fun _ => (fillSlot _ _ _).bind fun _ => pure _

end Steady

theorem pieces_steady : Pieces Steady where
  pure := .pure
  throw e := .of_still (.throw e)
  bind := .bind
  head hx := .of_still hx.still
  context := .of_still Primitive.context.still
  note := .note
  nilOr := .nilOr
  sharedBehind := .sharedBehind

end Reader

namespace ReadOp

/-- An operation leaves alone what the stream was set up with, unless it hands over the bytes. -/
theorem akin_after (hΓ : ∀ x, Γ.Foreign x → Steady x) {op : ReadOp} (hop : op ≠ .handOver)
    (r : InStream) : r.Akin (op.after Γ r) := by
  have hread (h : Steady (op.run Γ)) : r.Akin (op.after Γ r) := by
    rw [after_eq]
    exact h r
  have hremaining : Steady Reader.remaining := .of_still Primitive.remaining.still
  have hdecode := pieces_steady.decodeWithin hΓ
  cases op.does Γ with
  | primitive hx hrun _ =>
      refine hread ?_
      rw [hrun]
      exact (Steady.of_still hx.still).bind fun _ => .pure _
  | value t hop =>
      subst hop
      exact hread ((hremaining.bind fun n => hdecode _ t).bind fun _ => .pure _)
  | fields t hop =>
      subst hop
      exact hread ((hremaining.bind fun n =>
        pieces_steady.of_shape hΓ (Shape.decodeFieldList _ t) (hdecode _)).bind fun _ => .pure _)
  | forgets hforgets =>
      rcases hforgets with rfl | rfl
      · exact ⟨rfl, rfl, Option.isSome_map⟩
      · exact absurd rfl hop

theorem akin_afterAll (hΓ : ∀ x, Γ.Foreign x → Steady x) {ops : List ReadOp}
    (hops : .handOver ∉ ops) (r : InStream) : r.Akin (afterAll Γ ops r) := by
  induction ops generalizing r with
  | nil => exact .refl r
  | cons op ops ih =>
      rw [List.mem_cons, not_or] at hops
      exact (akin_after hΓ (Ne.symm hops.1) r).trans (ih hops.2 (op.after Γ r))

end ReadOp

/-! ## The numbering of objects -/

/-- The objects of the table, and all in them, have identities below the next one. -/
def InStream.Dated (r : InStream) : Prop :=
  ∀ serial object, r.held? serial = some object → ∀ n ∈ object.nodes, n.id < r.nextObject

/-- Between two states of a dated stream identities are given out in order, and the nodes at hand
have none but such. -/
def Issues (c : Context) (r r' : InStream) (ns : List Node) : Prop :=
  r.context = c → r.Dated →
    r'.context = c ∧ r'.Dated ∧ r.nextObject ≤ r'.nextObject ∧ ∀ n ∈ ns, n.id < r'.nextObject

theorem issues_of_held {r r' : InStream} (hcontext : r'.context = r.context)
    (hheld : ∀ serial object, r'.held? serial = some object → r.held? serial = some object)
    (hnext : r'.nextObject = r.nextObject) : Issues c r r' [] := by
  refine fun hr hdated => ⟨hcontext.trans hr, fun serial object hobject n hn => ?_,
    Nat.le_of_eq hnext.symm, nofun⟩
  rw [hnext]
  exact hdated serial object (hheld serial object hobject) n hn

theorem gathers_issues (hc : c.registry.Natural) : Gathers (Issues c) where
  refl r := issues_of_held rfl (fun _ _ => id) rfl
  trans {r₀ r r' ns ns'} h h' hr hdated := by
    obtain ⟨hr, hdated, hle, hns⟩ := h hr hdated
    obtain ⟨hr', hdated', hle', hns'⟩ := h' hr hdated
    refine ⟨hr', hdated', Nat.le_trans hle hle', List.forall_mem_append.2 ⟨fun n hn => ?_, hns'⟩⟩
    exact Nat.lt_of_lt_of_le (hns n hn) hle'
  drop h hsub hr hdated := by
    obtain ⟨hr', hdated', hle, hns⟩ := h hr hdated
    exact ⟨hr', hdated', hle, fun n hn => hns n (hsub.subset hn)⟩
  cursor r cursor := issues_of_held rfl (fun _ _ => id) rfl
  noted r event := issues_of_held rfl (fun _ _ => id) rfl
  opened r tag := by
    refine issues_of_held rfl (fun serial object hobject => ?_) rfl
    rwa [InStream.held?_opened] at hobject
  made type h hr hdated := by
    obtain ⟨hr', hdated', hle, hns⟩ := h hr hdated
    refine ⟨hr', fun serial object hobject n hn => ?_, Nat.le_succ_of_le hle, ?_⟩
    · exact Nat.lt_succ_of_lt (hdated' serial object hobject n hn)
    · exact List.forall_mem_cons.2 ⟨Nat.lt_succ_self _, fun n hn => Nat.lt_succ_of_lt (hns n hn)⟩
  put tag serial h hr hdated := by
    obtain ⟨hr', hdated', hle, hns⟩ := h hr hdated
    refine ⟨hr', fun k found hfound n hn => ?_, hle, hns⟩
    obtain ⟨slot, hslot, hheld⟩ := InStream.held?_eq_some.1 hfound
    rw [InStream.slots_put, List.getElem?_set] at hslot
    split at hslot
    · split at hslot
      · cases hslot
        cases hheld
        exact hns n hn
      · cases hslot
    · exact hdated' k found (InStream.held?_eq_some.2 ⟨slot, hslot, hheld⟩) n hn
  held hobject hr hdated := ⟨hr, hdated, Nat.le_refl _, hdated _ _ hobject⟩
  converted hupcast h hr hdated := by
    subst hr
    obtain ⟨hr', hdated', hle, hns⟩ := h rfl hdated
    exact ⟨hr', hdated', hle, hc.below hupcast hns⟩

/-! ## Answers under other names -/

def ReadAnswer.relabel (ρ : Identity → Identity) : ReadAnswer → ReadAnswer
  | .value v => .value (v.relabel ρ)
  | answer => answer

theorem ReadAnswer.relabel_of_nodes {ρ : Identity → Identity} {answer : ReadAnswer}
    (h : answer.nodes = []) : answer.relabel ρ = answer := by
  cases answer with
  | value v =>
      have hv : v.nodes = [] := h
      rw [relabel, v.relabel_of_fixed (by simp [hv])]
  | _ => rfl

namespace InStream.Relabels

variable {ρ : Identity → Identity} {r r' : InStream}

/-- Streams that hold nothing differ in no identities but those to come. -/
theorem of_empty (hr : r.context = c) (hr' : r'.context = c) (hcursor : r'.cursor = r.cursor)
    (htracks : r'.tracks = r.tracks) (hslots : r.slots = []) (hslots' : r'.slots = [])
    (hnext : ∀ k, ρ (r.nextObject + k) = r'.nextObject + k) : r.Relabels c ρ r' where
  context := hr
  context' := hr'
  cursor := hcursor
  shared := by
    cases hdedup : r.tracks with
    | false =>
        rw [InStream.tracks, Option.isSome_eq_false_iff, Option.isNone_iff_eq_none] at hdedup
        rw [InStream.tracks, InStream.tracks, hdedup] at htracks
        rw [hdedup, Option.map_none]
        exact Option.not_isSome_iff_eq_none.1 (by simp [htracks])
    | true =>
        rw [shared_of_slots hdedup hslots, shared_of_slots (htracks.trans hdedup) hslots',
          Option.map_some, Array.map_empty]
  next := hnext

theorem forgotten (h : r.Relabels c ρ r') (cursor : ByteCursor) :
    Relabels c ρ { r with cursor, shared := r.shared.map fun _ => #[] }
      { r' with cursor, shared := r'.shared.map fun _ => #[] } where
  context := h.context
  context' := h.context'
  cursor := rfl
  shared := by
    dsimp only
    rw [h.shared]
    cases r.shared with
    | none => rfl
    | some table => simp only [Option.map_some, Array.map_empty]
  next := h.next

end InStream.Relabels

namespace ReadOp

variable {ρ : Identity → Identity} {r r' : InStream}

theorem twin_run (hc : c.registry.Natural)
    (hΓ : ∀ x, Γ.Foreign x → Twin c ρ (Value.relabel ρ) x x) (op : ReadOp) :
    Twin c ρ (ReadAnswer.relabel ρ) (op.run Γ) (op.run Γ) := by
  cases op.does Γ with
  | primitive hx hrun hnodes =>
      rw [hrun]
      exact (Twin.primitive hx).bind fun a =>
        .pure (ReadAnswer.relabel_of_nodes (hnodes a)).symm
  | value t hop =>
      subst hop
      exact (Twin.decode hc hΓ t).bind fun _ => .pure rfl
  | fields t hop =>
      subst hop
      exact (Twin.decodeFields hc hΓ t).bind fun _ => .pure rfl
  | forgets hop =>
      intro r r' hr
      have hforgotten := hr.forgotten
      rcases hop with rfl | rfl
      · refine .inl ⟨.done, _, _, rfl, rfl, ?_⟩
        rw [hr.cursor]
        exact hforgotten _
      · refine .inl ⟨.bytes r.cursor.data, _, _, rfl, ?_, hforgotten .spent⟩
        rw [← hr.cursor]
        rfl

/-- What a caller sees of a history: what each operation answers, and the position after it. -/
def shows (Γ : Schema) : List ReadOp → InStream → List (Except StreamError ReadAnswer × Nat)
  | [], _ => []
  | op :: ops, r => (outcome (op.run Γ r), (op.after Γ r).pos) :: shows Γ ops (op.after Γ r)

def relabelAll (ρ : Identity → Identity) (seen : List (Except StreamError ReadAnswer × Nat)) :
    List (Except StreamError ReadAnswer × Nat) :=
  seen.map fun q => (q.1.map (ReadAnswer.relabel ρ), q.2)

/-- An operation does the same on streams that differ in identities, and they still differ in these
alone. -/
theorem after_relabels (hc : c.registry.Natural)
    (hΓ : ∀ x, Γ.Foreign x → Twin c ρ (Value.relabel ρ) x x) (op : ReadOp)
    (hr : r.Relabels c ρ r') :
    (op.after Γ r).Relabels c ρ (op.after Γ r') ∧
      outcome (op.run Γ r') = (outcome (op.run Γ r)).map (ReadAnswer.relabel ρ) ∧
      op.yields Γ r' = (op.yields Γ r).map (Value.relabel ρ) := by
  unfold after yields
  rcases twin_run hc hΓ op r r' hr with ⟨a, s, s', hrun, hrun', hs⟩ | ⟨e, s, s', hrun, hrun', hs⟩
  · rw [hrun, hrun']
    refine ⟨hs, rfl, ?_⟩
    cases a <;> rfl
  · rw [hrun, hrun']
    exact ⟨hs, rfl, rfl⟩

/-- On streams that differ in identities a caller sees the same but for identities. -/
theorem shows_relabels (hc : c.registry.Natural)
    (hΓ : ∀ x, Γ.Foreign x → Twin c ρ (Value.relabel ρ) x x) (ops : List ReadOp)
    (hr : r.Relabels c ρ r') :
    shows Γ ops r' = relabelAll ρ (shows Γ ops r) ∧
      returned Γ ops r' = (returned Γ ops r).map (Value.relabel ρ) := by
  induction ops generalizing r r' with
  | nil => exact ⟨rfl, rfl⟩
  | cons op ops ih =>
      obtain ⟨hafter, houtcome, hyields⟩ := after_relabels hc hΓ op hr
      obtain ⟨hshows, hreturned⟩ := ih hafter
      simp only [shows, returned, relabelAll, List.map_cons, List.map_append] at hshows ⊢
      rw [houtcome, hyields, hshows, hreturned, InStream.pos, InStream.pos, hafter.cursor]
      exact ⟨rfl, rfl⟩

/-- A stream that holds nothing returns none but new objects. -/
theorem nextObject_le_returned (hc : c.registry.Natural)
    (hΓ : ∀ x, Γ.Foreign x → ∀ ρ, Twin c ρ (Value.relabel ρ) x x) (ops : List ReadOp)
    (hr : r.context = c) (hslots : r.slots = []) :
    ∀ n ∈ Value.nodesIn (returned Γ ops r), r.nextObject ≤ n.id := by
  -- The stream is the same under other names for the identities below the next one.
  let ρ : Identity → Identity := fun id => if r.nextObject ≤ id then id else r.nextObject
  have hself : r.Relabels c ρ r := .of_empty hr hr rfl rfl hslots hslots fun k =>
    if_pos (Nat.le_add_right _ _)
  have hreturned := (shows_relabels hc (fun x hx => hΓ x hx ρ) ops hself).2
  have hfixed : (Value.list (returned Γ ops r)).relabel ρ = .list (returned Γ ops r) := by
    rw [Value.relabel_list, ← hreturned]
  intro n hn
  by_contra hlt
  have hid := (Value.relabel_eq_self_iff _).1 hfixed n hn
  rw [show ρ n.id = r.nextObject from if_neg hlt] at hid
  exact hlt (Nat.le_of_eq hid)

end ReadOp

/-! ## Starting afresh -/

/-- The writers and readers that come with types and fields, and the conversions of the context,
keep to what a stream offers: they leave alone what it was set up with, they do not depend on what
was observed, and identities are nothing to them but names that the stream gives out. -/
structure Schema.Discreet (Γ : Schema) (c : Context) : Prop where
  blind : Γ.Blind
  writers : ∀ p codec, Γ.partCodec? p = some codec → ∀ v, (codec.write v).Steady
  readers : ∀ x, Γ.Foreign x → Steady x
  names : ∀ x, Γ.Foreign x → ∀ ρ, Twin c ρ (Value.relabel ρ) x x
  issues : ∀ x, Γ.Foreign x → Gives (Issues c) [] x Value.nodes
  conversions : c.registry.Natural

/-- Derived types come with no writers and readers, so that the conversions alone matter. -/
theorem Schema.Discreet.of_derived {types : List (String × Declaration)}
    {order : Ty → KeyOrder}
    (h : ∀ q ∈ types, ∃ item, q.2 = .derived item) (hc : c.registry.Natural) :
    Schema.Discreet ⟨types, [], order⟩ c := by
  have hcodec (p : Part) (codec : Codec) : Schema.partCodec? ⟨types, [], order⟩ p ≠ some codec := by
    rw [Schema.partCodec?_of_derived h]
    nofun
  have hforeign (x : Reader Value) : ¬ Schema.Foreign ⟨types, [], order⟩ x :=
    Schema.not_foreign_of_derived h x
  exact ⟨fun p codec h => absurd h (hcodec p codec), fun p codec h => absurd h (hcodec p codec),
    fun x hx => absurd hx (hforeign x), fun x hx => absurd hx (hforeign x),
    fun x hx => absurd hx (hforeign x), hc⟩

/-- Whatever is done with the two streams, a caller sees the same but for the identities of objects,
and pointers to one object on the second stream are pointers to one object on the first. -/
def InStream.Indistinct (Γ : Schema) (r r' : InStream) : Prop :=
  ∃ ρ : Identity → Identity, ∀ later,
    ReadOp.shows Γ later r' = ReadOp.relabelAll ρ (ReadOp.shows Γ later r) ∧
      ∀ n ∈ Value.nodesIn (ReadOp.returned Γ later r),
        ∀ m ∈ Value.nodesIn (ReadOp.returned Γ later r), ρ n.id = ρ m.id → n.id = m.id

/-- Streams start afresh when they are cleared, hand over what was written, or are rewound. -/
structure Schema.Resets (Γ : Schema) (c : Context) : Prop where
  /-- After any history, an output stream goes on as a new one with the same limit. -/
  emptied : ∀ (sink : ByteSink) (journal : Journal) (ops : List WriteOp) (op : WriteOp),
    op = .clear ∨ op = .handOver → ∀ (journal' : Journal) (later : List WriteOp),
      WriteOp.shows Γ later (op.after Γ (WriteOp.afterAll Γ ops (.ofSink c sink journal))) =
        WriteOp.shows Γ later (.ofSink c sink.clear journal')
  /-- After any history, an input stream goes on as a new one over the same bytes. -/
  rewound : ∀ (bytes : ByteArray) (next : Identity) (journal : Journal) (ops : List ReadOp),
    .handOver ∉ ops → ∀ (next' : Identity) (journal' : Journal),
      InStream.Indistinct Γ (.ofBytes c bytes next' journal')
        (ReadOp.rewind.after Γ (ReadOp.afterAll Γ ops (.ofBytes c bytes next journal)))
  /-- What is read then are none of the objects that were returned before, or are in the table. -/
  apart : ∀ (bytes : ByteArray) (next : Identity) (journal : Journal) (ops later : List ReadOp),
    let r := ReadOp.afterAll Γ ops (.ofBytes c bytes next journal)
    ∀ n ∈ Value.nodesIn (ReadOp.returned Γ later (ReadOp.rewind.after Γ r)),
      (∀ m ∈ Value.nodesIn (ReadOp.returned Γ ops (.ofBytes c bytes next journal)), m.id ≠ n.id) ∧
      ∀ serial object, r.held? serial = some object → ∀ m ∈ object.nodes, m.id ≠ n.id

namespace Schema.Discreet

/-- A history gives out identities in order. -/
theorem issues_returned (hΓ : Γ.Discreet c) (ops : List ReadOp) (r : InStream) :
    Issues c r (ReadOp.afterAll Γ ops r) (Value.nodesIn (ReadOp.returned Γ ops r)) := by
  refine gathers_returned (gathers_issues hΓ.conversions) hΓ.issues (fun r cursor => ?_) ops r
  refine issues_of_held rfl (fun serial object hobject => ?_) rfl
  rw [InStream.held?_forgotten] at hobject
  cases hobject

/-- A rewound stream holds nothing. -/
theorem slots_rewound (r : InStream) : (ReadOp.rewind.after Γ r).slots = [] := by
  obtain ⟨cursor, hafter⟩ := ReadOp.after_forget (Γ := Γ) (.inl rfl) r
  rw [hafter, InStream.slots]
  cases r.shared <;> rfl

/-- A rewound stream differs from a new one in the identities of the objects to come. -/
theorem indistinct_rewound (hΓ : Γ.Discreet c) {bytes : ByteArray} {next : Identity}
    {journal : Journal} {r : InStream} (hr : (InStream.ofBytes c bytes next journal).Akin r)
    (next' : Identity) (journal' : Journal) :
    InStream.Indistinct Γ (.ofBytes c bytes next' journal') (ReadOp.rewind.after Γ r) := by
  let fresh := InStream.ofBytes c bytes next' journal'
  let ρ : Identity → Identity := fun id => r.nextObject + (id - next')
  have hslots : fresh.slots = [] := InStream.slots_ofBytes c bytes next' journal'
  have hrelabels : fresh.Relabels c ρ (ReadOp.rewind.after Γ r) := by
    refine .of_empty rfl hr.context ?_ ?_ hslots (slots_rewound r) fun k => ?_
    · have hdata : r.cursor.data = bytes := hr.data
      exact congrArg (fun data => (⟨data, 0⟩ : ByteCursor)) hdata
    · have htracks := hr.tracks
      rw [InStream.tracks_ofBytes] at htracks ⊢
      rw [← htracks]
      exact Option.isSome_map
    · show r.nextObject + (next' + k - next') = r.nextObject + k
      rw [Nat.add_sub_cancel_left]
  refine ⟨ρ, fun later => ⟨?_, fun n hn m hm hid => ?_⟩⟩
  · exact (ReadOp.shows_relabels hΓ.conversions (fun x hx => hΓ.names x hx ρ) later hrelabels).1
  · have hnew := ReadOp.nextObject_le_returned hΓ.conversions hΓ.names later rfl hslots
    have hn' : next' ≤ n.id := hnew n hn
    have hm' : next' ≤ m.id := hnew m hm
    have hrank : n.id - next' = m.id - next' := Nat.add_left_cancel hid
    rw [← Nat.sub_add_cancel hn', hrank, Nat.sub_add_cancel hm']

/-- Streams that are cleared, hand over what was written, or are rewound keep nothing of their
past. -/
theorem resets (hΓ : Γ.Discreet c) : Γ.Resets c where
  emptied sink journal ops op hop journal' later :=
    WriteOp.shows_congr hΓ.blind later <|
      WriteOp.unobserved_emptied (WriteOp.akin_afterAll hΓ.writers ops _) hop
  rewound bytes next journal ops hops next' journal' :=
    hΓ.indistinct_rewound (ReadOp.akin_afterAll hΓ.readers hops _) next' journal'
  apart bytes next journal ops later := by
    intro r n hn
    have hdated : (InStream.ofBytes c bytes next journal).Dated := by
      intro serial object hobject
      rw [InStream.held?, InStream.slots_ofBytes] at hobject
      cases hobject
    obtain ⟨hcontext, htable, -, hreturned⟩ := hΓ.issues_returned ops _ rfl hdated
    have hrewound : (ReadOp.rewind.after Γ r).context = c := hcontext
    have hnew := ReadOp.nextObject_le_returned hΓ.conversions hΓ.names later hrewound
      (slots_rewound r) n hn
    refine ⟨fun m hm => ?_, fun serial object hobject m hm => ?_⟩
    · exact Nat.ne_of_lt (Nat.lt_of_lt_of_le (hreturned m hm) hnew)
    · exact Nat.ne_of_lt (Nat.lt_of_lt_of_le (htable serial object hobject m hm) hnew)

end Schema.Discreet

/-! ## Parcels -/

theorem Codec.composed_blob (v : Value) : (Codec.blob.write v).Composed := by
  simp only [Codec.blob]
  split
  · exact .atomic (.blob _)
  · exact .throw _

/-- There are no pointers in raw bytes. -/
theorem Value.nodes_ofBytes (bytes : List UInt8) : (Value.ofBytes bytes).nodes = [] := by
  rw [ofBytes, nodes, nodesIn_eq, List.flatMap_map]
  exact List.flatMap_eq_nil_iff.2 fun _ _ => rfl

namespace Sample

theorem natural_parcelTracked : parcelTracked.registry.Natural := by
  intro tag target upcast hupcast ρ v
  simp only [parcelTracked, Registry.upcast?_enter] at hupcast
  split at hupcast
  · cases hupcast
    rfl
  · cases hupcast

/-- Raw bytes are written and read with what a stream offers. -/
theorem discreet_parcels : parcels.Discreet parcelTracked where
  blind p codec hcodec v := by
    rw [Schema.eq_of_partCodec? derived_parcels rfl hcodec]
    exact (Codec.composed_blob v).blind
  writers p codec hcodec v := by
    rw [Schema.eq_of_partCodec? derived_parcels rfl hcodec]
    exact (Codec.composed_blob v).steady
  readers x hx := by
    rw [Schema.eq_of_foreign derived_parcels rfl hx]
    exact (Steady.of_still rudiments_still.blob).bind fun bytes => .pure _
  names x hx ρ := by
    rw [Schema.eq_of_foreign derived_parcels rfl hx]
    refine (Twin.head .blob).bind fun bytes => .pure (Eq.symm ?_)
    exact Value.relabel_of_fixed _ (by simp [Value.nodes_ofBytes])
  issues x hx := by
    have hissues := gathers_issues natural_parcelTracked
    rw [Schema.eq_of_foreign derived_parcels rfl hx]
    refine (Gives.head hissues .blob).bind fun bytes => .pure hissues ?_
    rw [Value.nodes_ofBytes]
  conversions := natural_parcelTracked

/-- A pair is read, another one is not there, a text is looked for in the middle, and a reference
is read as a pair. -/
def detour : List ReadOp :=
  [.value parcelPair, .value parcelPair, .seek 3, .str, .seek 14, .value parcelPair]

end Sample

/-- After a detour a pair of pointers to one parcel is read again as a new one. -/
theorem resets_parcels :
    let start := InStream.ofBytes Sample.parcelTracked (packed Sample.plainTwins) 0 none
    let r := ReadOp.afterAll Sample.parcels Sample.detour start
    let again := ReadOp.returned Sample.parcels [.value Sample.parcelPair]
    (Value.nodesIn (ReadOp.returned Sample.parcels Sample.detour start)).map Node.id = [0, 0] ∧
      (Value.nodesIn (again (ReadOp.rewind.after Sample.parcels r))).map Node.id = [1, 1] ∧
      (Value.nodesIn (again start)).map Node.id = [0, 0] ∧
      Sample.parcels.Discreet Sample.parcelTracked ∧
      Sample.parcels.Resets Sample.parcelTracked := by
  intro start r again
  refine ⟨?_, ?_, ?_, Sample.discreet_parcels, Schema.Discreet.resets Sample.discreet_parcels⟩
  all_goals decide +kernel

end ObjectStream
