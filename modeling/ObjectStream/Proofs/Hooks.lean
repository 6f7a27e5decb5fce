import ObjectStream.Proofs.Comparing
import ObjectStream.Proofs.Halting
import ObjectStream.Proofs.Lenient
import ObjectStream.Proofs.Shortest

/-!
# Options of types with a writer of their own

A type that comes with a writer and a reader says how its options are written and read.
If it leaves them as they are, nil is written for what is absent, and what is present as
it is by itself. Then what is asked of the writer and the reader of its options follows
from what is asked of its own, and a schema all of whose types do so has to be looked at
for its types alone.
-/

namespace ObjectStream

namespace Codec

variable {codec : Codec} {c : Context} {v : Value}

/-- What all writers have that are put together from pieces. -/
theorem closed_hooks {M : {α : Type} → Writer α → Prop} (hM : Writer.Closed M)
    (h : ∀ v, M (codec.write v)) (v : Value) : M (codec.hooks.codec.write v) := by
  cases v with
  | absent => exact hM.atomic .nil
  | present v => exact h v
  | _ => exact hM.throw _

/-- What all readers have that are put together from pieces. -/
theorem pieces_hooks {M : {α : Type} → Reader α → Prop} (hM : Reader.Pieces M)
    (h : M codec.read) : M codec.hooks.codec.read := hM.nilOr h

/-- What is present is read back if it does not start like nil. -/
theorem keeps_present (h : codec.Keeps c v StartsValue) :
    codec.hooks.codec.Keeps c (.present v) (· ≠ []) := by
  intro s s' hc hwritten
  obtain ⟨bytes, happend, hlead, htakes⟩ := h s s' hc hwritten
  refine ⟨bytes, happend, hlead.ne_nil, fun r tail hr hrest => ?_⟩
  obtain ⟨code, rest, hcons, hcode⟩ := hlead.append tail
  have hread := htakes r tail hr hrest
  simp only [hooks, OptionHooks.codec, Reader.nilOr, bind, EStateM.bind,
    Reader.peek_of_rest (hrest.trans hcons), if_neg hcode, hread]
  rfl

theorem OneValue.hooks (h : codec.OneValue c) : codec.hooks.codec.OneValue c := by
  refine .of_counts (counts_nilOr h.counts_read) fun v => ?_
  cases v with
  | absent => exact .absent .unit
  | present v => exact h.counts_write v
  | _ => exact .throw _

/-- A reader that takes at least a byte takes one for what is absent too. -/
theorem Paced.hooks (h : codec.Paced c) : codec.hooks.codec.Paced c := by
  intro r hc hr
  have hkeeps : Reader.Keeps c (r.cursor.remaining + 1) 1 codec.read codec.read :=
    fun r hc hr _ => ⟨rfl, h r hc hr⟩
  exact (hkeeps.nilOr r hc hr (Nat.lt_succ_self _)).2

theorem lenient_hooks (h : Reader.Lenient codec.read) : Reader.Lenient codec.hooks.codec.read :=
  fun n => (h n).nilOr

theorem shortens_hooks (h : Reader.Shortens c codec.read codec.write) :
    Reader.Shortens c codec.hooks.codec.read codec.hooks.codec.write :=
  shortens_nilOr (.nil (Nat.le_refl 1)) h

end Codec

namespace Schema

variable {Γ : Schema} {c : Context}

/-- The types that come with a writer and a reader leave their options as they are. -/
def LeavesOptions (Γ : Schema) : Prop :=
  ∀ name codec hooks, Γ.types.lookup name = some (.custom codec hooks) → hooks = codec.hooks

def OfTypes (Γ : Schema) (P : Codec → Prop) : Prop :=
  ∀ name codec hooks, Γ.types.lookup name = some (.custom codec hooks) → P codec

def OfRules (Γ : Schema) (P : Codec → Prop) : Prop :=
  ∀ path codec, Γ.rule? path = some codec → P codec

namespace LeavesOptions

/-- What passes from a type to its options holds of all that comes with types and options. -/
theorem codec? (hΓ : Γ.LeavesOptions) {P : Codec → Prop}
    (hooks : ∀ codec, P codec → P codec.hooks.codec) (h : Γ.OfTypes P) {t : Ty} {codec : Codec}
    (hcodec : Γ.codec? t = some codec) : P codec := by
  rcases codec?_cases hcodec with ⟨_, _, _, -, hlookup⟩ | ⟨_, _, _, _, -, hlookup, rfl⟩
  · exact h _ _ _ hlookup
  · obtain rfl := hΓ _ _ _ hlookup
    exact hooks _ (h _ _ _ hlookup)

theorem partCodec? (hΓ : Γ.LeavesOptions) {P : Codec → Prop}
    (hooks : ∀ codec, P codec → P codec.hooks.codec) (htypes : Γ.OfTypes P) (hrules : Γ.OfRules P)
    (p : Part) (codec : Codec) (hcodec : Γ.partCodec? p = some codec) : P codec := by
  cases p with
  | whole t => exact hΓ.codec? hooks htypes hcodec
  | fields t => cases hcodec
  | rule path t => exact hrules path codec hcodec

/-- What all readers have that are put together from pieces passes to the options too. -/
theorem foreign (hΓ : Γ.LeavesOptions) {M : {α : Type} → Reader α → Prop} (hM : Reader.Pieces M)
    (htypes : Γ.OfTypes fun codec => M codec.read) (hrules : Γ.OfRules fun codec => M codec.read)
    (x : Reader Value) (hx : Γ.Foreign x) : M x := by
  cases hx with
  | type hcodec => exact hΓ.codec? (fun _ => Codec.pieces_hooks hM) htypes hcodec
  | rule hrule => exact hrules _ _ hrule

theorem composed (hΓ : Γ.LeavesOptions)
    (htypes : Γ.OfTypes fun codec => ∀ v, (codec.write v).Composed)
    (hrules : Γ.OfRules fun codec => ∀ v, (codec.write v).Composed) : Γ.Composed where
  types _ _ := hΓ.codec? (fun _ => Codec.closed_hooks Writer.Composed.closed) htypes
  rules := hrules

/-- Nil stands for what is absent, so it can be told from nil nowhere. -/
theorem telling (hΓ : Γ.LeavesOptions) (hcomposed : Γ.Composed) : Γ.Telling where
  composed := hcomposed
  absent t codec hcodec := by
    rcases codec?_cases hcodec with ⟨_, _, _, htype, -⟩ | ⟨_, _, _, _, -, hlookup, rfl⟩
    · cases htype
    · obtain rfl := hΓ _ _ _ hlookup
      exact .inl rfl

theorem lenient (hΓ : Γ.LeavesOptions) (htypes : Γ.OfTypes fun codec => Reader.Lenient codec.read)
    (hrules : Γ.OfRules fun codec => Reader.Lenient codec.read) : Γ.Lenient :=
  .of_codecs (fun _ _ => hΓ.codec? (fun _ => Codec.lenient_hooks) htypes) hrules

theorem paced (hΓ : Γ.LeavesOptions) (htypes : Γ.OfTypes (Codec.Paced · c))
    (hrules : Γ.OfRules (Codec.Paced · c)) (p : Part) : Γ.Paced c p :=
  .of_all (hΓ.partCodec? (fun _ => Codec.Paced.hooks) htypes hrules) p

theorem oneValued (hΓ : Γ.LeavesOptions) (htypes : Γ.OfTypes (Codec.OneValue · c))
    (hrules : Γ.OfRules (Codec.OneValue · c))
    (hbases : ∀ name args item fields, Γ.plan? name = some (item, .struct false fields) →
      Γ.Nests baseDepth (.named name args)) (p : Part) : Γ.OneValued c p :=
  .of_all (hΓ.partCodec? (fun _ => Codec.OneValue.hooks) htypes hrules) hbases p

theorem concise (hΓ : Γ.LeavesOptions)
    (htypes : Γ.OfTypes fun codec => Reader.Shortens c codec.read codec.write)
    (hrules : Γ.OfRules fun codec => Reader.Shortens c codec.read codec.write) {p : Part}
    (hplain : ∀ t, Relation.ReflTransGen (Γ.Component c) p (.whole t) →
      t.deref = t ∧ t.isPointer = false ∧ t ≠ .scalar .float64) : Γ.Concise c p where
  codecs q codec _ := hΓ.partCodec? (fun _ => Codec.shortens_hooks) htypes hrules q codec
  types := hplain

/-- A value that is read back by itself and does not start like nil is one within an option. -/
theorem fits (hΓ : Γ.LeavesOptions) {H : Heap} {key : Bool} {name : String} {args : List Ty}
    {codec : Codec} {hooks : OptionHooks} {v : Value}
    (hlookup : Γ.types.lookup name = some (.custom codec hooks))
    (hkeeps : codec.Keeps c v StartsValue) (hplain : ∀ seen, v.sightings seen = []) :
    Fits Γ c H key (.whole (.option (.named name args))) .absent ∧
      Fits Γ c H key (.whole (.option (.named name args))) (.present v) := by
  obtain rfl := hΓ _ _ _ hlookup
  have hcodec : Γ.codec? (.option (.named name args)) = some codec.hooks.codec := by
    simp only [Schema.codec?, hlookup]
  exact ⟨.custom hcodec (.absentOther _) fun _ => rfl,
    .custom hcodec (Codec.keeps_present hkeeps) hplain⟩

end LeavesOptions

end Schema

end ObjectStream
