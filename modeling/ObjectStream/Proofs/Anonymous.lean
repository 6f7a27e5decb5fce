import ObjectStream.Proofs.Gathering
import ObjectStream.Proofs.Stream

/-!
# Values without identities

A stream that does not track shared objects has no use for their identities:
values that are equal up to identities are written alike. So what holds of the
values of a type against some heap holds of the values with any identities, as
each occurrence of an object may be given one of its own.
-/

namespace ObjectStream

namespace Value

mutual

def anonymous : Value → Value
  | .list vs => .list (anonymousIn vs)
  | .present v => .present (anonymous v)
  | .variant index vs => .variant index (anonymousIn vs)
  | .shared _ type body => .shared 0 type (anonymous body)
  | .unique type body => .unique type (anonymous body)
  | v => v

def anonymousIn : List Value → List Value
  | [] => []
  | v :: vs => anonymous v :: anonymousIn vs

end

theorem anonymousIn_eq (vs : List Value) : anonymousIn vs = vs.map anonymous := by
  induction vs with
  | nil => rfl
  | cons v vs ih => rw [anonymousIn, ih, List.map_cons]

mutual

/-- A value without shared objects is the same without identities. -/
theorem anonymous_of_nodes (v : Value) (h : v.nodes = []) : v.anonymous = v := by
  cases v with
  | list vs => rw [anonymous, anonymousIn_of_nodes vs h]
  | present v => rw [anonymous, anonymous_of_nodes v h]
  | variant index vs => rw [anonymous, anonymousIn_of_nodes vs h]
  | shared id type body => cases h
  | unique type body => rw [anonymous, anonymous_of_nodes body h]
  | scalar | errorCode | absent => rfl

theorem anonymousIn_of_nodes (vs : List Value) (h : nodesIn vs = []) : anonymousIn vs = vs := by
  cases vs with
  | nil => rfl
  | cons v vs =>
      obtain ⟨hv, hvs⟩ := List.append_eq_nil_iff.1 h
      rw [anonymousIn, anonymous_of_nodes v hv, anonymousIn_of_nodes vs hvs]

end

mutual

theorem length_nodes_anonymous (v : Value) : v.anonymous.nodes.length = v.nodes.length := by
  cases v with
  | list vs => exact length_nodesIn_anonymous vs
  | present v => exact length_nodes_anonymous v
  | variant index vs => exact length_nodesIn_anonymous vs
  | shared id type body => exact congrArg (· + 1) (length_nodes_anonymous body)
  | unique type body => exact length_nodes_anonymous body
  | scalar | errorCode | absent => rfl

theorem length_nodesIn_anonymous (vs : List Value) :
    (nodesIn (anonymousIn vs)).length = (nodesIn vs).length := by
  cases vs with
  | nil => rfl
  | cons v vs =>
      rw [anonymousIn, nodesIn, nodesIn, List.length_append, List.length_append,
        length_nodes_anonymous v, length_nodesIn_anonymous vs]

end

/-- A value that differs from one without shared objects in identities alone does not differ. -/
theorem eq_of_anonymous {u v : Value} (hu : u.nodes = []) (h : v.anonymous = u.anonymous) :
    v = u := by
  have hv : v.nodes = [] := by
    have hlength := length_nodes_anonymous v
    rw [h, length_nodes_anonymous, hu] at hlength
    exact List.eq_nil_of_length_eq_zero hlength.symm
  rw [← anonymous_of_nodes v hv, h, anonymous_of_nodes u hu]

mutual

/-- A value in which no object is sighted has none. -/
theorem nodes_of_sightings (v : Value) (seen : List Identity) (h : v.sightings seen = []) :
    v.nodes = [] := by
  cases v with
  | list vs => exact nodesIn_of_sightings vs seen h
  | present v => exact nodes_of_sightings v seen h
  | variant index vs => exact nodesIn_of_sightings vs seen h
  | shared id type body =>
      rw [sightings] at h
      split at h <;> cases h
  | unique type body => exact nodes_of_sightings body seen h
  | scalar | errorCode | absent => rfl

theorem nodesIn_of_sightings (vs : List Value) (seen : List Identity)
    (h : sightingsIn seen vs = []) : nodesIn vs = [] := by
  cases vs with
  | nil => rfl
  | cons v vs =>
      obtain ⟨hv, hvs⟩ := List.append_eq_nil_iff.1 h
      rw [hv] at hvs
      rw [nodesIn, nodes_of_sightings v seen hv, nodesIn_of_sightings vs seen hvs]
      rfl

end

section Shapes

variable {v : Value}

theorem list_of_anonymous {us : List Value} (h : v.anonymous = (Value.list us).anonymous) :
    ∃ vs, v = .list vs ∧ vs.map anonymous = us.map anonymous := by
  cases v with
  | list vs =>
      refine ⟨vs, rfl, ?_⟩
      rw [← anonymousIn_eq, ← anonymousIn_eq]
      exact Value.list.inj h
  | _ => cases h

theorem variant_of_anonymous {index : Nat} {us : List Value}
    (h : v.anonymous = (Value.variant index us).anonymous) :
    ∃ vs, v = .variant index vs ∧ vs.map anonymous = us.map anonymous := by
  cases v with
  | variant i vs =>
      obtain ⟨rfl, hvs⟩ := Value.variant.inj h
      refine ⟨vs, rfl, ?_⟩
      rw [← anonymousIn_eq, ← anonymousIn_eq, hvs]
  | _ => cases h

theorem present_of_anonymous {u : Value} (h : v.anonymous = (Value.present u).anonymous) :
    ∃ w, v = .present w ∧ w.anonymous = u.anonymous := by
  cases v with
  | present w => exact ⟨w, rfl, Value.present.inj h⟩
  | _ => cases h

theorem shared_of_anonymous {id : Identity} {type : Ty} {u : Value}
    (h : v.anonymous = (Value.shared id type u).anonymous) :
    ∃ id' w, v = .shared id' type w ∧ w.anonymous = u.anonymous := by
  cases v with
  | shared id' type' w =>
      obtain ⟨-, rfl, hw⟩ := Value.shared.inj h
      exact ⟨id', w, rfl, hw⟩
  | _ => cases h

theorem unique_of_anonymous {type : Ty} {u : Value}
    (h : v.anonymous = (Value.unique type u).anonymous) :
    ∃ w, v = .unique type w ∧ w.anonymous = u.anonymous := by
  cases v with
  | unique type' w =>
      obtain ⟨rfl, hw⟩ := Value.unique.inj h
      exact ⟨w, rfl, hw⟩
  | _ => cases h

end Shapes

end Value

variable {Γ : Schema} {c : Context} {H : Heap}

/-! ## Writing without identities -/

/-- On a stream that does not track objects the writers do the same. -/
def Agree (c : Context) (x y : Writer Unit) : Prop :=
  ∀ s, s.context = c → s.tracks = false → x s = y s

/-- A stream without a table is coherent with every heap. -/
theorem OutStream.coherent_of_not_tracks {s : OutStream} (hs : s.context = c)
    (htracks : s.tracks = false) : s.Coherent c H where
  context := hs
  nodup := by
    rw [entered_of_not_tracks htracks]
    exact List.nodup_nil
  found table id tag serial hshared _ := by
    rw [tracks, hshared] at htracks
    cases htracks
  known table id hshared _ := by
    rw [tracks, hshared] at htracks
    cases htracks

namespace Agree

theorem refl (x : Writer Unit) : Agree c x x := fun _ _ _ => rfl

/-- Behind a writer of values the stream still does not track objects. -/
theorem seq {x x' y y' : Writer Unit} {sight : List Identity → List Identity}
    {lead : List UInt8 → Prop} (hw : Writes c H sight lead x) (hx : Agree c x x')
    (hy : Agree c y y') : Agree c (do x; y) (do x'; y') := by
  intro s hs htracks
  simp only [bind, EStateM.bind]
  rw [← hx s hs htracks]
  cases hres : x s with
  | error e s' => rfl
  | ok a s' =>
      obtain ⟨bytes, -, hwrote⟩ := hw s s' (OutStream.coherent_of_not_tracks hs htracks) hres
      exact hy s' hwrote.coherent.context (hwrote.tracks.trans htracks)

theorem spell (f : Form) {y y' : Writer Unit} (hy : Agree c y y') :
    Agree c (do Writer.spell f; y) (do Writer.spell f; y') := by
  intro s hs htracks
  simp only [bind, EStateM.bind]
  cases hres : Writer.spell f s with
  | error e s' => rfl
  | ok a s' =>
      obtain rfl := Writer.spell_ok hres
      exact hy _ hs htracks

theorem ite {P : Prop} [Decidable P] {x x' y y' : Writer Unit} (hx : Agree c x x')
    (hy : Agree c y y') : Agree c (if P then x else y) (if P then x' else y') := by
  split
  · exact hx
  · exact hy

/-- Headers are spelled or refused. -/
theorem arrayHeader (n : Nat) {y y' : Writer Unit} (hy : Agree c y y') :
    Agree c (do Writer.arrayHeader n; y) (do Writer.arrayHeader n; y') := by
  rw [Writer.arrayHeader_eq]
  split
  · exact spell _ hy
  · exact refl _

theorem mapHeader (n : Nat) {y y' : Writer Unit} (hy : Agree c y y') :
    Agree c (do Writer.mapHeader n; y) (do Writer.mapHeader n; y') := by
  rw [Writer.mapHeader_eq]
  split
  · exact spell _ hy
  · exact refl _

theorem unique (type : Ty) {x y : Writer Unit} (h : Agree c x y) :
    Agree c (Writer.unique type x) (Writer.unique type y) := by
  intro s hs htracks
  simp only [Writer.unique, bind, EStateM.bind, Writer.requireTag]
  cases s.context.registry.requireTag type with
  | error e => rfl
  | ok tag =>
      dsimp only
      rw [Writer.taggedBody_eq, Writer.taggedBody_eq]
      exact spell _ (spell _ h) s hs htracks

theorem shared (id id' : Identity) (type : Ty) {x y : Writer Unit} (h : Agree c x y) :
    Agree c (Writer.shared id type x) (Writer.shared id' type y) := by
  intro s hs htracks
  have hnone : s.shared = none := by rwa [OutStream.tracks, Option.isSome_eq_false_iff,
    Option.isNone_iff_eq_none] at htracks
  rw [Writer.shared_run, Writer.shared_run, hnone]
  cases s.context.registry.requireTag type with
  | error e => rfl
  | ok tag =>
      dsimp only
      rw [Writer.taggedBody_eq, Writer.taggedBody_eq]
      exact spell _ (spell _ h) s hs htracks

end Agree

/-- Where objects are not tracked, whatever equals the value up to identities is written as the
value is. -/
def Indifferent (Γ : Schema) (c : Context) (p : Part) (u : Value) : Prop :=
  ∀ v, v.anonymous = u.anonymous → Agree c (Γ.writePart p u) (Γ.writePart p v)

namespace Indifferent

theorem of_nodes {p : Part} {u : Value} (h : u.nodes = []) : Indifferent Γ c p u := by
  intro v hv
  rw [Value.eq_of_anonymous h hv]
  exact .refl _

/-! ### Lists -/

theorem parts {ps : List Part} {us vs : List Value} (hlen : ps.length = us.length)
    (hvs : vs.map Value.anonymous = us.map Value.anonymous)
    (hw : ∀ q ∈ ps.zip us, WritesOut Γ c H q.1 q.2)
    (h : ∀ q ∈ ps.zip us, Indifferent Γ c q.1 q.2) :
    Agree c (Γ.writeParts ps us) (Γ.writeParts ps vs) := by
  induction ps generalizing us vs with
  | nil =>
      obtain rfl : us = [] := List.eq_nil_of_length_eq_zero hlen.symm
      obtain rfl : vs = [] := List.map_eq_nil_iff.1 hvs
      exact .refl _
  | cons p ps ih =>
      cases us with
      | nil => cases hlen
      | cons u us =>
          obtain ⟨v, vs, rfl, hv, hvs⟩ := List.map_eq_cons_iff.1 hvs
          rw [List.zip_cons_cons, List.forall_mem_cons] at hw h
          exact .seq hw.1 (h.1 v hv) (ih (Nat.succ.inj hlen) hvs hw.2 h.2)

theorem entries {ps : List (String × Part)} {us vs : List Value} (hlen : ps.length = us.length)
    (hvs : vs.map Value.anonymous = us.map Value.anonymous)
    (hw : ∀ q ∈ (ps.map Prod.snd).zip us, WritesOut Γ c H q.1 q.2)
    (h : ∀ q ∈ (ps.map Prod.snd).zip us, Indifferent Γ c q.1 q.2) :
    Agree c (Γ.writeEntries ps us) (Γ.writeEntries ps vs) := by
  induction ps generalizing us vs with
  | nil =>
      obtain rfl : us = [] := List.eq_nil_of_length_eq_zero hlen.symm
      obtain rfl : vs = [] := List.map_eq_nil_iff.1 hvs
      exact .refl _
  | cons p ps ih =>
      cases us with
      | nil => cases hlen
      | cons u us =>
          obtain ⟨v, vs, rfl, hv, hvs⟩ := List.map_eq_cons_iff.1 hvs
          rw [List.map_cons, List.zip_cons_cons, List.forall_mem_cons] at hw h
          refine .seq (Writes.conveys (H := H) (Conveys.str p.1)) (.refl _) ?_
          exact .seq hw.1 (h.1 v hv) (ih (Nat.succ.inj hlen) hvs hw.2 h.2)

theorem list {t : Ty} {ps : List Part} {us : List Value}
    (hparts : Γ.parts (.whole t) us.length = some ps)
    (hw : ∀ q ∈ ps.zip us, WritesOut Γ c H q.1 q.2)
    (h : ∀ q ∈ ps.zip us, Indifferent Γ c q.1 q.2) : Indifferent Γ c (.whole t) (.list us) := by
  intro v hv
  obtain ⟨vs, rfl, hvs⟩ := Value.list_of_anonymous hv
  have hlength : vs.length = us.length := by simpa using congrArg List.length hvs
  rw [Schema.writePart_list hparts, Schema.writePart_list (hlength ▸ hparts), hlength]
  exact .arrayHeader _ (parts (Schema.length_parts hparts) hvs hw h)

/-- A set or a map is written as a header with the elements behind it. -/
theorem elements {t elem : Ty} {us : List Value}
    (ht : ∀ vs, Γ.writePart (.whole t) (.list vs) = (do
      Writer.arrayHeader vs.length
      Γ.writeParts (List.replicate vs.length (.whole elem)) vs))
    (hw : ∀ u ∈ us, WritesOut Γ c H (.whole elem) u)
    (h : ∀ u ∈ us, Indifferent Γ c (.whole elem) u) : Indifferent Γ c (.whole t) (.list us) := by
  intro v hv
  obtain ⟨vs, rfl, hvs⟩ := Value.list_of_anonymous hv
  have hlength : vs.length = us.length := by simpa using congrArg List.length hvs
  rw [ht, ht, hlength]
  refine .arrayHeader _ (parts (H := H) List.length_replicate hvs (fun q hq => ?_) fun q hq => ?_)
  all_goals
    obtain ⟨hp, hmem⟩ := mem_zip_replicate hq
    rw [hp]
  · exact hw _ hmem
  · exact h _ hmem

/-- An entry of a map is the pair of its key and its value. -/
theorem pair {t u : Ty} {k v : Value} (hk : WritesOut Γ c H (.whole t) k)
    (hv : WritesOut Γ c H (.whole u) v) (hkey : Indifferent Γ c (.whole t) k)
    (hvalue : Indifferent Γ c (.whole u) v) :
    Indifferent Γ c (.whole (.tuple [t, u])) (.list [k, v]) := by
  have hparts : Γ.parts (.whole (.tuple [t, u])) [k, v].length = some [.whole t, .whole u] := rfl
  refine list (H := H) hparts ?_ ?_ <;>
    simp only [List.zip_cons_cons, List.zip_nil_right, List.forall_mem_cons]
  · exact ⟨hk, hv, by simp⟩
  · exact ⟨hkey, hvalue, by simp⟩

theorem map {kind : TableKind} {t u : Ty} {entries : List (Value × Value)}
    (hk : ∀ e ∈ entries, WritesOut Γ c H (.whole t) e.1)
    (hv : ∀ e ∈ entries, WritesOut Γ c H (.whole u) e.2)
    (hkeys : ∀ e ∈ entries, Indifferent Γ c (.whole t) e.1)
    (hvalues : ∀ e ∈ entries, Indifferent Γ c (.whole u) e.2) :
    Indifferent Γ c (.whole (.map kind t u)) (.list (entries.map .ofPair)) := by
  refine elements (H := H) (Schema.writePart_map kind t u) ?_ ?_
  all_goals
    intro w hw
    obtain ⟨e, he, rfl⟩ := List.mem_map.1 hw
  · exact WritesOut.pair (hk e he) (hv e he)
  · exact pair (hk e he) (hv e he) (hkeys e he) (hvalues e he)

/-! ### Options and pointers -/

theorem present {t : Ty} {u : Value} (hcodec : Γ.codec? (.option t) = none)
    (hderef : t.deref = t) (h : Indifferent Γ c (.whole t) u) :
    Indifferent Γ c (.whole (.option t)) (.present u) := by
  intro v hv
  obtain ⟨w, rfl, hw⟩ := Value.present_of_anonymous hv
  rw [Schema.writePart_present u hcodec hderef, Schema.writePart_present w hcodec hderef]
  cases t.isOption with
  | true => exact .arrayHeader 1 (h w hw)
  | false => exact h w hw

theorem shared {id : Identity} {pointee type : Ty} {body : Value}
    (h : Indifferent Γ c (.whole type) body) :
    Indifferent Γ c (.whole (.shared pointee)) (.shared id type body) := by
  intro v hv
  obtain ⟨id', w, rfl, hw⟩ := Value.shared_of_anonymous hv
  rw [Schema.writePart_shared, Schema.writePart_shared]
  exact .ite (.shared _ _ _ (h w hw)) (.refl _)

theorem unique {pointee type : Ty} {body : Value} (h : Indifferent Γ c (.whole type) body) :
    Indifferent Γ c (.whole (.unique pointee)) (.unique type body) := by
  intro v hv
  obtain ⟨w, rfl, hw⟩ := Value.unique_of_anonymous hv
  rw [Schema.writePart_unique, Schema.writePart_unique]
  exact .ite (.unique _ (h w hw)) (.refl _)

/-! ### Derived types -/

section Derived

variable {name : String} {args : List Ty} {item : Item Ty} {fields : List (MarkedField Ty)}
  {us : List Value}

/-- The fields of a base. -/
theorem base {asMap : Bool} (hplan : Γ.plan? name = some (item, .struct asMap fields))
    (hlen : us.length = fields.length)
    (hw : ∀ q ∈ (fields.map (MarkedField.part (Schema.arguments item args))).zip us,
      WritesOut Γ c H q.1 q.2)
    (h : ∀ q ∈ (fields.map (MarkedField.part (Schema.arguments item args))).zip us,
      Indifferent Γ c q.1 q.2) : Indifferent Γ c (.fields (.named name args)) (.list us) := by
  intro v hv
  obtain ⟨vs, rfl, hvs⟩ := Value.list_of_anonymous hv
  rw [Schema.writePart_fields hplan, Schema.writePart_fields hplan]
  exact parts (by simp [hlen]) hvs hw h

theorem struct {asMap : Bool} (hplan : Γ.plan? name = some (item, .struct asMap fields))
    (hlen : us.length = fields.length)
    (hw : ∀ q ∈ (fields.map (MarkedField.part (Schema.arguments item args))).zip us,
      WritesOut Γ c H q.1 q.2)
    (h : ∀ q ∈ (fields.map (MarkedField.part (Schema.arguments item args))).zip us,
      Indifferent Γ c q.1 q.2) : Indifferent Γ c (.whole (.named name args)) (.list us) := by
  intro v hv
  obtain ⟨vs, rfl, hvs⟩ := Value.list_of_anonymous hv
  rw [Schema.writePart_struct hplan, Schema.writePart_struct hplan]
  refine .ite (.mapHeader _ (entries (H := H) (by simp [hlen]) hvs ?_ ?_))
    (.arrayHeader _ (parts (by simp [hlen]) hvs hw h))
  all_goals rw [List.map_map]
  · exact hw
  · exact h

theorem variant {fieldss : List (List (MarkedField Ty))} {index : Nat}
    (hplan : Γ.plan? name = some (item, .variants fieldss))
    (hfields : fieldss[index]? = some fields) (hlen : us.length = fields.length)
    (hw : ∀ q ∈ (fields.map (MarkedField.part (Schema.arguments item args))).zip us,
      WritesOut Γ c H q.1 q.2)
    (h : ∀ q ∈ (fields.map (MarkedField.part (Schema.arguments item args))).zip us,
      Indifferent Γ c q.1 q.2) :
    Indifferent Γ c (.whole (.named name args)) (.variant index us) := by
  intro v hv
  obtain ⟨vs, rfl, hvs⟩ := Value.variant_of_anonymous hv
  rw [Schema.writePart_variant rfl hplan hfields, Schema.writePart_variant rfl hplan hfields,
    Writer.uint_eq]
  exact .arrayHeader _ (.spell _ (parts (by simp [hlen]) hvs hw h))

end Derived

end Indifferent

/-- The identities in a typed value do not matter to a stream that does not track objects. -/
theorem Fits.indifferent (hc : c.WellFormed) (hΓ : Γ.WellFormed) {key : Bool} {p : Part}
    {u : Value} (h : Fits Γ c H key p u) : Indifferent Γ c p u := by
  induction h with
  | scalar | errorCode | absent | bare => exact .of_nodes rfl
  | custom _ _ hnone => exact .of_nodes (Value.nodes_of_sightings _ [] (hnone []))
  | rule _ _ hnone => exact .of_nodes (Value.nodes_of_sightings _ [] (hnone []))
  | @list key p ps us hparts hfits ih =>
      have hw (q : Part × Value) (hq : q ∈ ps.zip us) := (hfits q hq).writes hc hΓ
      cases p with
      | whole t => exact .list hparts hw ih
      | fields t =>
          have hlen := Schema.length_parts hparts
          obtain ⟨name, args, item, asMap, fields, rfl, hplan, rfl⟩ :=
            Schema.plan_of_parts_fields hparts
          rw [List.length_map] at hlen
          exact .base hplan hlen.symm hw ih
      | rule path t => cases hparts
  | struct hplan hlen hfits ih =>
      exact .struct hplan hlen (fun q hq => (hfits q hq).writes hc hΓ) ih
  | set _ _ hfits ih =>
      exact .elements (Schema.writePart_set _ _) (fun u hu => (hfits u hu).writes hc hΓ) ih
  | map _ _ hkeys hvalues ihk ihv =>
      exact .map (fun e he => (hkeys e he).writes hc hΓ)
        (fun e he => (hvalues e he).writes hc hΓ) ihk ihv
  | present hcodec hfits ih => exact .present hcodec hfits.deref ih
  | variant hplan hfields hlen hfits ih =>
      exact .variant hplan hfields hlen (fun q hq => (hfits q hq).writes hc hΓ) ih
  | shared _ _ _ ih => exact .shared ih
  | unique _ _ ih => exact .unique ih

end ObjectStream
