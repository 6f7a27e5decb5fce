import ObjectStream.Proofs.Behind
import ObjectStream.Proofs.Failing
import ObjectStream.Proofs.Unshared

/-!
# Writing through references

Where a reference is missing, its target is not asked: nil is written, where a missing
pointer would be written as the null pointer, and a type with a way of its own to write
what is missing would write that. So a type with references in it, its own or those among
the arguments of a declared type, writes what the type writes that owns all that they
refer to, unless a pointer behind a reference is missing somewhere; then the bytes differ,
and those of the missing pointer are not read back as one.
-/

namespace ObjectStream

def Scalar.owned : Scalar → Scalar
  | .str => .string
  | s => s

def SeqKind.owned : SeqKind → SeqKind
  | .slice => .vector
  | k => k

namespace Ty

mutual

/-- The type that owns what the references in a type refer to. Pointers and declared types are left
as they are. -/
def owned : Ty → Ty
  | .scalar s => .scalar s.owned
  | .errorCode => .errorCode
  | .tuple ts => .tuple (ownedList ts)
  | .array t n => .array (owned t) n
  | .seq k t => .seq k.owned (owned t)
  | .set k t => .set k (owned t)
  | .map k t u => .map k (owned t) (owned u)
  | .option t => .option (owned t)
  | .shared pointee => .shared pointee
  | .unique pointee => .unique pointee
  | .ref t => owned t
  | .dyn name => .dyn name
  | .named name args => .named name args
  | .param name => .param name

def ownedList : List Ty → List Ty
  | [] => []
  | t :: ts => owned t :: ownedList ts

end

theorem ownedList_eq (ts : List Ty) : ownedList ts = ts.map owned := by
  induction ts with
  | nil => rfl
  | cons t ts ih => rw [ownedList, ih, List.map_cons]

/-- A type that owns everything is no reference. -/
theorem deref_owned (t : Ty) : t.owned.deref = t.owned := by
  cases t with
  | ref t => exact deref_owned t
  | _ => rfl

theorem isPointer_owned (t : Ty) : t.owned.isPointer = t.deref.isPointer := by
  cases t with
  | ref t => exact isPointer_owned t
  | _ => rfl

/-- A pointer stands behind a reference. -/
def Lent (t : Ty) : Prop := t.isPointer = false ∧ t.deref.isPointer = true

end Ty

open Writer

namespace Schema

variable {Γ : Schema}

/-! ## Types that own everything, and arguments of declared types -/

theorem SameBehind.refl (Γ : Schema) (t : Ty) : Γ.SameBehind t t := by
  refine ⟨Eq, ?_, rfl⟩
  rintro t _ rfl
  exact .refl _

theorem sameShape_owned (Γ : Schema) (t : Ty) :
    Γ.SameShape (fun t u => u = t.owned) t.deref t.owned := by
  cases t with
  | ref t => exact sameShape_owned Γ t
  | scalar s =>
      cases s with
      | str => exact .text
      | _ => exact .refl _
  | tuple ts =>
      rw [Ty.owned, Ty.ownedList_eq]
      refine .tuple ?_
      rw [List.forall₂_map_right_iff, List.forall₂_same]
      exact fun _ _ => rfl
  | array t n => exact .array n rfl
  | seq k t => exact .seq k k.owned rfl
  | set k t => exact .set k rfl
  | map k t u => exact .map k rfl
  | option t => exact .option rfl
  | errorCode | shared | unique | dyn | named | param => exact .refl _

theorem sameBehind_owned (Γ : Schema) (t : Ty) : Γ.SameBehind t t.owned := by
  refine ⟨fun t u => u = t.owned, ?_, rfl⟩
  rintro t _ rfl
  rw [t.deref_owned]
  exact Γ.sameShape_owned t

end Schema

namespace Ty

mutual

/-- No parameter stands behind a pointer, where the type of the object counts. -/
def Opens : Ty → Prop
  | .tuple ts | .named _ ts => OpensAll ts
  | .array t _ | .seq _ t | .set _ t | .option t | .ref t => Opens t
  | .map _ k u => Opens k ∧ Opens u
  | .shared p | .unique p => ∀ σ, p.subst σ = p
  | .scalar _ | .errorCode | .dyn _ | .param _ => True

def OpensAll : List Ty → Prop
  | [] => True
  | t :: ts => Opens t ∧ OpensAll ts

end

end Ty

namespace Schema

variable {Γ : Schema}

/-- The declared types keep their parameters from behind pointers, and the bases of a struct are
declared types. -/
def Open (Γ : Schema) : Prop :=
  ∀ name item plan, Γ.plan? name = some (item, plan) → ∀ f ∈ plan.fields,
    f.type.Opens ∧ (f.marks.base = true → ∃ base args, f.type = .named base args)

/-- Types that are the same but for references, put into others and into those again. -/
inductive Substituted (Γ : Schema) : Ty → Ty → Prop
  | same {t u : Ty} : Γ.SameBehind t u → Substituted Γ t u
  | context {t : Ty} {σ σ' : List (String × Ty)} : t.Opens →
      (∀ name, Substituted Γ ((Ty.param name).subst σ) ((Ty.param name).subst σ')) →
      Substituted Γ (t.subst σ) (t.subst σ')

/-- The arguments of a declared type, by the names of its parameters. -/
theorem substituted_zip {ts us : List Ty} (h : List.Forall₂ Γ.Substituted ts us)
    (params : List String) (name : String) :
    Γ.Substituted ((Ty.param name).subst (params.zip ts))
      ((Ty.param name).subst (params.zip us)) := by
  induction h generalizing params with
  | nil =>
      rw [List.zip_nil_right]
      exact .same (.refl Γ _)
  | @cons t u ts us htu _ ih =>
      cases params with
      | nil => exact .same (.refl Γ _)
      | cons param params =>
          have hrest := ih params
          simp only [Ty.subst, List.zip_cons_cons, List.lookup_cons] at hrest ⊢
          cases name == param with
          | true => exact htu
          | false => exact hrest

section Substitution

variable {σ σ' : List (String × Ty)}
  (hσ : ∀ name, Γ.Substituted ((Ty.param name).subst σ) ((Ty.param name).subst σ'))

include hσ

theorem forall₂_substList {ts : List Ty} (h : Ty.OpensAll ts) :
    List.Forall₂ Γ.Substituted (Ty.substList σ ts) (Ty.substList σ' ts) := by
  induction ts with
  | nil => exact .nil
  | cons t ts ih => exact .cons (.context h.1 hσ) (ih h.2)

/-- The fields of a declared type, with one list of arguments and with the other. -/
theorem paired_part (hΓ : Γ.Open) {name : String} {item : Item Ty} {plan : Plan Ty}
    (hplan : Γ.plan? name = some (item, plan)) {ts : List Ty} (h : Ty.OpensAll ts)
    {f : MarkedField Ty} (hf : f ∈ plan.fields) :
    Paired Γ.Substituted (f.part (arguments item (Ty.substList σ ts)))
      (f.part (arguments item (Ty.substList σ' ts))) := by
  obtain ⟨hopens, hbase⟩ := hΓ name item plan hplan f hf
  have hfield : Γ.Substituted (f.type.subst (arguments item (Ty.substList σ ts)))
      (f.type.subst (arguments item (Ty.substList σ' ts))) :=
    .context hopens (substituted_zip (forall₂_substList hσ h) _)
  unfold MarkedField.part MarkedField.writer
  cases hmarked : f.marks.base with
  | true =>
      obtain ⟨base, args, htype⟩ := hbase hmarked
      rw [htype] at hfield ⊢
      exact .fields rfl rfl hfield
  | false =>
      cases f.marks.rule with
      | none => exact .whole hfield
      | some path => exact .rule path _

/-- What a type is made of is that with one list of arguments put into it and with the other. -/
theorem sameShape_subst (hΓ : Γ.Open)
    (hshape : ∀ name, Γ.SameShape Γ.Substituted ((Ty.param name).subst σ).deref
      ((Ty.param name).subst σ').deref)
    (t : Ty) (h : t.Opens) :
    Γ.SameShape Γ.Substituted (t.subst σ).deref (t.subst σ').deref := by
  cases t with
  | ref t => exact sameShape_subst hΓ hshape t h
  | param name => exact hshape name
  | tuple ts => exact .tuple (forall₂_substList hσ h)
  | array t n => exact .array n (.context h hσ)
  | seq k t => exact .seq k k (.context h hσ)
  | set k t => exact .set k (.context h hσ)
  | map k t u =>
      have hpair : (Ty.tuple [t, u]).Opens := ⟨h.1, h.2, trivial⟩
      exact .map k (.context hpair hσ)
  | option t => exact .option (.context h hσ)
  | named name ts => exact .named fun item plan hplan f hf => paired_part hσ hΓ hplan h hf
  | shared p =>
      -- no argument is put into what a pointer points to
      rw [Ty.subst, Ty.subst, h σ, h σ']
      exact .refl _
  | unique p =>
      rw [Ty.subst, Ty.subst, h σ, h σ']
      exact .refl _
  | scalar | errorCode | dyn => exact .refl _

end Substitution

theorem passesThrough_substituted (hΓ : Γ.Open) : Γ.PassesThrough Γ.Substituted := by
  intro t u h
  induction h with
  | @same t u h => exact (Γ.passesThrough_sameBehind t u h).mono fun _ _ => .same
  | context hopens hσ ih => exact sameShape_subst hσ hΓ ih _ hopens

/-- Arguments that are the same but for references make types that are. -/
theorem SameBehind.subst (hΓ : Γ.Open) {t : Ty} (ht : t.Opens) {σ σ' : List (String × Ty)}
    (hσ : ∀ name, Γ.SameBehind ((Ty.param name).subst σ) ((Ty.param name).subst σ')) :
    Γ.SameBehind (t.subst σ) (t.subst σ') :=
  ⟨Γ.Substituted, passesThrough_substituted hΓ, .context ht fun name => .same (hσ name)⟩

/-- Nil stands for a missing pointer behind a reference. -/
theorem absentWriter_of_lent {t : Ty} (h : t.Lent) : Γ.absentWriter t = Writer.nil := by
  cases t with
  | ref t => rfl
  | shared | unique => cases h.1
  | _ => cases h.2

theorem absentWriter_owned {t : Ty} (h : t.Lent) :
    Γ.absentWriter t.owned = Writer.nullPointer := by
  have hpointer : t.owned.isPointer = true := by rw [Ty.isPointer_owned, h.2]
  generalize t.owned = u at hpointer
  cases u with
  | shared | unique => rfl
  | _ => cases hpointer

theorem nil_ne_nullPointer : Writer.nil ≠ Writer.nullPointer := by
  intro h
  have hsize := congrArg
    (fun x => (stateAfter x (.ofSink .standard .growable none)).sink.data.size) h
  revert hsize
  decide +kernel

/-- The type that owns everything writes what is absent in another way just where a pointer stands
behind a reference. -/
theorem absentWriter_ne_iff {t : Ty} (h : Γ.codec? (.option t.deref) = none) :
    Γ.absentWriter t ≠ Γ.absentWriter t.owned ↔ t.Lent := by
  constructor
  · intro hne
    rw [← (Γ.sameShape_owned t).absentWriter] at hne
    cases t with
    | ref t =>
        refine ⟨rfl, ?_⟩
        by_contra hnone
        have hnil : Γ.absentWriter (Ty.ref t).deref = Writer.nil := by
          rw [absentWriter, h]
          exact if_neg hnone
        exact hne hnil.symm
    | _ => exact absurd rfl hne
  · intro hlent
    rw [absentWriter_of_lent hlent, absentWriter_owned hlent]
    exact nil_ne_nullPointer

/-- Where nil stands, a missing pointer is not found. -/
theorem decode_nil_fails {t : Ty} (h : t.Lent) {r : InStream} {tail : List UInt8}
    (hrest : r.rest = Format.nil :: tail) :
    decode Γ (.option t.owned) r = .error (.type (.unexpected .array Format.nil)) r := by
  have hheader : Reader.arrayHeader r = .error (.type (.unexpected .array Format.nil)) r :=
    Reader.headed_failed Reader.rudiments_still.arrayHeader hrest rfl
  have htag : Reader.pointerTag r = .error (.type (.unexpected .array Format.nil)) r :=
    bind_failed <| Reader.orRestore_failed (Reader.Head.arrayHeaderOf 2).still <|
      bind_failed hheader
  have hpointer : t.owned.isPointer = true := by rw [Ty.isPointer_owned, h.2]
  generalize t.owned = u at hpointer
  have hstep : decode Γ (.option u) r =
      decodeStep Γ (decodeWithin Γ (2 * r.cursor.remaining + 1)) (.option u) r := rfl
  rw [hstep]
  cases u with
  | shared | unique => exact bind_failed (bind_failed (bind_failed htag))
  | _ => cases hpointer

end Schema

/-! ## Writing through references and reading back -/

/-- What is written through references, and what comes of it. -/
structure Schema.WritesThrough (Γ : Schema) (c : Context) : Prop where
  /-- A type and the one that owns everything are the same but for references. -/
  owned : ∀ t, Γ.SameBehind t t.owned
  /-- So are types with arguments that are, unless the arguments come to stand behind pointers. -/
  arguments : Γ.Open → ∀ (t : Ty) (σ σ' : List (String × Ty)), t.Opens →
    (∀ name, Γ.SameBehind ((Ty.param name).subst σ) ((Ty.param name).subst σ')) →
    Γ.SameBehind (t.subst σ) (t.subst σ')
  /-- Such types write the same, unless something absent is written in two ways. -/
  same : ∀ t u, Γ.SameBehind t u → ∀ v, ¬ Γ.Misses (.whole t) (.whole u) v →
    (encode Γ t v).Alike (encode Γ u v)
  /-- Then the bytes are others. -/
  differs : Γ.Telling → ∀ t u, Γ.SameBehind t u → ∀ v, Γ.Misses (.whole t) (.whole u) v →
    (encode Γ t v).Parts (encode Γ u v)
  /-- The type that owns everything does so just where a pointer stands behind a reference. -/
  lent : ∀ t : Ty, Γ.codec? (.option t.deref) = none →
    (Γ.absentWriter t ≠ Γ.absentWriter t.owned ↔ t.Lent)
  /-- For a missing pointer behind a reference nil stands, which is not read back as one. -/
  lost : ∀ t : Ty, t.Lent → encode Γ (.option t) .absent = Writer.nil ∧
    encode Γ (.option t.owned) .absent = Writer.nullPointer ∧
    ∀ (r : InStream) (tail : List UInt8), r.rest = Format.nil :: tail →
      decode Γ (.option t.owned) r = .error (.type (.unexpected .array Format.nil)) r
  /-- Nil stands too where the type behind a reference has a way of its own for what is absent. -/
  withheld : ∀ (t : Ty) (codec : Codec), Γ.codec? (.option t) = some codec →
    encode Γ (.option (.ref t)) .absent = Writer.nil ∧
      encode Γ (.option t) .absent = codec.write .absent
  /-- Values that are written one after the other are read back as values of other types that are
  the same but for references. -/
  comesBack : c.WellFormed → Γ.WellFormed → ∀ (H : Heap) (values : List (Ty × Value))
    (own : Ty → Ty) (sink : ByteSink) (journal : Journal) (final : OutStream),
    (∀ q ∈ values, Γ.SameBehind q.1 (own q.1) ∧
      ¬ Γ.Misses (.whole q.1) (.whole (own q.1)) q.2 ∧ Fits Γ c H false (.whole (own q.1)) q.2) →
    sink.data = .empty → encodeAll Γ values (.ofSink c sink journal) = .ok () final →
    final.entered.length ≤ 2 ^ 32 → ∀ (next : Identity) (journal' : Journal),
      ∃ ws r, decodeAll Γ (values.map fun q => own q.1)
          (.ofBytes c final.sink.data next journal') = .ok ws r ∧
        r.cursor.remaining = 0 ∧
        SameAll Γ (r.bond final.entered) (values.map fun q => .whole (own q.1))
          (values.map Prod.snd) ws

section WritesThrough

variable {Γ : Schema} {c : Context} {own : Ty → Ty}

def ownedAll (own : Ty → Ty) (values : List (Ty × Value)) : List (Ty × Value) :=
  values.map fun q => (own q.1, q.2)

theorem alike_encodeAll {values : List (Ty × Value)}
    (h : ∀ q ∈ values, Γ.SameBehind q.1 (own q.1) ∧
      ¬ Γ.Misses (.whole q.1) (.whole (own q.1)) q.2) :
    (encodeAll Γ values).Alike (encodeAll Γ (ownedAll own values)) := by
  have hpaired : List.Forall₂ (Schema.Paired Γ.SameBehind) (values.map fun q => .whole q.1)
      (values.map fun q => .whole (own q.1)) := by
    rw [List.forall₂_map_left_iff, List.forall₂_map_right_iff, List.forall₂_same]
    exact fun q hq => .whole (h q hq).1
  have hcompares (vs : List Value) := Writer.Compares.writeParts hpaired
    fun p q hpq v (_ : v ∈ vs) => Schema.compared Γ.passesThrough_sameBehind v p q hpq
  have halike := (hcompares (values.map Prod.snd)).alike (by
    rintro ⟨x, hx, hm⟩
    rw [List.zip_map', List.zip_map'] at hx
    obtain ⟨q, hq, rfl⟩ := List.mem_map.1 hx
    exact (h q hq).2 hm)
  rw [encodeAll_eq, encodeAll_eq]
  simpa only [ownedAll, List.map_map, Function.comp_def] using halike

/-- Types that are the same but for references write the same and are read back as each other,
unless something behind a reference is missing. -/
theorem Schema.writesThrough (Γ : Schema) (c : Context) : Γ.WritesThrough c where
  owned := Γ.sameBehind_owned
  arguments hΓ _ _ _ ht hσ := .subst hΓ ht hσ
  same _ _ h v := (h.compares v).alike
  differs hΓ _ _ h v := (h.compares v).parts hΓ
  lent _ := absentWriter_ne_iff
  lost t h := by
    rw [encode_absent, encode_absent]
    exact ⟨absentWriter_of_lent h, absentWriter_owned h, fun _ _ => decode_nil_fails h⟩
  withheld t codec hcodec := by
    rw [encode_absent, encode_absent]
    exact ⟨rfl, by rw [absentWriter, hcodec]⟩
  comesBack hc hΓ H values own sink journal final hvalues hempty hwritten hcount next journal' := by
    have hfits : ∀ q ∈ ownedAll own values, Fits Γ c H false (.whole q.1) q.2 := by
      intro q hq
      obtain ⟨q', hq', rfl⟩ := List.mem_map.1 hq
      exact (hvalues q' hq').2.2
    have howned : encodeAll Γ (ownedAll own values) (.ofSink c sink journal) = .ok () final :=
      (alike_encodeAll fun q hq => ⟨(hvalues q hq).1, (hvalues q hq).2.1⟩).ok hwritten
    obtain ⟨ws, r, hread, hcursor, -, -, -, -, hsame⟩ :=
      Recording.exists_decodeAll ⟨ownedAll own values, sink, journal, final, hfits, hempty, howned⟩
        hc hΓ hcount .empty next journal'
    rw [ByteArray.append_empty] at hread hcursor
    simp only [ownedAll, List.map_map, Function.comp_def] at hread
    refine ⟨ws, r, hread, ?_, ?_⟩
    · rw [hcursor]
      exact Nat.sub_self _
    · simpa only [Recording.parts, ownedAll, List.map_map, Function.comp_def] using hsame

end WritesThrough

namespace Sample

def pairs : Schema where
  types := [structOf [] ["T"] "Pair"
    (.named [field "first" (.param "T"), field "second" (.param "T")])]
  rules := []

theorem open_pairs : pairs.Open := by
  intro name item plan hplan f hf
  have hname : name = home ++ "::Pair" := by
    by_contra hne
    have hnone : pairs.plan? name = none := by
      have hlookup : pairs.types.lookup name = none := by
        have hother : (name == home ++ "::" ++ (Ident.ofText "Pair").name) = false :=
          beq_false_of_ne hne
        simp only [pairs, structOf, List.lookup_cons, List.lookup_nil, hother]
      simp only [Schema.plan?, Schema.item?, hlookup]
    rw [hnone] at hplan
    cases hplan
  subst hname
  have hpair : pairs.plan? (home ++ "::Pair") = some (_, .struct false _) := rfl
  rw [hpair] at hplan
  cases hplan
  rcases List.mem_cons.1 hf with rfl | hf
  · exact ⟨trivial, fun hbase => absurd hbase Bool.false_ne_true⟩
  · obtain rfl := List.mem_singleton.1 hf
    exact ⟨trivial, fun hbase => absurd hbase Bool.false_ne_true⟩

/-- A pair of values with references is one of values that own what these refer to. -/
theorem sameBehind_pair (t : Ty) : pairs.SameBehind (.named (home ++ "::Pair") [t])
    (.named (home ++ "::Pair") [t.owned]) := by
  have hpair : (Ty.named (home ++ "::Pair") [.param "T"]).Opens := ⟨trivial, trivial⟩
  have hargument (name : String) : pairs.SameBehind ((Ty.param name).subst [("T", t)])
      ((Ty.param name).subst [("T", t.owned)]) := by
    simp only [Ty.subst, List.lookup_cons, List.lookup_nil]
    cases name == "T" with
    | true => exact pairs.sameBehind_owned t
    | false => exact .refl _ _
  exact Schema.SameBehind.subst open_pairs hpair hargument

/-- A borrowed run of pointers to nodes behind references, some of which may be missing. -/
def lentNodes : Ty := .ref (.seq .slice (.option (.ref (.shared node))))

def bothNodes : Value := .list [.present (lonelyNode 5), .present (lonelyNode 5)]

theorem not_misses_bothNodes :
    ¬ links.Misses (.whole lentNodes) (.whole lentNodes.owned) bothNodes := by
  intro hm
  obtain ⟨x, hx, hpresent⟩ := (Schema.misses_iff Value.noConfusion).1 hm
  have hoption : x = ((.whole (.option (.ref (.shared node))), .whole (.option (.shared node))),
      .present (lonelyNode 5)) := by
    simpa [Schema.partsIn, lentNodes, bothNodes, Ty.deref, Ty.owned, Value.inside] using hx
  subst hoption
  obtain ⟨y, hy, hnode⟩ := (Schema.misses_iff Value.noConfusion).1 hpresent
  obtain rfl := List.mem_singleton.1 hy
  have hbehind : (Part.whole (.ref (.shared node))).deref = (Part.whole (.shared node)).deref := rfl
  exact Schema.not_misses hbehind hnode

theorem misses_sharedNodes :
    links.Misses (.whole lentNodes) (.whole lentNodes.owned) sharedNodes :=
  .inside
    (x := ((.whole (.option (.ref (.shared node))), .whole (.option (.shared node))), .absent))
    (List.mem_cons_of_mem _ List.mem_cons_self) (.absent rfl rfl Schema.nil_ne_nullPointer)

theorem telling_links : links.Telling where
  composed := composed_links
  absent t codec hcodec := by
    rw [Schema.codec?_of_derived derived_graphs] at hcodec
    cases hcodec

theorem fits_bothNodes {H : Heap}
    (hH : H 5 = ⟨node, node, .list [.scalar (.int 2), .absent]⟩) :
    Fits links (registered true) H false (.whole lentNodes.owned) bothNodes := by
  refine .list rfl fun q hq => ?_
  simp only [List.replicate, List.length_cons, List.length_nil, List.zip_cons_cons,
    List.zip_nil_right, List.mem_cons, List.not_mem_nil, or_false, or_self] at hq
  subst hq
  exact fits_lonelyNode true hH

end Sample

/-- Two pointers to one node come back from behind their references. Where one is missing the bytes
are not those of a missing pointer. -/
theorem writesThrough_lentNodes :
    (∃ final, encodeAll Sample.links [(Sample.lentNodes, Sample.bothNodes)]
        (.ofSink (Sample.registered true) .growable none) = .ok () final ∧
      ∃ ws r, decodeAll Sample.links [.vec (.option (.shared Sample.node))]
          (.ofBytes (Sample.registered true) final.sink.data 0 none) = .ok ws r ∧
        r.cursor.remaining = 0) ∧
    Sample.links.Misses (.whole Sample.lentNodes) (.whole Sample.lentNodes.owned)
        Sample.sharedNodes ∧
      (encode Sample.links Sample.lentNodes Sample.sharedNodes).Parts
        (encode Sample.links (.vec (.option (.shared Sample.node))) Sample.sharedNodes) := by
  have hthrough := Schema.writesThrough Sample.links (Sample.registered true)
  refine ⟨?_, Sample.misses_sharedNodes, hthrough.differs Sample.telling_links _ _
    (hthrough.owned Sample.lentNodes) _ Sample.misses_sharedNodes⟩
  obtain ⟨_, hfinal⟩ := ok_of_succeeds
    (x := encodeAll Sample.links [(Sample.lentNodes, Sample.bothNodes)])
    (s := .ofSink (Sample.registered true) .growable none) (by decide +kernel)
  have hcount : (stateAfter (encodeAll Sample.links [(Sample.lentNodes, Sample.bothNodes)])
      (.ofSink (Sample.registered true) .growable none)).entered.length ≤ 2 ^ 32 := by
    decide +kernel
  generalize stateAfter _ _ = final at hfinal hcount
  obtain ⟨ws, r, hread, hend, -⟩ := hthrough.comesBack (Sample.wellFormed_registered true)
    Sample.wellFormed_links (fun _ => ⟨Sample.node, Sample.node, .list [.scalar (.int 2), .absent]⟩)
    [(Sample.lentNodes, Sample.bothNodes)] Ty.owned .growable none final
    (List.forall_mem_singleton.2 ⟨hthrough.owned _, Sample.not_misses_bothNodes,
      Sample.fits_bothNodes rfl⟩) rfl hfinal hcount 0 none
  exact ⟨final, hfinal, ws, r, hread, hend⟩

end ObjectStream
