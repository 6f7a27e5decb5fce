import Mathlib.Data.List.Forall2
import ObjectStream.Proofs.Comparing

/-!
# Types that differ in references

A reference is written as what it refers to, and a present reference in an option as a
present value of what it refers to. Only where the reference itself is missing is its
target not asked. So two types that are of one shape behind their references, and whose
parts are again, write the same value alike, unless something is absent in it that they
write in two ways; then the bytes differ. The relation of such types is the greatest of
those that pass through: it reaches the fields of declared types, recursive ones among
them, so the arguments of these may differ in references too.
-/

namespace ObjectStream

open Writer

/-! ## What stands in a value -/

def Value.inside : Value → List Value
  | .list vs => vs
  | .present v => [v]
  | .variant _ vs => vs
  | _ => []

theorem Value.sizeOf_lt_of_inside {v w : Value} (h : w ∈ v.inside) : sizeOf w < sizeOf v := by
  cases v with
  | list vs =>
      have hlt : sizeOf w < sizeOf vs := List.sizeOf_lt_of_mem h
      rw [Value.list.sizeOf_spec]
      omega
  | variant index vs =>
      have hlt : sizeOf w < sizeOf vs := List.sizeOf_lt_of_mem h
      rw [Value.variant.sizeOf_spec]
      omega
  | present v =>
      rw [List.mem_singleton.1 h, Value.present.sizeOf_spec]
      omega
  | _ => cases h

def Plan.fieldsIn (plan : Plan Ty) (v : Value) : List (MarkedField Ty) :=
  match plan, v with
  | .struct _ fields, _ => fields
  | .variants fieldss, .variant index _ => fieldss[index]?.getD []
  | _, _ => []

theorem Plan.mem_fields {plan : Plan Ty} {v : Value} {f : MarkedField Ty}
    (h : f ∈ plan.fieldsIn v) : f ∈ plan.fields := by
  cases plan with
  | struct asMap fields => cases v <;> exact h
  | bare => cases v <;> cases h
  | variants fieldss =>
      cases v with
      | variant index vs =>
          rw [fieldsIn] at h
          cases hfields : fieldss[index]? with
          | none =>
              rw [hfields] at h
              cases h
          | some fields =>
              rw [hfields] at h
              exact List.mem_flatten_of_mem (List.mem_of_getElem? hfields) h
      | _ => cases h

def Part.deref : Part → Part
  | .whole t => .whole t.deref
  | p => p

namespace Schema

variable {Γ : Schema}

def fieldsIn (Γ : Schema) (t : Ty) (v : Value) : List Part :=
  match t with
  | .named name args =>
      match Γ.plan? name with
      | some (item, plan) => (plan.fieldsIn v).map (MarkedField.part (arguments item args))
      | none => []
  | _ => []

/-- The parts that the values in a value are written in. -/
def partsIn (Γ : Schema) (p : Part) (v : Value) : List Part :=
  match p with
  | .whole t =>
      match t.deref with
      | .tuple ts => ts.map .whole
      | .array e _ | .seq _ e | .set _ e => List.replicate v.inside.length (.whole e)
      | .map _ k u => List.replicate v.inside.length (.whole (.tuple [k, u]))
      | .option e => [.whole e]
      | t => Γ.fieldsIn t v
  | .fields t => Γ.fieldsIn t v
  | .rule _ _ => []

theorem partsIn_deref (Γ : Schema) (p : Part) (v : Value) :
    Γ.partsIn p.deref v = Γ.partsIn p v := by
  cases p with
  | whole t => rw [Part.deref, partsIn, partsIn, t.deref_deref]
  | _ => rfl

/-- How the absent value of an option is written, by the type in the option. -/
def absentWriter (Γ : Schema) (t : Ty) : Writer Unit :=
  match Γ.codec? (.option t) with
  | some codec => codec.write .absent
  | none => encodeAbsent t

/-- Somewhere in a value something is absent that is written in one way by the types in the one part
and in another by those in the other. -/
inductive Misses (Γ : Schema) : Part → Part → Value → Prop
  | absent {t u a b : Ty} : t.deref = .option a → u.deref = .option b →
      Γ.absentWriter a ≠ Γ.absentWriter b → Misses Γ (.whole t) (.whole u) .absent
  | inside {p q : Part} {v : Value} {x : (Part × Part) × Value} :
      x ∈ ((Γ.partsIn p v).zip (Γ.partsIn q v)).zip v.inside → Misses Γ x.1.1 x.1.2 x.2 →
      Misses Γ p q v

/-- What stands behind the references is what counts. -/
theorem Misses.congr {p p' q q' : Part} {v : Value} (h : Γ.Misses p q v)
    (hp : p.deref = p'.deref) (hq : q.deref = q'.deref) : Γ.Misses p' q' v := by
  cases h with
  | absent ha hb hne =>
      cases p' with
      | whole t =>
          cases q' with
          | whole u => exact .absent (Part.whole.inj hp ▸ ha) (Part.whole.inj hq ▸ hb) hne
          | _ => cases hq
      | _ => cases hp
  | inside hx hm =>
      rw [← partsIn_deref Γ p, ← partsIn_deref Γ q, hp, hq, partsIn_deref, partsIn_deref] at hx
      exact .inside hx hm

/-- Nothing is written in two ways by a part and itself. -/
theorem not_misses {p q : Part} {v : Value} (h : p.deref = q.deref) : ¬ Γ.Misses p q v := by
  intro hm
  induction hm with
  | absent ha hb hne =>
      rw [Part.whole.inj h, hb] at ha
      cases ha
      exact hne rfl
  | @inside p q v x hx _ ih =>
      refine ih ?_
      rw [← partsIn_deref Γ p, h, partsIn_deref] at hx
      have hmem := (List.of_mem_zip hx).1
      rw [List.zip_eq_zipWith, List.zipWith_self] at hmem
      obtain ⟨p', -, hp'⟩ := List.mem_map.1 hmem
      rw [← hp']

theorem misses_iff {p q : Part} {v : Value} (hv : v ≠ .absent) : Γ.Misses p q v ↔
    ∃ x ∈ ((Γ.partsIn p v).zip (Γ.partsIn q v)).zip v.inside, Γ.Misses x.1.1 x.1.2 x.2 := by
  constructor
  · intro h
    cases h with
    | absent => exact absurd rfl hv
    | inside hx hm => exact ⟨_, hx, hm⟩
  · rintro ⟨x, hx, hm⟩
    exact .inside hx hm

/-! ## Types that differ in references -/

/-- Parts of related types: the fields of a struct are those of a type that is no reference. -/
inductive Paired (R : Ty → Ty → Prop) : Part → Part → Prop
  | whole {t u : Ty} : R t u → Paired R (.whole t) (.whole u)
  | fields {t u : Ty} : t.deref = t → u.deref = u → R t u → Paired R (.fields t) (.fields u)
  | rule (path : String) (t : Ty) : Paired R (.rule path t) (.rule path t)

/-- Types of one shape, with related types inside. -/
inductive SameShape (Γ : Schema) (R : Ty → Ty → Prop) : Ty → Ty → Prop
  | refl (t : Ty) : SameShape Γ R t t
  | text : SameShape Γ R (.scalar .str) (.scalar .string)
  | tuple {ts us : List Ty} : List.Forall₂ R ts us → SameShape Γ R (.tuple ts) (.tuple us)
  | array {t u : Ty} (n : Nat) : R t u → SameShape Γ R (.array t n) (.array u n)
  | seq {t u : Ty} (k l : SeqKind) : R t u → SameShape Γ R (.seq k t) (.seq l u)
  | set {t u : Ty} (k : TableKind) : R t u → SameShape Γ R (.set k t) (.set k u)
  | map {t t' u u' : Ty} (k : TableKind) : R (.tuple [t, t']) (.tuple [u, u']) →
      SameShape Γ R (.map k t t') (.map k u u')
  | option {t u : Ty} : R t u → SameShape Γ R (.option t) (.option u)
  | named {name : String} {args args' : List Ty} :
      (∀ item plan, Γ.plan? name = some (item, plan) → ∀ f ∈ plan.fields,
        Paired R (f.part (arguments item args)) (f.part (arguments item args'))) →
      SameShape Γ R (.named name args) (.named name args')

/-- Related types are of one shape behind their references. -/
def PassesThrough (Γ : Schema) (R : Ty → Ty → Prop) : Prop :=
  ∀ t u, R t u → Γ.SameShape R t.deref u.deref

/-- The types are the same but for references, at all depths. -/
def SameBehind (Γ : Schema) (t u : Ty) : Prop := ∃ R, Γ.PassesThrough R ∧ R t u

section Comparison

variable {R : Ty → Ty → Prop} {t u : Ty}

theorem Paired.mono {S : Ty → Ty → Prop} {p q : Part} (h : Paired R p q)
    (hS : ∀ t u, R t u → S t u) : Paired S p q := by
  cases h with
  | whole hr => exact .whole (hS _ _ hr)
  | fields ht hu hr => exact .fields ht hu (hS _ _ hr)
  | rule path t => exact .rule path t

theorem SameShape.mono {S : Ty → Ty → Prop} (h : Γ.SameShape R t u)
    (hS : ∀ t u, R t u → S t u) : Γ.SameShape S t u := by
  cases h with
  | refl => exact .refl t
  | text => exact .text
  | tuple hparts => exact .tuple (hparts.imp hS)
  | array n hr => exact .array n (hS _ _ hr)
  | seq k l hr => exact .seq k l (hS _ _ hr)
  | set k hr => exact .set k (hS _ _ hr)
  | map k hr => exact .map k (hS _ _ hr)
  | option hr => exact .option (hS _ _ hr)
  | named hfields => exact .named fun item plan hplan f hf => (hfields item plan hplan f hf).mono hS

/-- The relation of all types that are the same but for references is one that passes through. -/
theorem passesThrough_sameBehind (Γ : Schema) : Γ.PassesThrough Γ.SameBehind := by
  rintro t u ⟨R, hR, htu⟩
  exact (hR t u htu).mono fun t u htu => ⟨R, hR, htu⟩

theorem SameShape.isOption (h : Γ.SameShape R t u) : t.isOption = u.isOption := by
  cases h <;> rfl

/-- The content of an option has the same way of its own, or both have none. -/
theorem SameShape.codec_option (h : Γ.SameShape R t u) :
    Γ.codec? (.option t) = Γ.codec? (.option u) := by
  cases h <;> rfl

theorem SameShape.absentWriter (h : Γ.SameShape R t u) :
    Γ.absentWriter t = Γ.absentWriter u := by
  unfold Schema.absentWriter
  rw [h.codec_option]
  cases h <;> rfl

/-- A reference says nothing of its target where that is absent. -/
theorem absentWriter_cases (Γ : Schema) (t : Ty) :
    Γ.absentWriter t = Writer.nil ∨ Γ.absentWriter t = Γ.absentWriter t.deref := by
  cases t with
  | ref t => exact .inl rfl
  | _ => exact .inr rfl

/-- What is written for what is absent is nil or can be told from nil. -/
theorem Telling.absentWriter (hΓ : Γ.Telling) (t : Ty) :
    Γ.absentWriter t = Writer.nil ∨ Writer.nil.Parts (Γ.absentWriter t) := by
  rw [Schema.absentWriter]
  cases hcodec : Γ.codec? (.option t) with
  | some codec => exact hΓ.absent t codec hcodec
  | none =>
      dsimp only
      rw [encodeAbsent]
      cases t.isPointer with
      | true => exact .inr Writer.parts_nil
      | false => exact .inl rfl

/-- Absent values that are written in two ways can be told from each other: one is nil, since its
reference says nothing of what stands behind it, and the other is not. -/
theorem parts_absentWriter (hΓ : Γ.Telling) (h : Γ.SameShape R t.deref u.deref)
    (hne : Γ.absentWriter t ≠ Γ.absentWriter u) :
    (Γ.absentWriter t).Parts (Γ.absentWriter u) := by
  rcases Γ.absentWriter_cases t with ht | ht
  · rcases hΓ.absentWriter u with hu | hu
    · exact absurd (ht.trans hu.symm) hne
    · exact ht ▸ hu
  · rcases Γ.absentWriter_cases u with hu | hu
    · rcases hΓ.absentWriter t with hnil | hparts
      · exact absurd (hnil.trans hu.symm) hne
      · exact hu ▸ hparts.symm
    · exact absurd (ht.trans (h.absentWriter.trans hu.symm)) hne

/-! ## Comparing what is written -/

/-- A tuple is written as an array of its components. -/
theorem encode_tuple (Γ : Schema) (ts : List Ty) (vs : List Value) :
    encode Γ (.tuple ts) (.list vs) =
      if vs.length = ts.length then (do Writer.arrayHeader ts.length; encodeParts Γ ts vs)
      else illTyped (.tuple ts) := by
  unfold encode
  rfl

/-- The fields of related structs are counted alike. -/
theorem SameShape.writtenFields (hR : Γ.PassesThrough R) (h : Γ.SameShape R t u) (fuel : Nat) :
    Γ.writtenFields fuel t = Γ.writtenFields fuel u := by
  induction fuel generalizing t u with
  | zero => rfl
  | succ fuel ih =>
      cases h with
      | @named name args args' hfields =>
          rw [Schema.writtenFields, Schema.writtenFields, writer?_eq]
          cases hplan : Γ.plan? name with
          | none => rfl
          | some found =>
              obtain ⟨item, plan⟩ := found
              cases plan with
              | bare | variants => rfl
              | struct asMap fields =>
                  simp only [Option.map_some, Item.writerOf, List.map_map]
                  congr 1
                  apply List.map_congr_left
                  intro f hf
                  have hpaired := hfields item _ hplan f hf
                  simp only [Function.comp_apply, MarkedField.writeCount]
                  cases hbase : f.marks.base with
                  | false => rfl
                  | true =>
                      simp only [MarkedField.part, MarkedField.writer, hbase] at hpaired
                      cases hpaired with
                      | fields ht hu hr =>
                          have hshape := hR _ _ hr
                          rw [ht, hu] at hshape
                          exact ih hshape
      | _ => rfl

/-- An array is written as the values in it. -/
theorem encode_array (Γ : Schema) (t : Ty) (n : Nat) (vs : List Value) :
    encode Γ (.array t n) (.list vs) =
      if vs.length = n then (do Writer.arrayHeader n; encodeEach Γ t vs)
      else illTyped (.array t n) := by
  unfold encode
  rfl

theorem misses_absent {t u : Ty} : Γ.Misses (.whole (.option t)) (.whole (.option u)) .absent ↔
    Γ.absentWriter t ≠ Γ.absentWriter u := by
  constructor
  · intro hm
    cases hm with
    | absent ha hb hne =>
        cases ha
        cases hb
        exact hne
    | inside hx => cases (List.of_mem_zip hx).2
  · exact .absent rfl rfl

/-- Only declared types have ways of their own for their options, and those have no plan. -/
theorem exists_hooks {t : Ty} {codec : Codec} (h : Γ.codec? (.option t) = some codec) :
    (∃ hooks : OptionHooks, codec = hooks.codec) ∧
      ∃ name args, t = .named name args ∧ Γ.plan? name = none := by
  rcases codec?_cases h with ⟨_, _, _, htype, -⟩ | ⟨name, args, own, hooks, htype, hlookup, rfl⟩
  · cases htype
  · cases htype
    exact ⟨⟨hooks, rfl⟩, name, args, rfl, by simp only [plan?, item?, hlookup]⟩

/-- Nothing is missed where nothing stands in the value. -/
theorem not_misses_of_nil {t : Ty} {q : Part} {v : Value} (hoption : t.deref.isOption = false)
    (h : Γ.partsIn (.whole t) v = []) : ¬ Γ.Misses (.whole t) q v := by
  intro hm
  cases hm with
  | absent ha =>
      rw [ha] at hoption
      cases hoption
  | inside hx =>
      rw [h] at hx
      cases hx

theorem not_misses_of_no_plan {t : Ty} {name : String} {args : List Ty} {q : Part} {v : Value}
    (ht : t.deref = .named name args) (hplan : Γ.plan? name = none) :
    ¬ Γ.Misses (.whole t) q v :=
  not_misses_of_nil (ht ▸ rfl) (by simp only [partsIn, ht, fieldsIn, hplan])

/-- A value that is neither absent nor present is refused, in whichever way options are written. -/
theorem option_cases (Γ : Schema) (v : Value) : v = .absent ∨ (∃ w, v = .present w) ∨
    ∀ t, ∃ u, encode Γ (.option t) v = illTyped u := by
  cases v with
  | absent => exact .inl rfl
  | present w => exact .inr (.inl ⟨w, rfl⟩)
  | _ =>
      refine .inr (.inr fun t => ?_)
      unfold encode
      simp only [Ty.asked, Ty.deref]
      cases hcodec : Γ.codec? (.option t) with
      | none => exact ⟨_, rfl⟩
      | some codec =>
          obtain ⟨⟨hooks, rfl⟩, -⟩ := exists_hooks hcodec
          exact ⟨_, rfl⟩

theorem encode_absent (Γ : Schema) (t : Ty) :
    encode Γ (.option t) .absent = Γ.absentWriter t := by
  unfold encode absentWriter
  rfl

/-- What is present is written as itself, framed if it is an option again, unless its type has a way
of its own. -/
theorem encode_present (Γ : Schema) (t : Ty) (v : Value) :
    encode Γ (.option t) (.present v) =
      match Γ.codec? (.option t.deref) with
      | some codec => codec.write (.present v)
      | none => (do
          if t.deref.isOption then Writer.arrayHeader 1
          Γ.writePart (.whole t) v) := by
  unfold encode
  rfl

/-- A reference is written as what it refers to. -/
theorem alike_deref (Γ : Schema) (t : Ty) (v : Value) :
    (encode Γ t v).Alike (encode Γ t.deref v) := by
  have hasked : t.deref.asked v = t.asked v := by
    cases v <;> simp only [Ty.asked, Ty.deref_deref]
  unfold encode
  rw [hasked, t.deref_deref]
  repeat' split
  all_goals first
    | exact .refl _
    | exact .illTyped _ _

/-- A value is written as a part, and as others of related types, in ways that compare. -/
def Compared (Γ : Schema) (R : Ty → Ty → Prop) (v : Value) : Prop :=
  ∀ p q, Paired R p q → Compares Γ (Γ.Misses p q v) (Γ.writePart p v) (Γ.writePart q v)

section Built

variable {v : Value} {p q : Part} (ih : ∀ w ∈ v.inside, Γ.Compared R w)

include ih

/-- What is written of the values in a value, if that of each compares. -/
theorem compares_inside (hv : v ≠ .absent)
    (h : List.Forall₂ (Paired R) (Γ.partsIn p v) (Γ.partsIn q v)) :
    Compares Γ (Γ.Misses p q v) (Γ.writeParts (Γ.partsIn p v) v.inside)
      (Γ.writeParts (Γ.partsIn q v) v.inside) :=
  (Compares.writeParts h fun p q hpq w hw => ih w hw p q hpq).congr (misses_iff hv).symm

theorem compares_tuple {ts us : List Ty} (h : List.Forall₂ R ts us) :
    Compares Γ (Γ.Misses (.whole (.tuple ts)) (.whole (.tuple us)) v) (encode Γ (.tuple ts) v)
      (encode Γ (.tuple us) v) := by
  cases v with
  | list vs =>
      have hparts : List.Forall₂ (Paired R) (ts.map .whole) (us.map .whole) := by
        rw [List.forall₂_map_left_iff, List.forall₂_map_right_iff]
        exact h.imp fun t u => .whole
      have hinside := compares_inside (p := .whole (.tuple ts)) (q := .whole (.tuple us)) ih
        nofun hparts
      rw [encode_tuple, encode_tuple, h.length_eq]
      split
      · next hlen =>
          rw [encodeParts_eq Γ ts vs (hlen.trans h.length_eq.symm), encodeParts_eq Γ us vs hlen]
          exact hinside.behind
      · exact .illTyped _ _
  | _ => exact .illTyped _ _

/-- Elements of one type, one after the other. -/
theorem compares_each {vs : List Value} {e e' : Ty} (hv : v = .list vs) (h : R e e')
    (hp : Γ.partsIn p v = List.replicate v.inside.length (.whole e))
    (hq : Γ.partsIn q v = List.replicate v.inside.length (.whole e')) :
    Compares Γ (Γ.Misses p q v) (encodeEach Γ e vs) (encodeEach Γ e' vs) := by
  subst hv
  have hparts : List.Forall₂ (Paired R) (Γ.partsIn p (.list vs)) (Γ.partsIn q (.list vs)) := by
    rw [hp, hq, List.forall₂_iff_zip]
    refine ⟨by simp, fun hmem => ?_⟩
    have hboth := List.of_mem_zip hmem
    rw [List.eq_of_mem_replicate hboth.1, List.eq_of_mem_replicate hboth.2]
    exact .whole h
  have hinside := compares_inside ih nofun hparts
  rw [hp, hq] at hinside
  rw [encodeEach_eq, encodeEach_eq]
  exact hinside

theorem compares_array {e e' : Ty} (n : Nat) (h : R e e') :
    Compares Γ (Γ.Misses (.whole (.array e n)) (.whole (.array e' n)) v)
      (encode Γ (.array e n) v) (encode Γ (.array e' n) v) := by
  cases v with
  | list vs =>
      rw [encode_array, encode_array]
      split
      · exact (compares_each ih rfl h rfl rfl).behind
      · exact .illTyped _ _
  | _ => exact .illTyped _ _

theorem compares_seq {e e' : Ty} (k l : SeqKind) (h : R e e') :
    Compares Γ (Γ.Misses (.whole (.seq k e)) (.whole (.seq l e')) v) (encode Γ (.seq k e) v)
      (encode Γ (.seq l e') v) := by
  cases v with
  | list vs =>
      unfold encode
      exact (compares_each ih rfl h rfl rfl).behind
  | _ => exact .illTyped _ _

theorem compares_set {e e' : Ty} (k : TableKind) (h : R e e') :
    Compares Γ (Γ.Misses (.whole (.set k e)) (.whole (.set k e')) v) (encode Γ (.set k e) v)
      (encode Γ (.set k e') v) := by
  cases v with
  | list vs =>
      unfold encode
      exact (compares_each ih rfl h rfl rfl).behind
  | _ => exact .illTyped _ _

/-- The entries of a map are pairs. -/
theorem compares_map {e e' u u' : Ty} (k : TableKind) (h : R (.tuple [e, u]) (.tuple [e', u'])) :
    Compares Γ (Γ.Misses (.whole (.map k e u)) (.whole (.map k e' u')) v)
      (encode Γ (.map k e u) v) (encode Γ (.map k e' u') v) := by
  cases v with
  | list vs =>
      unfold encode
      exact (compares_each ih rfl h rfl rfl).behind
  | _ => exact .illTyped _ _

/-- A reference is asked how a present value in an option is written, but not how an absent one
is. -/
theorem compares_option {e e' : Ty} (hR : Γ.PassesThrough R) (h : R e e') :
    Compares Γ (Γ.Misses (.whole (.option e)) (.whole (.option e')) v)
      (encode Γ (.option e) v) (encode Γ (.option e') v) := by
  have hshape := hR e e' h
  rcases Γ.option_cases v with rfl | ⟨w, rfl⟩ | hrefused
  · rw [encode_absent, encode_absent]
    refine Compares.congr ?_ misses_absent.symm
    refine ⟨fun hm => ?_, fun hΓ hm => parts_absentWriter hΓ hshape hm⟩
    rw [not_not.1 hm]
    exact .refl _
  · have hpairs : List.Forall₂ (Paired R) [.whole e] [.whole e'] := .cons (.whole h) .nil
    have hinside := compares_inside (p := .whole (.option e)) (q := .whole (.option e')) ih
      Value.noConfusion hpairs
    have hlist (t : Ty) : Γ.writeParts [.whole t] [w] = Γ.writePart (.whole t) w := bind_pure _
    have hcontent : Compares Γ (Γ.Misses (.whole (.option e)) (.whole (.option e')) (.present w))
        (Γ.writePart (.whole e) w) (Γ.writePart (.whole e') w) :=
      hlist e ▸ hlist e' ▸ hinside
    rw [encode_present, encode_present, ← hshape.codec_option, hshape.isOption]
    cases hcodec : Γ.codec? (.option e.deref) with
    | some codec =>
        refine .of_alike (.refl _) fun hm => ?_
        obtain ⟨-, name, args, hnamed, hplan⟩ := exists_hooks hcodec
        obtain ⟨x, hx, hinner⟩ := (misses_iff Value.noConfusion).1 hm
        obtain rfl := List.mem_singleton.1 hx
        exact not_misses_of_no_plan hnamed hplan hinner
    | none =>
        dsimp only
        split
        · exact hcontent.behind
        · exact hcontent
  · obtain ⟨t, ht⟩ := hrefused e
    obtain ⟨u, hu⟩ := hrefused e'
    rw [ht, hu]
    exact .illTyped t u

end Built

/-- Borrowed text is written as owned text. -/
theorem compares_text (v : Value) :
    Compares Γ (Γ.Misses (.whole (.scalar .str)) (.whole (.scalar .string)) v)
      (encode Γ (.scalar .str) v) (encode Γ (.scalar .string) v) := by
  refine .of_alike ?_ (not_misses_of_nil rfl rfl)
  cases v with
  | scalar d =>
      unfold encode
      cases d with
      | text t => exact .refl _
      | _ => exact .illTyped _ _
  | _ => exact .illTyped _ _

section Declared

variable {name : String} {args args' : List Ty} {item : Item Ty}

/-- A declared type without a plan has a writer of its own, or its values are refused. -/
theorem compares_planless (v : Value) (hplan : Γ.plan? name = none) :
    Compares Γ (Γ.Misses (.whole (.named name args)) (.whole (.named name args')) v)
      (encode Γ (.named name args) v) (encode Γ (.named name args') v) := by
  have hcodec (args : List Ty) : Γ.codec? (.named name args) = Γ.codec? (.named name []) := rfl
  cases hown : Γ.codec? (.named name []) with
  | some codec =>
      have hwrites (args : List Ty) := writePart_custom ((hcodec args).trans hown) v
      simp only [writePart] at hwrites
      rw [hwrites, hwrites]
      exact .of_alike (.refl _) (not_misses_of_no_plan rfl hplan)
  | none =>
      have hwriter := writer?_of_no_plan hplan
      cases v <;> rw [encode, encode] <;>
        simp only [Ty.asked, Ty.deref, hcodec, hown, hwriter] <;> exact .illTyped _ _

theorem forall₂_fieldsIn {plan : Plan Ty} (hplan : Γ.plan? name = some (item, plan))
    (hfields : ∀ f ∈ plan.fields,
      Paired R (f.part (arguments item args)) (f.part (arguments item args')))
    (v : Value) : List.Forall₂ (Paired R) (Γ.fieldsIn (.named name args) v)
      (Γ.fieldsIn (.named name args') v) := by
  simp only [fieldsIn, hplan]
  rw [List.forall₂_map_left_iff, List.forall₂_map_right_iff, List.forall₂_same]
  exact fun f hf => hfields f (plan.mem_fields hf)

section Structs

variable {asMap : Bool} {fields : List (MarkedField Ty)} {vs : List Value}
  (ih : ∀ w ∈ vs, Γ.Compared R w) (hplan : Γ.plan? name = some (item, .struct asMap fields))
  (hfields : ∀ f ∈ fields, Paired R (f.part (arguments item args)) (f.part (arguments item args')))

include ih hplan hfields

/-- The fields of a struct, one after the other. -/
theorem compares_fields :
    Compares Γ (Γ.Misses (.fields (.named name args)) (.fields (.named name args')) (.list vs))
      (Γ.writePart (.fields (.named name args)) (.list vs))
      (Γ.writePart (.fields (.named name args')) (.list vs)) := by
  have hinside := compares_inside (p := .fields (.named name args))
    (q := .fields (.named name args')) (v := .list vs) ih Value.noConfusion
    (forall₂_fieldsIn hplan hfields _)
  simp only [partsIn, fieldsIn, hplan] at hinside
  rw [writePart_fields hplan, writePart_fields hplan]
  exact hinside

theorem compares_entries :
    Compares Γ (Γ.Misses (.whole (.named name args)) (.whole (.named name args')) (.list vs))
      (Γ.writeEntries (fields.map (entry (arguments item args))) vs)
      (Γ.writeEntries (fields.map (entry (arguments item args'))) vs) := by
  have hzip (σ : List (String × Ty)) : fields.map (entry σ) =
      (fields.map MarkedField.key).zip (fields.map (MarkedField.part σ)) := by
    rw [List.zip_map']
    rfl
  have hpaired := forall₂_fieldsIn hplan hfields (.list vs)
  simp only [fieldsIn, hplan] at hpaired
  rw [hzip, hzip]
  have hkeys : (fields.map MarkedField.key).length =
      (fields.map (MarkedField.part (arguments item args))).length := by
    rw [List.length_map, List.length_map]
  refine (Compares.writeEntries hpaired hkeys fun p q hpq w hw => ih w hw p q hpq).congr ?_
  rw [misses_iff Value.noConfusion]
  simp only [partsIn, Ty.deref, fieldsIn, hplan, Plan.fieldsIn, Value.inside]

theorem compares_struct
    (hcount : Γ.writtenFieldCount (.named name args) = Γ.writtenFieldCount (.named name args')) :
    Compares Γ (Γ.Misses (.whole (.named name args)) (.whole (.named name args')) (.list vs))
      (Γ.writePart (.whole (.named name args)) (.list vs))
      (Γ.writePart (.whole (.named name args')) (.list vs)) := by
  rw [writePart_struct hplan, writePart_struct hplan, hcount]
  cases asMap with
  | true => exact (compares_entries ih hplan hfields).behind
  | false =>
      have hmembers := compares_fields ih hplan hfields
      rw [writePart_fields hplan, writePart_fields hplan] at hmembers
      refine Compares.behind (hmembers.congr ?_)
      rw [misses_iff Value.noConfusion, misses_iff Value.noConfusion]
      rfl

end Structs

theorem compares_variant {fieldss : List (List (MarkedField Ty))} {index : Nat} {vs : List Value}
    (ih : ∀ w ∈ vs, Γ.Compared R w) (hplan : Γ.plan? name = some (item, .variants fieldss))
    (hfields : ∀ f ∈ fieldss.flatten,
      Paired R (f.part (arguments item args)) (f.part (arguments item args'))) :
    Compares Γ
      (Γ.Misses (.whole (.named name args)) (.whole (.named name args')) (.variant index vs))
      (Γ.writePart (.whole (.named name args)) (.variant index vs))
      (Γ.writePart (.whole (.named name args')) (.variant index vs)) := by
  have hinside := compares_inside (p := .whole (.named name args))
    (q := .whole (.named name args')) (v := .variant index vs) ih Value.noConfusion
    (forall₂_fieldsIn hplan hfields _)
  simp only [partsIn, Ty.deref, fieldsIn, hplan, Plan.fieldsIn] at hinside
  cases hindex : fieldss[index]? with
  | some fields =>
      rw [hindex] at hinside
      rw [writePart_variant rfl hplan hindex, writePart_variant rfl hplan hindex]
      exact hinside.behind.behind
  | none =>
      have hcodec (args : List Ty) : Γ.codec? (.named name args) = none := codec?_of_plan? hplan
      simp only [writePart]
      rw [encode, encode]
      simp only [Ty.asked, Ty.deref, hcodec, writer?_of_plan hplan, Item.writerOf,
        Item.getElem?_arms_none _ _ hindex]
      exact .illTyped _ _

/-- An enum without fields is written by its discriminants. -/
theorem compares_bare {index : Nat} {vs : List Value}
    (hplan : Γ.plan? name = some (item, .bare)) :
    Compares Γ
      (Γ.Misses (.whole (.named name args)) (.whole (.named name args')) (.variant index vs))
      (encode Γ (.named name args) (.variant index vs))
      (encode Γ (.named name args') (.variant index vs)) := by
  have hcodec (args : List Ty) : Γ.codec? (.named name args) = none := codec?_of_plan? hplan
  refine .of_alike ?_ (not_misses_of_nil rfl ?_)
  · have hdata := Item.data_of_bare (plan_of_plan? hplan)
    have hwriter := writer?_of_plan hplan
    obtain ⟨itemName, attributes, generics, whereClause, data, checkPath⟩ := item
    cases data with
    | struct fields | union fields => cases hdata
    | enum variants =>
        rw [encode, encode]
        simp only [Ty.asked, Ty.deref, hcodec, hwriter, Item.writerOf]
        split
        · exact .refl _
        · exact .illTyped _ _
  · simp only [partsIn, Ty.deref, fieldsIn, hplan, Plan.fieldsIn, List.map_nil]

/-- Structs and enums of one declaration. -/
theorem compares_named {v : Value} (ih : ∀ w ∈ v.inside, Γ.Compared R w)
    (hcount : Γ.writtenFieldCount (.named name args) = Γ.writtenFieldCount (.named name args'))
    (hfields : ∀ item plan, Γ.plan? name = some (item, plan) → ∀ f ∈ plan.fields,
      Paired R (f.part (arguments item args)) (f.part (arguments item args'))) :
    Compares Γ (Γ.Misses (.whole (.named name args)) (.whole (.named name args')) v)
      (encode Γ (.named name args) v) (encode Γ (.named name args') v) := by
  cases hplan : Γ.plan? name with
  | none => exact compares_planless v hplan
  | some found =>
      obtain ⟨item, plan⟩ := found
      have hpaired := hfields item plan hplan
      have hcodec (args : List Ty) : Γ.codec? (.named name args) = none := codec?_of_plan? hplan
      have hwriter := writer?_of_plan hplan
      cases v with
      | list vs =>
          cases plan with
          | struct asMap fields => exact compares_struct ih hplan hpaired hcount
          | bare | variants =>
              rw [encode, encode]
              simp only [Ty.asked, Ty.deref, hcodec, hwriter, Item.writerOf]
              exact .illTyped _ _
      | variant index vs =>
          cases plan with
          | struct asMap fields =>
              rw [encode, encode]
              cases asMap <;>
                simp only [Ty.asked, Ty.deref, hcodec, hwriter, Item.writerOf, if_true,
                  Bool.false_eq_true, if_false] <;> exact .illTyped _ _
          | bare => exact compares_bare hplan
          | variants fieldss => exact compares_variant ih hplan hpaired
      | _ =>
          rw [encode, encode]
          simp only [Ty.asked, Ty.deref, hcodec]
          exact .illTyped _ _

end Declared

/-- Values of types of one shape. -/
theorem SameShape.compares {v : Value} (hR : Γ.PassesThrough R) (h : Γ.SameShape R t u)
    (ih : ∀ w ∈ v.inside, Γ.Compared R w) :
    Compares Γ (Γ.Misses (.whole t) (.whole u) v) (encode Γ t v) (encode Γ u v) := by
  have hcount := h.writtenFields hR baseDepth
  cases h with
  | refl => exact .of_alike (.refl _) (not_misses rfl)
  | text => exact compares_text v
  | tuple hparts => exact compares_tuple ih hparts
  | array n hr => exact compares_array ih n hr
  | seq k l hr => exact compares_seq ih k l hr
  | set k hr => exact compares_set ih k hr
  | map k hr => exact compares_map ih k hr
  | option hr => exact compares_option ih hR hr
  | named hfields => exact compares_named ih hcount hfields

/-- Fields of types of one shape. -/
theorem SameShape.compares_fields {v : Value} (h : Γ.SameShape R t u)
    (ih : ∀ w ∈ v.inside, Γ.Compared R w) :
    Compares Γ (Γ.Misses (.fields t) (.fields u) v) (encodeFields Γ t v)
      (encodeFields Γ u v) := by
  cases h with
  | refl => exact .of_alike (.refl _) (not_misses rfl)
  | @named name args args' hfields =>
      cases v with
      | list vs =>
          cases hplan : Γ.plan? name with
          | none =>
              simp only [encodeFields, writer?_of_no_plan hplan]
              exact .illTyped _ _
          | some found =>
              obtain ⟨item, plan⟩ := found
              cases plan with
              | struct asMap fields =>
                  exact Schema.compares_fields ih hplan (hfields item _ hplan)
              | bare | variants =>
                  simp only [encodeFields, writer?_of_plan hplan, Item.writerOf]
                  exact .illTyped _ _
      | _ => exact .illTyped _ _
  | _ => cases v <;> exact .illTyped _ _

/-- Related parts write every value in ways that compare. -/
theorem compared (hR : Γ.PassesThrough R) (v : Value) : Γ.Compared R v := by
  intro p q hpq
  -- the types may be recursive, but what stands in a value is smaller than the value
  have ih : ∀ w ∈ v.inside, Γ.Compared R w := by
    intro w hw
    have hlt := Value.sizeOf_lt_of_inside hw
    exact compared hR w
  cases hpq with
  | @whole t u hr =>
      have hmisses : Γ.Misses (.whole t.deref) (.whole u.deref) v ↔
          Γ.Misses (.whole t) (.whole u) v :=
        ⟨fun h => h.congr (congrArg Part.whole t.deref_deref) (congrArg Part.whole u.deref_deref),
          fun h => h.congr (congrArg Part.whole t.deref_deref.symm)
            (congrArg Part.whole u.deref_deref.symm)⟩
      exact (((hR t u hr).compares hR ih).congr hmisses).replace (alike_deref Γ t v)
        (alike_deref Γ u v)
  | @fields t u ht hu hr =>
      have hshape := hR t u hr
      rw [ht, hu] at hshape
      exact hshape.compares_fields ih
  | rule path t => exact .of_alike (.refl _) (not_misses rfl)
termination_by sizeOf v

theorem SameBehind.compares (h : Γ.SameBehind t u) (v : Value) :
    Compares Γ (Γ.Misses (.whole t) (.whole u) v) (encode Γ t v) (encode Γ u v) := by
  obtain ⟨R, hR, htu⟩ := h
  exact compared hR v _ _ (.whole htu)

end Comparison

end Schema

end ObjectStream
