import Mathlib.Data.List.Perm.Basic
import ObjectStream.Proofs.Costs
import ObjectStream.Proofs.Gathering
import ObjectStream.Proofs.OneValue

/-!
# The shortest form of a value

A reader accepts headers that are wider than they have to be, integers behind any
code, and tables with keys that come again; the writer makes the shortest form. So
a value is never written in more bytes than it was read from. What a type reads
breaks up into what its parts read, and the bytes of the parts add up. Keys and
values of a table may be dropped on the way, and then their bytes count for nothing. A
pointer may be read from a reference and then be written with its object, and a
float of eight bytes may be read from one of four, so neither may be inside.
-/

namespace ObjectStream

/-! ## Sums -/

/-- Each thing of a list has an amount, and together they come to `n`. -/
inductive Amounts {α : Type} (P : α → Nat → Prop) : List α → Nat → Prop
  | nil : Amounts P [] 0
  | cons {a : α} {as : List α} {m n : Nat} : P a m → Amounts P as n → Amounts P (a :: as) (m + n)

namespace Amounts

variable {α : Type} {P : α → Nat → Prop} {as bs : List α} {m n : Nat}

theorem perm (h : Amounts P as n) (hperm : as.Perm bs) : Amounts P bs n := by
  induction hperm generalizing n with
  | nil => exact h
  | cons a _ ih =>
      cases h with
      | cons ha has => exact .cons ha (ih has)
  | swap a b as =>
      cases h with
      | cons hb h =>
          cases h with
          | cons ha has =>
              rw [Nat.add_left_comm]
              exact .cons ha (.cons hb has)
  | trans _ _ ih ih' => exact ih' (ih h)

theorem map {β : Type} {Q : β → Nat → Prop} {f : α → β} (hf : ∀ a n, P a n → Q (f a) n)
    (h : Amounts P as n) : Amounts Q (as.map f) n := by
  induction h with
  | nil => exact .nil
  | cons ha _ ih => exact .cons (hf _ _ ha) ih

/-- The elements of a table come to no more than those that it was made of, if one made of two
comes to no more than the two. -/
theorem ofList {R : TableRule α} (kind : TableKind)
    (hmerge : ∀ old new m n, P old m → P new n → ∃ k ≤ m + n, P (R.merge old new) k)
    (h : Amounts P as n) :
    ((Table.collector R kind).ofList as).length ≤ as.length ∧
      ∃ k ≤ n, Amounts P ((Table.collector R kind).ofList as) k := by
  refine Table.closed_ofList R kind
    (P := fun bs => bs.length ≤ as.length ∧ ∃ k ≤ n, Amounts P bs k) (fun hperm hbs => ?_)
    (fun hbs => ?_) ⟨Nat.le_refl _, n, Nat.le_refl n, h⟩
  · obtain ⟨hlen, k, hk, hbs⟩ := hbs
    exact ⟨hperm.length_eq ▸ hlen, k, hk, hbs.perm hperm⟩
  · obtain ⟨hlen, _, hk, hbs⟩ := hbs
    cases hbs with
    | cons hold hbs =>
        cases hbs with
        | cons hnew hrest =>
            obtain ⟨l, hl, hmerged⟩ := hmerge _ _ _ _ hold hnew
            simp only [List.length_cons] at hlen ⊢
            exact ⟨by omega, _, by omega, .cons hmerged hrest⟩

/-- A thing in the place of another one comes with its own amount, and the other's is gone. -/
theorem set {a : α} (h : Amounts P as n) (ha : P a m) (i : Nat) :
    ∃ k ≤ n + m, Amounts P (as.set i a) k := by
  induction h generalizing i with
  | nil => exact ⟨0, Nat.zero_le _, .nil⟩
  | cons hb hbs ih =>
      cases i with
      | zero => exact ⟨_, by omega, .cons ha hbs⟩
      | succ i =>
          obtain ⟨k, hk, hset⟩ := ih i
          exact ⟨_, by omega, .cons hb hset⟩

end Amounts

theorem Format.Size.array_mono {m n : Nat} (h : m ≤ n) :
    Format.Size.array m ≤ Format.Size.array n := by
  unfold Format.Size.array
  grind

/-! ## Parts -/

namespace Schema

/-- Inside of a part there are neither pointers nor references nor floats of eight bytes, and what
comes with a writer and a reader of its own there writes no more than it has read. -/
structure Concise (Γ : Schema) (c : Context) (p : Part) : Prop where
  codecs : ∀ q codec, Relation.ReflTransGen (Γ.Component c) p q → Γ.partCodec? q = some codec →
    Reader.Shortens c codec.read codec.write
  types : ∀ t, Relation.ReflTransGen (Γ.Component c) p (.whole t) →
    t.deref = t ∧ t.isPointer = false ∧ t ≠ .scalar .float64

variable {Γ : Schema} {c : Context} {p q : Part}

theorem Concise.component (h : Γ.Concise c p) (hq : Γ.Component c p q) : Γ.Concise c q where
  codecs := fun q' codec hq' => h.codecs q' codec (.head hq hq')
  types := fun t ht => h.types t (.head hq ht)

theorem Concise.codec (h : Γ.Concise c p) {codec : Codec} (hcodec : Γ.partCodec? p = some codec) :
    Reader.Shortens c codec.read codec.write :=
  h.codecs p codec .refl hcodec

end Schema

/-! ## Plain types -/

namespace Ty

mutual

/-- Whether there are neither pointers nor references nor floats of eight bytes in a type. -/
def isPlain : Ty → Bool
  | .scalar s => s != .float64
  | .tuple ts => allPlain ts
  | .array e _ | .seq _ e | .set _ e | .option e => isPlain e
  | .map _ k u => isPlain k && isPlain u
  | .shared _ | .unique _ | .ref _ => false
  | .named _ args => allPlain args
  | .errorCode | .dyn _ | .param _ => true

def allPlain : List Ty → Bool
  | [] => true
  | t :: ts => isPlain t && allPlain ts

end

theorem allPlain_iff {ts : List Ty} : allPlain ts = true ↔ ∀ t ∈ ts, t.isPlain = true := by
  induction ts with
  | nil => simp [allPlain]
  | cons t ts ih => simp [allPlain, ih]

variable {σ : List (String × Ty)}

mutual

theorem isPlain_subst (hσ : ∀ q ∈ σ, q.2.isPlain = true) {t : Ty} (h : t.isPlain = true) :
    (t.subst σ).isPlain = true := by
  cases t with
  | tuple ts | named name ts => exact allPlain_subst hσ h
  | array e _ | seq _ e | set _ e | option e => exact isPlain_subst hσ (t := e) h
  | map _ k u =>
      rw [isPlain, Bool.and_eq_true] at h
      rw [subst, isPlain, isPlain_subst hσ h.1, isPlain_subst hσ h.2, Bool.and_self]
  | param name =>
      rw [subst]
      cases hlookup : σ.lookup name with
      | none => rfl
      | some t =>
          obtain ⟨before, after, rfl, -⟩ := List.lookup_eq_some_iff.1 hlookup
          exact hσ (name, t) (by simp)
  | shared _ | unique _ | ref _ => cases h
  | scalar _ | errorCode | dyn _ => exact h

theorem allPlain_subst (hσ : ∀ q ∈ σ, q.2.isPlain = true) {ts : List Ty}
    (h : allPlain ts = true) : allPlain (substList σ ts) = true := by
  cases ts with
  | nil => rfl
  | cons t ts =>
      rw [allPlain, Bool.and_eq_true] at h
      rw [substList, allPlain, isPlain_subst hσ h.1, allPlain_subst hσ h.2, Bool.and_self]

end

end Ty

/-- Whether a declaration is derived, with fields of plain types alone. -/
def Declaration.isPlain : Declaration → Bool
  | .derived item =>
      match item.plan with
      | .ok plan => plan.fields.all fun f => f.type.isPlain
      | .error _ => true
  | .custom _ _ => false

/-- Whether the type of a part is plain. A field under a rule may be of any type. -/
def Part.isPlain : Part → Bool
  | .whole t | .fields t => t.isPlain
  | .rule _ _ => true

namespace Schema

variable {Γ : Schema} {c : Context}

variable {name : String} {args : List Ty} {item : Item Ty} {plan : Plan Ty}

theorem lookup_of_plan? (h : Γ.plan? name = some (item, plan)) :
    Γ.types.lookup name = some (.derived item) := by
  cases hlookup : Γ.types.lookup name with
  | none => simp [plan?, item?, hlookup] at h
  | some declaration =>
      cases declaration with
      | custom codec => simp [plan?, item?, hlookup] at h
      | derived found =>
          simp only [plan?, item?, hlookup, Option.map_eq_some_iff, Prod.mk.injEq] at h
          obtain ⟨_, -, rfl, -⟩ := h
          rfl

/-- The part of a declared field is plain if the arguments of its struct or enum are. -/
theorem isPlain_part (hΓ : ∀ q ∈ Γ.types, q.2.isPlain = true) (hargs : Ty.allPlain args = true)
    (hplan : Γ.plan? name = some (item, plan)) {f : MarkedField Ty} (hf : f ∈ plan.fields) :
    (f.part (arguments item args)).isPlain = true := by
  obtain ⟨before, after, hsplit, -⟩ := List.lookup_eq_some_iff.1 (lookup_of_plan? hplan)
  have hdeclared := hΓ (name, .derived item) (by rw [hsplit]; simp)
  simp only [Declaration.isPlain, plan_of_plan? hplan, List.all_eq_true] at hdeclared
  have hσ : ∀ q ∈ arguments item args, q.2.isPlain = true := fun q hq =>
    Ty.allPlain_iff.1 hargs q.2 (List.of_mem_zip hq).2
  have htype := Ty.isPlain_subst hσ (hdeclared f hf)
  unfold MarkedField.part MarkedField.writer
  cases f.marks.base with
  | true => exact htype
  | false =>
      cases f.marks.rule with
      | none => exact htype
      | some path => rfl

theorem Component.isPlain (hΓ : ∀ q ∈ Γ.types, q.2.isPlain = true) {p q : Part}
    (hp : p.isPlain = true) (h : Γ.Component c p q) : q.isPlain = true := by
  have hreplicate {t : Ty} {n : Nat} (ht : t.isPlain = true)
      (hq : q ∈ List.replicate n (Part.whole t)) : q.isPlain = true := by
    rwa [List.eq_of_mem_replicate hq]
  cases h with
  | ref t => cases hp
  | member hmembers hq =>
      cases hmembers with
      | tuple ts =>
          obtain ⟨t, ht, rfl⟩ := List.mem_map.1 hq
          exact Ty.allPlain_iff.1 hp t ht
      | array e n | seq kind e n | set kind e n => exact hreplicate (t := e) hp hq
      | map kind k u n =>
          simp only [Part.isPlain, Ty.isPlain, Bool.and_eq_true] at hp
          exact hreplicate (by simp [Ty.isPlain, Ty.allPlain, hp]) hq
      | struct n hplan =>
          obtain ⟨f, hf, rfl⟩ := List.mem_map.1 hq
          exact isPlain_part hΓ hp hplan hf
  | entry hplan hf | field hplan hf => exact isPlain_part hΓ hp hplan hf
  | variant hplan hfields hf =>
      exact isPlain_part hΓ hp hplan (List.mem_flatten_of_mem hfields hf)
  | content t => exact hp
  | target t => cases hp
  | written hpointer | read hpointer => rcases hpointer with rfl | rfl <;> cases hp

/-- Plain types of plain declarations are concise, if the rules of fields write no more than they
have read. -/
theorem Concise.of_plain (hΓ : ∀ q ∈ Γ.types, q.2.isPlain = true)
    (hrules : ∀ path codec, Γ.rule? path = some codec →
      Reader.Shortens c codec.read codec.write)
    {t : Ty} (ht : t.isPlain = true) : Γ.Concise c (.whole t) := by
  have hinside {q : Part} (hq : Relation.ReflTransGen (Γ.Component c) (.whole t) q) :
      q.isPlain = true := by
    induction hq with
    | refl => exact ht
    | tail _ hcomponent ih => exact hcomponent.isPlain hΓ ih
  constructor
  · intro q codec hq hcodec
    cases q with
    | whole u | fields u =>
        have hderived : ∀ q ∈ Γ.types, ∃ item, q.2 = .derived item := by
          intro q hq
          have hplain := hΓ q hq
          cases hq : q.2 with
          | derived item => exact ⟨item, rfl⟩
          | custom codec =>
              rw [hq] at hplain
              cases hplain
        simp [partCodec?, codec?_of_derived hderived] at hcodec
    | rule path u => exact hrules path codec hcodec
  · intro u hu
    have hplain := hinside hu
    cases u with
    | shared _ | unique _ | ref _ => cases hplain
    | scalar s =>
        refine ⟨rfl, rfl, ?_⟩
        rintro ⟨⟩
        cases hplain
    | _ => exact ⟨rfl, rfl, fun h => by cases h⟩

end Schema

/-- Raw bytes are written no longer than they were read. -/
theorem Codec.shortens_blob (c : Context) :
    Reader.Shortens c Codec.blob.read Codec.blob.write := by
  refine Reader.Costs.bind Reader.Costs.blob fun bytes k hk => Reader.Costs.pure ?_
  simp only [Codec.blob, Value.bytes?_ofBytes, packed_unpacked]
  exact .blob hk.1 hk.2

open Reader Schema

variable {Γ : Schema} {c : Context} {value : Ty → Reader Value}

/-- Parts one after the other. -/
theorem costs_each {read : Part → Reader Value} {ps : List Part}
    (h : ∀ p ∈ ps, Shortens c (read p) (Γ.writePart p)) :
    Costs c (Reader.each read ps) fun vs k =>
      vs.length = ps.length ∧ Writer.Within c k (Γ.writeParts ps vs) := by
  refine Costs.each (Q := fun ps vs k => vs.length = ps.length ∧
    Writer.Within c k (Γ.writeParts ps vs)) ⟨rfl, .nothing⟩ (fun p ps v vs m n hv hvs => ?_) h
  exact ⟨congrArg Nat.succ hvs.1, Writer.Within.bind hv hvs.2⟩

/-- A part is written no longer than it was read, if the whole values in it are. -/
theorem shortens_readPart (fuel : Nat) {p : Part} (hp : Γ.Concise c p)
    (hvalue : ∀ t, Γ.Concise c (.whole t) → Shortens c (value t) (encode Γ t)) :
    Shortens c (Γ.readPart value fuel p) (Γ.writePart p) := by
  induction fuel using Nat.strongRecOn generalizing p with
  | ind fuel ih =>
      cases p with
      | whole t => exact hvalue t hp
      | rule path t =>
          rw [readPart]
          cases hcodec : Γ.rule? path with
          | none => exact Costs.throw _
          | some codec =>
              have hwrite : Γ.writePart (.rule path t) = codec.write :=
                funext fun v => writePart_rule hcodec v
              rw [hwrite]
              exact hp.codec hcodec
      | fields t =>
          rw [readPart]
          rcases decodeFieldList_cases Γ fuel t with
            ⟨less, name, args, item, asMap, fields, rfl, rfl, hplan⟩ | hrefused
          · rw [decodeFieldList_struct value less hplan]
            refine Costs.map ((costs_each fun q hq => ih less (Nat.lt_succ_self less) ?_).imp
              fun vs k hvs => ?_)
            · obtain ⟨f, hf, rfl⟩ := List.mem_map.1 hq
              exact hp.component (.field hplan hf)
            · rw [writePart_fields hplan]
              exact hvs.2
          · rw [hrefused]
            exact Costs.throw _

/-! ## Elements -/

theorem costs_times {α : Type} {x : Reader α} {P : α → Nat → Prop} (h : Costs c x P) (n : Nat) :
    Costs c (times n x) fun as k => as.length = n ∧ Amounts P as k := by
  have heach : Costs c (Reader.each (fun _ : Unit => x) (List.replicate n ())) fun as k =>
      as.length = (List.replicate n ()).length ∧ Amounts P as k :=
    Costs.each (Q := fun (us : List Unit) as k => as.length = us.length ∧ Amounts P as k)
      ⟨rfl, .nil⟩ (fun _ _ _ _ _ _ ha has => ⟨congrArg Nat.succ has.1, .cons ha has.2⟩) fun _ _ => h
  rw [times, repeatOnto_eq]
  refine Costs.map (heach.imp fun as k has => ?_)
  rwa [List.length_replicate] at has

theorem within_elements {t : Ty} {vs : List Value} {k : Nat}
    (h : Amounts (fun v k => Writer.Within c k (encode Γ t v)) vs k) :
    Writer.Within c k (Γ.writeParts (List.replicate vs.length (.whole t)) vs) := by
  induction h with
  | nil => exact .nothing
  | cons hv _ ih => exact hv.bind ih

/-- Elements behind their header, of which values are made that come to no more. -/
theorem shortens_elements {α : Type} {x : Reader α} {P : α → Nat → Prop} (hx : Costs c x P)
    {t e : Ty} {f : List α → List Value}
    (hf : ∀ as n, Amounts P as n → (f as).length ≤ as.length ∧
      ∃ k ≤ n, Amounts (fun v k => Writer.Within c k (encode Γ e v)) (f as) k)
    (hwrite : ∀ ws, Γ.writePart (.whole t) (.list ws) = (do
      Writer.arrayHeader ws.length
      Γ.writeParts (List.replicate ws.length (.whole e)) ws)) :
    Shortens c ((fun as => Value.list (f as)) <$> decodeVec x) (encode Γ t) := by
  refine Costs.map (Costs.arrayHeader.bind fun n m hm => (costs_times hx n).imp fun as k has => ?_)
  obtain ⟨hlen, l, hl, hws⟩ := hf as k has.2
  rw [has.1] at hlen
  have hheader := Writer.Within.arrayHeader (c := c) (Nat.lt_of_le_of_lt hlen hm.1)
    (Nat.le_trans (Format.Size.array_mono hlen) hm.2)
  have hall := hheader.bind (within_elements hws)
  rw [← hwrite] at hall
  exact hall.mono (by omega)

/-! ### Pairs -/

def PairWithin (Γ : Schema) (c : Context) (k u : Ty) (p : Value × Value) (n : Nat) : Prop :=
  ∃ a b, 1 + (a + b) ≤ n ∧ Writer.Within c a (encode Γ k p.1) ∧ Writer.Within c b (encode Γ u p.2)

section Pairs

variable {k u : Ty} {p q : Value × Value} {m n : Nat}

theorem PairWithin.within (h : PairWithin Γ c k u p n) :
    Writer.Within c n (encode Γ (.tuple [k, u]) (.ofPair p)) := by
  obtain ⟨a, b, hn, hkey, hcontent⟩ := h
  have hheader : Writer.Within c 1 (Writer.arrayHeader 2) :=
    .arrayHeader (by decide) (Nat.le_refl 1)
  have hparts : Writer.Within c (a + b) (Γ.writeParts [.whole k, .whole u] [p.1, p.2]) := by
    have hnothing : Writer.Within c 0 (Γ.writeParts [] []) := .nothing
    exact hkey.bind (hcontent.bind hnothing)
  have hwrite : Γ.writePart (.whole (.tuple [k, u])) (.list [p.1, p.2]) = _ := writePart_list rfl
  exact (hwrite ▸ hheader.bind hparts).mono hn

/-- The key of one pair and the value of another come to no more than both pairs. -/
theorem PairWithin.merge (kind : TableKind) (o : KeyOrder) (hp : PairWithin Γ c k u p m)
    (hq : PairWithin Γ c k u q n) :
    ∃ l ≤ m + n, PairWithin Γ c k u ((TableRule.ofMap kind o).merge p q) l := by
  obtain ⟨a, b, hm, hkey, -⟩ := hp
  obtain ⟨a', b', hn, hkey', hcontent⟩ := hq
  cases kind with
  | ordered => exact ⟨n, by omega, a', b', hn, hkey', hcontent⟩
  | hashed | fastHashed | indexed =>
      exact ⟨m + n, Nat.le_refl _, a, b', by omega, hkey, hcontent⟩

theorem costs_pair (hkey : Shortens c (value k) (encode Γ k))
    (hcontent : Shortens c (value u) (encode Γ u)) :
    Costs c (pair (value k) (value u)) (PairWithin Γ c k u) := by
  refine (Costs.arrayHeaderOf 2).bind fun _ m hm => hkey.bind fun v a hv =>
    hcontent.bind fun w b hw => Costs.pure ⟨a, b, ?_, hv, hw⟩
  have hheader : 1 ≤ m := hm.2
  omega

end Pairs

/-- A list of a fixed length behind its header. -/
theorem shortens_list {t : Ty} {n : Nat} {ps : List Part}
    (hparts : Γ.parts (.whole t) n = some ps)
    (h : ∀ p ∈ ps, Shortens c (Γ.readPart value 0 p) (Γ.writePart p)) :
    Shortens c (do
      arrayHeaderOf n
      Value.list <$> Reader.each (Γ.readPart value 0) ps) (encode Γ t) := by
  refine (Costs.arrayHeaderOf n).bind fun _ m hm => Costs.map ?_
  refine (costs_each h).imp fun vs k hvs => ?_
  have hlen : vs.length = n := hvs.1.trans (length_parts hparts)
  subst hlen
  have hwrite : encode Γ t (.list vs) = _ := writePart_list hparts
  rw [hwrite]
  exact (Writer.Within.arrayHeader hm.1 hm.2).bind hvs.2

/-! ## Options -/

theorem shortens_nilOr {y : Reader Value} {w : Value → Writer Unit}
    (habsent : Writer.Within c 1 (w .absent)) (hy : Shortens c y fun v => w (.present v)) :
    Shortens c (nilOr y) w := by
  refine Costs.peek.bind fun code m hm => .ite (fun _ => ?_) fun _ => ?_
  · exact Costs.nil.bind fun _ k hk => Costs.pure (habsent.mono (by omega))
  · exact hy.bind fun v k hv => Costs.pure (hv.mono (by omega))

theorem shortens_decodeOptional {t : Ty} (hcodec : Γ.codec? (.option t) = none)
    (ht : Γ.Concise c (.whole t))
    (hvalue : ∀ t, Γ.Concise c (.whole t) → Shortens c (value t) (encode Γ t)) :
    Shortens c (decodeOptional value t) (encode Γ (.option t)) := by
  obtain ⟨hderef, hpointer, -⟩ := ht.types t .refl
  have habsent : Writer.Within c 1 (encode Γ (.option t) .absent) := by
    have hwrite : encode Γ (.option t) .absent = encodeAbsent t := writePart_absent hcodec
    rw [hwrite, encodeAbsent, if_neg (by simp [hpointer])]
    exact .nil (Nat.le_refl 1)
  have hwrite (v : Value) : encode Γ (.option t) (.present v) = (do
      if t.isOption then Writer.arrayHeader 1
      encode Γ t v) := writePart_present v hcodec hderef
  cases hoption : t.isOption with
  | false =>
      rw [decodeOptional_other hpointer hoption]
      refine shortens_nilOr habsent ((hvalue t ht).imp fun v k hv => ?_)
      simp only [hwrite, hoption]
      exact hv
  | true =>
      obtain ⟨u, rfl⟩ : ∃ u, t = .option u := by
        cases t with
        | option u => exact ⟨u, rfl⟩
        | _ => cases hoption
      refine shortens_nilOr habsent ((Costs.arrayHeaderOf 1).bind fun _ m hm => ?_)
      refine (hvalue _ ht).imp fun v k hv => ?_
      simp only [hwrite, hoption, if_true]
      exact (Writer.Within.arrayHeader hm.1 hm.2).bind hv

/-! ## Entries -/

theorem holder_of_found {fields : List (MarkedField Ty)} {key : String} {i : Nat}
    {holder : Holder Ty}
    (hi : (fields.map MarkedField.holder).findIdx? (·.key == key) = some i)
    (hholder : (fields.map MarkedField.holder).find? (·.key == key) = some holder) :
    ∃ f, fields[i]? = some f ∧ holder = f.holder ∧ f.key = key := by
  have hkey := List.find?_some hholder
  rw [List.find?_eq_bind_findIdx?_getElem?, hi, Option.bind_some, List.getElem?_map,
    Option.map_eq_some_iff] at hholder
  obtain ⟨f, hf, rfl⟩ := hholder
  exact ⟨f, hf, rfl, beq_iff_eq.1 hkey⟩

/-- What it takes to write the value in the slot of a field, if it is there. -/
def EntryWithin (Γ : Schema) (c : Context) (σ : List (String × Ty))
    (q : MarkedField Ty × Option Value) (k : Nat) : Prop :=
  ∀ v, q.2 = some v → Writer.Within c k (do
    Writer.str q.1.key
    Γ.writePart (q.1.part σ) v)

section Entries

variable {fields : List (MarkedField Ty)} {σ : List (String × Ty)} {slots : List (Option Value)}
  {k : Nat}

theorem amounts_empty (fields : List (MarkedField Ty)) :
    Amounts (EntryWithin Γ c σ) (fields.zip (List.replicate fields.length none)) 0 := by
  induction fields with
  | nil => exact .nil
  | cons f fields ih => exact .cons (m := 0) (fun v hv => by cases hv) ih

theorem zip_set {α β : Type} {as : List α} {a : α} {i : Nat} (h : as[i]? = some a) (bs : List β)
    (b : β) : as.zip (bs.set i b) = (as.zip bs).set i (a, b) := by
  induction as generalizing i bs with
  | nil => cases h
  | cons a' as ih =>
      cases bs with
      | nil => rfl
      | cons b' bs =>
          cases i with
          | zero =>
              cases h
              rfl
          | succ i =>
              rw [List.set_cons_succ, List.zip_cons_cons, ih h, List.zip_cons_cons,
                List.set_cons_succ]

/-- An entry that is read pays for the value that it puts into a slot. -/
theorem costs_decodeEntries (struct : String) (fuel : Nat)
    (hfields : ∀ f ∈ fields, Shortens c (Γ.readPart value fuel (f.part σ))
      (Γ.writePart (f.part σ)))
    (n : Nat) (hslots : Amounts (EntryWithin Γ c σ) (fields.zip slots) k) :
    Costs c (decodeEntries struct (fields.map MarkedField.holder)
      (decodeField Γ value (decodeFieldList Γ value fuel) σ) n slots) fun slots' l =>
        slots'.length = slots.length ∧
          ∃ m ≤ k + l, Amounts (EntryWithin Γ c σ) (fields.zip slots') m := by
  induction n generalizing slots k with
  | zero => exact Costs.pure ⟨rfl, k, Nat.le_refl k, hslots⟩
  | succ n ih =>
      rw [decodeEntries]
      refine Costs.str.bind fun key l hl => ?_
      split
      · next i holder hi hholder =>
          obtain ⟨f, hf, rfl, rfl⟩ := holder_of_found hi hholder
          have hread := hfields f (List.mem_of_getElem? hf)
          rw [← decodeField_eq] at hread
          refine hread.bind fun v m hv => ?_
          have hentry : EntryWithin Γ c σ (f, some v) (l + m) := by
            rintro w ⟨⟩
            exact (Writer.Within.str hl.1 hl.2).bind hv
          obtain ⟨k', hk', hset⟩ := hslots.set hentry i
          rw [← zip_set hf] at hset
          refine (ih hset).imp fun slots' m' hslots' => ?_
          obtain ⟨hlen, m'', hm'', hamounts⟩ := hslots'
          exact ⟨hlen.trans List.length_set, m'', by omega, hamounts⟩
      · exact Costs.throw _

/-- Slots that are all filled are written as entries. -/
theorem costs_takeSlots (struct : String) (hlen : slots.length = fields.length)
    (hslots : Amounts (EntryWithin Γ c σ) (fields.zip slots) k) :
    Costs c (takeSlots struct (fields.map MarkedField.held) slots) fun vs l =>
      l = 0 ∧ Writer.Within c k (Γ.writeEntries (fields.map (entry σ)) vs) := by
  induction fields generalizing slots k with
  | nil =>
      exact Costs.pure ⟨rfl, .nothing⟩
  | cons f fields ih =>
      cases slots with
      | nil => cases hlen
      | cons slot slots =>
          cases slot with
          | none => exact Costs.throw _
          | some v =>
              cases hslots with
              | cons hv hslots =>
                  refine (ih (Nat.succ.inj hlen) hslots).bind fun vs l hvs => Costs.pure ?_
                  refine ⟨by omega, ?_⟩
                  have hall := (hv v rfl).bind hvs.2
                  rwa [bind_assoc] at hall

end Entries

/-! ## Derived types -/

section Derived

variable {name : String} {args : List Ty} {item : Item Ty}

theorem shortens_struct {asMap : Bool} {fields : List (MarkedField Ty)}
    (ht : Γ.Concise c (.whole (.named name args)))
    (hplan : Γ.plan? name = some (item, .struct asMap fields))
    (hvalue : ∀ t, Γ.Concise c (.whole t) → Shortens c (value t) (encode Γ t)) :
    Shortens c (decodeStep Γ value (.named name args)) (encode Γ (.named name args)) := by
  have hwrite (vs : List Value) : encode Γ (.named name args) (.list vs) = _ :=
    writePart_struct (Γ := Γ) hplan
  rw [decodeStep_struct value hplan]
  cases asMap with
  | true =>
      have hfields (f : MarkedField Ty) (hf : f ∈ fields) :=
        shortens_readPart baseDepth (ht.component (.entry hplan hf)) hvalue
      rw [if_pos rfl]
      refine Costs.mapHeader.bind fun count m hm => .ite ?_ fun _ => Costs.throw _
      rintro rfl
      refine (costs_decodeEntries item.name.name baseDepth hfields fields.length
        (amounts_empty fields)).bind fun slots k hslots => ?_
      obtain ⟨hlen, l, hl, hamounts⟩ := hslots
      rw [List.length_replicate] at hlen
      refine Costs.map ((costs_takeSlots item.name.name hlen hamounts).imp fun vs n hvs => ?_)
      rw [hwrite, if_pos rfl]
      exact ((Writer.Within.mapHeader hm.1 hm.2).bind hvs.2).mono (by omega)
  | false =>
      rw [if_neg Bool.false_ne_true]
      refine Costs.arrayHeader.bind fun count m hm => .ite ?_ fun _ => Costs.throw _
      rintro rfl
      obtain ⟨fuel, hfuel⟩ := exists_baseDepth
      rw [hfuel, decodeFieldList_struct value fuel hplan]
      refine Costs.map ((costs_each fun q hq => shortens_readPart fuel ?_ hvalue).imp
        fun vs k hvs => ?_)
      · exact ht.component (.member (.struct 0 hplan) hq)
      · rw [hwrite, if_neg Bool.false_ne_true, writtenFieldCount_eq]
        exact (Writer.Within.arrayHeader hm.1 hm.2).bind hvs.2

/-- An enum without fields is written as the number that was read. -/
theorem shortens_bare (hplan : Γ.plan? name = some (item, .bare)) :
    Shortens c (decodeStep Γ value (.named name args)) (encode Γ (.named name args)) := by
  rw [decodeStep_bare value hplan]
  refine (Costs.signed .w64).bind fun number m hm => ?_
  split
  · next index hindex =>
      obtain ⟨hlt, hnumber, -⟩ := List.findIdx?_eq_some_iff_getElem.1 hindex
      have hd := List.getElem?_eq_getElem hlt
      have hwrite : encode Γ (.named name args) (.variant index []) = _ :=
        writePart_bare (Γ := Γ) hplan hd
      refine Costs.pure ?_
      rw [hwrite, ← beq_iff_eq.1 hnumber]
      exact .int hm.2
  · exact Costs.throw _

/-- The arm that is found by its place is that of the variant in this place. -/
theorem variant_of_found {fieldss : List (List (MarkedField Ty))} {index : Nat} {arm : ReadArm Ty}
    (h : (Item.arms Item.readArmOf item.variants fieldss).find? (·.index == index) = some arm) :
    ∃ v fields, item.variants[index]? = some v ∧ fieldss[index]? = some fields ∧
      arm = Item.readArmOf v fields index := by
  obtain ⟨⟨⟨v, fields⟩, place⟩, hmem, rfl⟩ := List.mem_map.1 (List.mem_of_find?_eq_some h)
  have hfound := List.find?_some h
  obtain rfl : place = index := beq_iff_eq.1 hfound
  obtain ⟨hv, hfields⟩ := List.getElem?_zip_eq_some.1 (List.mem_zipIdx_iff_getElem?.1 hmem)
  exact ⟨v, fields, hv, hfields, rfl⟩

theorem shortens_variants {fieldss : List (List (MarkedField Ty))}
    (ht : Γ.Concise c (.whole (.named name args)))
    (hplan : Γ.plan? name = some (item, .variants fieldss))
    (hvalue : ∀ t, Γ.Concise c (.whole t) → Shortens c (value t) (encode Γ t)) :
    Shortens c (decodeStep Γ value (.named name args)) (encode Γ (.named name args)) := by
  rw [decodeStep_variants value hplan]
  refine Costs.arrayHeader.bind fun len m hm => .ite (fun _ => ?_) fun hlen => ?_
  · intro r a r' _ hr
    cases hr
  refine (Costs.unsigned .w32).bind fun index n hn => ?_
  split
  · next arm harm =>
      refine .ite (fun _ => ?_) fun hcount => ?_
      · intro r a r' _ hr
        cases hr
      obtain ⟨v, fields, hv, hfields, rfl⟩ := variant_of_found harm
      obtain ⟨v', hv', hmarked⟩ := exists_variantFields hplan hfields
      obtain rfl : v = v' := Option.some.inj (hv.symm.trans hv')
      obtain ⟨hassembled, -⟩ := Item.marked_of_variant hmarked
      have hcount : len = 1 + fields.length := by
        simp only [Item.readArmOf, ne_eq, not_not] at hcount
        omega
      subst hcount
      rw [Item.readArmOf, Item.parts_assemble hassembled, Reader.each_fields]
      refine Costs.map ((costs_each fun q hq => shortens_readPart baseDepth ?_ hvalue).imp
        fun vs k hvs => ?_)
      · obtain ⟨f, hf, rfl⟩ := List.mem_map.1 hq
        exact ht.component (.variant hplan (List.mem_of_getElem? hfields) hf)
      · have hwrite : encode Γ (.named name args) (.variant index vs) = _ :=
          writePart_variant (Γ := Γ) rfl hplan hfields
        rw [hwrite]
        exact (Writer.Within.arrayHeader hm.1 hm.2).bind ((Writer.Within.uint hn.2).bind hvs.2)
  · exact Costs.throw _

end Derived

/-! ## Types -/

theorem shortens_decodeStep {t : Ty} (ht : Γ.Concise c (.whole t))
    (hvalue : ∀ t, Γ.Concise c (.whole t) → Shortens c (value t) (encode Γ t)) :
    Shortens c (decodeStep Γ value t) (encode Γ t) := by
  induction t using Ty.tuple_induction with
  | tuple ts ih =>
      rw [decodeStep_tuple]
      have hread : Reader.each (decodeStep Γ value) ts =
          Reader.each (Γ.readPart (decodeStep Γ value) 0) (ts.map .whole) :=
        (each_map (Γ.readPart (decodeStep Γ value) 0) Part.whole ts).symm
      rw [hread]
      refine shortens_list (by simp [parts]) fun p hp => ?_
      have hpart := ht.component (.member (.tuple ts) hp)
      obtain ⟨u, hu, rfl⟩ := List.mem_map.1 hp
      exact ih u hu hpart
  | other t htuple =>
    obtain ⟨hderef, hpointer, hdouble⟩ := ht.types t .refl
    cases hcodec : Γ.codec? t with
    | some codec =>
      have hpart : Γ.partCodec? (.whole t) = some codec := by
        rw [partCodec?, hderef, hcodec]
      have hwrite : encode Γ t = codec.write := funext fun v => writePart_custom (Γ := Γ) hcodec v
      rw [decodeStep_custom value hcodec, hwrite]
      exact ht.codec hpart
    | none =>
      cases t with
      | scalar s =>
          refine Costs.map ((Shortens.scalar (s := s) ?_).imp fun d k hd => ?_)
          · rintro rfl
            exact hdouble rfl
          · have hwrite : encode Γ (.scalar s) (.scalar d) = _ := writePart_scalar (Γ := Γ) s d
            rwa [hwrite]
      | errorCode =>
          refine Costs.map (Shortens.errorCode.imp fun code k hcode => ?_)
          have hwrite : encode Γ .errorCode (.errorCode code) = _ :=
            writePart_errorCode (Γ := Γ) code
          rwa [hwrite]
      | tuple ts => exact absurd rfl (htuple ts)
      | array e n =>
          rw [decodeStep_array, times_eq Γ value 0 n e]
          refine shortens_list (by simp [parts]) fun p hp => ?_
          have hpart := ht.component (.member (.array e n) hp)
          exact shortens_readPart 0 hpart hvalue
      | seq kind e =>
          have he : Γ.Concise c (.whole e) :=
            ht.component (.member (.seq kind e 1) List.mem_cons_self)
          by_cases hkind : kind = .slice
          · subst hkind
            exact Costs.throw _
          · rw [decodeStep_seq value hkind]
            refine shortens_elements (hvalue e he)
              (fun vs n hvs => ⟨Nat.le_refl _, n, Nat.le_refl n, hvs⟩) fun ws => writePart_list ?_
            cases kind <;> first | rfl | exact absurd rfl hkind
      | set kind e =>
          have he : Γ.Concise c (.whole e) :=
            ht.component (.member (.set kind e 1) List.mem_cons_self)
          rw [decodeStep_set]
          refine shortens_elements (hvalue e he) (fun vs n hvs => hvs.ofList kind ?_)
            fun ws => writePart_set kind e ws
          intro old new m n hold hnew
          cases kind with
          | ordered => exact ⟨n, Nat.le_add_left n m, hnew⟩
          | hashed | fastHashed | indexed => exact ⟨m, Nat.le_add_right m n, hold⟩
      | map kind k u =>
          have hentry : Γ.Concise c (.whole (.tuple [k, u])) :=
            ht.component (.member (.map kind k u 1) List.mem_cons_self)
          have hmember {t : Ty} (h : t ∈ [k, u]) : Γ.Concise c (.whole t) :=
            hentry.component (.member (.tuple [k, u]) (List.mem_map_of_mem h))
          have hpair := costs_pair (hvalue k (hmember (by simp))) (hvalue u (hmember (by simp)))
          rw [decodeStep_map]
          refine shortens_elements hpair (fun ps n hps => ?_) fun ws => writePart_map kind k u ws
          obtain ⟨hlen, l, hl, htable⟩ := hps.ofList kind fun _ _ _ _ hp hq =>
            hp.merge kind (Γ.order k) hq
          rw [List.length_map]
          exact ⟨hlen, l, hl, htable.map fun _ _ hp => hp.within⟩
      | option t =>
          rw [decodeStep_option value hcodec]
          exact shortens_decodeOptional hcodec (ht.component (.content t)) hvalue
      | named name args =>
          cases hplan : Γ.plan? name with
          | none =>
              rw [decodeStep_of_no_plan value hcodec hplan]
              exact Costs.throw _
          | some found =>
              obtain ⟨item, plan⟩ := found
              cases plan with
              | struct asMap fields => exact shortens_struct ht hplan hvalue
              | bare => exact shortens_bare hplan
              | variants fieldss => exact shortens_variants ht hplan hvalue
      | shared pointee | unique pointee => cases hpointer
      | ref t | dyn name | param name => exact Costs.throw _

theorem shortens_decodeWithin (depth : Nat) {t : Ty} (ht : Γ.Concise c (.whole t)) :
    Shortens c (decodeWithin Γ depth t) (encode Γ t) := by
  induction depth generalizing t with
  | zero => exact Costs.throw _
  | succ depth ih => exact shortens_decodeStep ht fun t ht => ih ht

/-- The writer's form is the shortest one that the reader accepts: what was read as a value of a
type is written in no more bytes than it was read from, wherever there is room for these, and so
are integers, texts, raw bytes and extensions, and the headers of what has a count or a length. -/
theorem Schema.Concise.shortest {t : Ty} (ht : Γ.Concise c (.whole t)) :
    Shortens c (decode Γ t) (encode Γ t) ∧
    Shortens c Reader.uint Writer.uint ∧ Shortens c Reader.int Writer.int ∧
    Shortens c Reader.arrayHeader Writer.arrayHeader ∧
    Shortens c Reader.mapHeader Writer.mapHeader ∧ Shortens c Reader.str Writer.str ∧
    Shortens c Reader.blobHeader Writer.blobHeader ∧ Shortens c Reader.blob Writer.blob ∧
    Shortens c Reader.extHeader (fun header => Writer.extHeader header.1 header.2) ∧
    Shortens c Reader.ext (fun e => Writer.ext e.1 e.2) := by
  refine ⟨?_, .uint, .int, .arrayHeader, .mapHeader, .str, .blobHeader, .blob, .extHeader, .ext⟩
  have hremaining : Costs c Reader.remaining fun _ k => k = 0 := by
    intro r n r' hc hr
    cases hr
    exact ⟨hc, 0, rfl, rfl⟩
  refine hremaining.bind fun n m hm => ?_
  refine (shortens_decodeWithin (depthBound n) ht).imp fun v k hv => hv.mono (by omega)

namespace Sample

def reading : Ty := type "Reading"

/-- Readings are framed as maps; their marks are a set. -/
def readings : Schema where
  types := [
    mapStruct "Reading" [field "marks" (.set .ordered .u16),
      field "unit" (.option (type "Unit")), marked (withRule Codec.blobPath) "raw" (.vec .u8)],
    enum "Unit" [plain "Metre", variant "Scaled" (.positional [part .i64])]]
  rules := [(Codec.blobPath, .blob)]

/-- The bytes of a reading with the unit in front of the marks, of which one comes twice, and with
wider headers and numbers than a writer makes. -/
def wideReading : List UInt8 :=
  [0xde, 0, 3, 0xd9, 4, 0x75, 0x6e, 0x69, 0x74, 0xdc, 0, 2, 0xcc, 1, 0xd3, 0, 0, 0, 0, 0, 0, 0, 5,
    0xa5, 0x6d, 0x61, 0x72, 0x6b, 0x73, 0xdd, 0, 0, 0, 3, 7, 0xcd, 0, 7, 2,
    0xa3, 0x72, 0x61, 0x77, 0xc5, 0, 1, 9]

def readingStream : InStream := .ofBytes .standard (packed (wideReading ++ [5])) 0 none

end Sample

/-- A reading is read from forty-seven bytes, and can be written in as many. -/
theorem shortest_reading :
    ∃ v r', decode Sample.readings Sample.reading Sample.readingStream = .ok v r' ∧
      r'.cursor.pos = 47 ∧ ∃ bytes, bytes.length ≤ 47 ∧
        encode Sample.readings Sample.reading v (.ofSink .standard .growable none) =
          .ok () ((OutStream.ofSink .standard .growable none).append bytes) := by
  have hconcise : Sample.readings.Concise .standard (.whole Sample.reading) :=
    .of_plain (by decide +kernel) (fun path codec hcodec =>
      Schema.eq_of_rule? (Γ := Sample.readings) rfl hcodec ▸ Codec.shortens_blob .standard) rfl
  obtain ⟨v, hr⟩ := ok_of_succeeds (x := decode Sample.readings Sample.reading)
    (s := Sample.readingStream) (by decide +kernel)
  have hpos : (stateAfter (decode Sample.readings Sample.reading)
    Sample.readingStream).cursor.pos = 47 := by decide +kernel
  obtain ⟨-, k, hcursor, hwithin⟩ := hconcise.shortest.1 _ v _ rfl hr
  have hk : k = 47 := by
    have hskip := congrArg ByteCursor.pos hcursor
    rw [hpos] at hskip
    exact (hskip.trans (Nat.zero_add k)).symm
  obtain ⟨bytes, hlen, hencode⟩ := hwithin (.ofSink .standard .growable none) rfl rfl
  exact ⟨v, _, hr, hpos, bytes, hk ▸ hlen, hencode⟩

end ObjectStream
