import ObjectStream.Proofs.Plan
import ObjectStream.Proofs.Settings

/-!
# Settings in the code

What becomes of the settings that an item and its fields ask for. Both generators
refuse the same items: unions, attributes that do not list settings, settings that
clash, maps of fields without names, and bases where there is no room for them. In
the code of the others a struct is framed as a map if it asks for that, and each
field is written and read by what it asks for. Three kinds of setting are dropped
without a word: to be a map, in an enum; whatever stands on a variant; and a rule
with another one behind it.
-/

namespace ObjectStream

variable {τ : Type} {check : PathCheck}

theorem exists_mapM {ε α β : Type} {g : α → Except ε β} {as : List α}
    (h : ∀ a ∈ as, ∃ b, g a = .ok b) : ∃ bs, as.mapM g = .ok bs := by
  induction as with
  | nil => exact ⟨[], rfl⟩
  | cons a as ih =>
      rw [List.forall_mem_cons] at h
      obtain ⟨b, hb⟩ := h.1
      obtain ⟨bs, hbs⟩ := ih h.2
      exact ⟨b :: bs, by rw [List.mapM_cons, hb, hbs]; rfl⟩

theorem exists_getElem? {α β : Type} {R : α → β → Prop} {as : List α} {bs : List β} {a : α}
    {n : Nat} (h : List.Forall₂ R as bs) (ha : as[n]? = some a) : ∃ b, bs[n]? = some b ∧ R a b := by
  induction h generalizing n with
  | nil => cases ha
  | @cons a' b' as bs hr _ ih =>
      cases n with
      | zero =>
          cases ha
          exact ⟨b', rfl, hr⟩
      | succ n => exact ih ha

/-! ## What fields ask for -/

def Fields.list (fields : Fields τ) : List (Field τ) := fields.members.map Prod.snd

namespace Field

def Asks (f : Field τ) (check : PathCheck) (s : FieldSetting) : Prop :=
  ∃ ss, ObjectStream.Asks (FieldSetting.Spells check) f.attributes ss ∧ s ∈ ss

def Marked (check : PathCheck) (f : Field τ) (m : MarkedField τ) : Prop :=
  m.type = f.type ∧ FieldMarks.ofAttributes check f.attributes = .ok m.marks

variable {f : Field τ} {m : MarkedField τ} {ss : List FieldSetting}

theorem Marked.marks_eq (h : Field.Marked check f m)
    (hss : ObjectStream.Asks (FieldSetting.Spells check) f.attributes ss) :
    m.marks = ⟨decide (.base ∈ ss), FieldSetting.lastRule ss⟩ := by
  have hmarks := h.2
  rw [FieldMarks.ofAttributes_of_asks hss (FieldMarks.not_clash hss h.2)] at hmarks
  exact (Except.ok.inj hmarks).symm

theorem Marked.base_iff (h : Field.Marked check f m) :
    m.marks.base = true ↔ f.Asks check .base := by
  obtain ⟨ss, hss⟩ := FieldMarks.exists_asks h.2
  constructor
  · intro hbase
    rw [h.marks_eq hss] at hbase
    exact ⟨ss, hss, of_decide_eq_true hbase⟩
  · rintro ⟨ts, hts, hmem⟩
    rw [h.marks_eq hts]
    exact decide_eq_true hmem

/-- The field asks for settings, and not for a base and a rule at once. -/
def Clear (f : Field τ) (check : PathCheck) : Prop :=
  ∃ ss, ObjectStream.Asks (FieldSetting.Spells check) f.attributes ss ∧ ¬ FieldSetting.Clash ss

theorem clear_iff :
    f.Clear check ↔ ∃ marks, FieldMarks.ofAttributes check f.attributes = .ok marks := by
  constructor
  · rintro ⟨ss, hss, hclash⟩
    exact ⟨_, FieldMarks.ofAttributes_of_asks hss hclash⟩
  · rintro ⟨marks, hmarks⟩
    obtain ⟨ss, hss⟩ := FieldMarks.exists_asks hmarks
    exact ⟨ss, hss, FieldMarks.not_clash hss hmarks⟩

theorem Marked.clear (h : Field.Marked check f m) : f.Clear check := clear_iff.2 ⟨m.marks, h.2⟩

/-- There is a base among fields if one of them asks to be one. -/
theorem hasBase_iff {fs : List (Field τ)} {ms : List (MarkedField τ)}
    (h : List.Forall₂ (Marked check) fs ms) :
    hasBase ms = true ↔ ∃ f ∈ fs, f.Asks check .base := by
  induction h with
  | nil => simp [hasBase]
  | cons hm _ ih =>
      rw [hasBase] at ih
      rw [hasBase, List.any_cons, Bool.or_eq_true, ih, hm.base_iff]
      simp

/-- There is no base among fields if none of them asks to be one. -/
theorem hasBase_eq_false_iff {fs : List (Field τ)} {ms : List (MarkedField τ)}
    (h : List.Forall₂ (Marked check) fs ms) :
    hasBase ms = false ↔ ∀ f ∈ fs, ¬ f.Asks check .base := by
  rw [← Bool.not_eq_true, hasBase_iff h]
  simp only [not_exists, not_and]

end Field

namespace Fields

variable {fields : Fields τ} {marked : List (MarkedField τ)}

theorem list_of_isUnit (h : fields.isUnit = true) : fields.list = [] := by
  cases fields with
  | unit => rfl
  | named | positional => cases h

theorem forall₂_marked (h : fields.marked check = .ok marked) :
    List.Forall₂ (Field.Marked check) fields.list marked := by
  rw [list, List.forall₂_map_left_iff]
  refine ((Item.mapM_ok_iff _ _ _).1 h).imp fun f m hm => ?_
  obtain ⟨marks, hmarks, hpure⟩ := bind_eq_ok hm
  cases hpure
  exact ⟨rfl, hmarks⟩

theorem clear_of_marked (h : fields.marked check = .ok marked) {f : Field τ}
    (hf : f ∈ fields.list) : f.Clear check := by
  obtain ⟨n, hn⟩ := List.getElem?_of_mem hf
  obtain ⟨m, -, hm⟩ := exists_getElem? (forall₂_marked h) hn
  exact hm.clear

theorem exists_marked (h : ∀ f ∈ fields.list, f.Clear check) :
    ∃ marked, fields.marked check = .ok marked := by
  refine exists_mapM fun ⟨member, f⟩ hf => ?_
  obtain ⟨marks, hmarks⟩ := Field.clear_iff.1 (h f (List.mem_map_of_mem hf))
  refine ⟨⟨member, f.type, marks⟩, ?_⟩
  simp only [hmarks]
  rfl

end Fields

/-! ## Places of fields -/

inductive FieldPlace
  | member (n : Nat)
  | variant (index n : Nat)

def Item.field? (item : Item τ) : FieldPlace → Option (Field τ)
  | .member n => item.fields.list[n]?
  | .variant index n => item.variants[index]?.bind (·.fields.list[n]?)

namespace WriterCode

/-- The functions by which the field at a place is written, wherever the code writes it. -/
def writers (w : WriterCode τ) : FieldPlace → List (FieldWriter τ)
  | .member n =>
      let listed := w.fieldList.bind (·.steps[n]?)
      let keyed := match w.body with
        | .fieldMap _ entries => entries[n]?
        | _ => none
      (listed.toList ++ keyed.toList).map (·.writer)
  | .variant index n =>
      match w.body with
      | .variantArray arms => ((arms[index]?.bind (·.steps[n]?)).map (·.writer)).toList
      | _ => []

def isMap (w : WriterCode τ) : Bool :=
  match w.body with
  | .fieldMap .. => true
  | _ => false

end WriterCode

namespace ReaderCode

/-- The functions by which the field at a place is read, wherever the code reads it. -/
def readers (r : ReaderCode τ) : FieldPlace → List (FieldReader τ)
  | .member n =>
      let listed := r.fieldList.bind (·.result.parts[n]?)
      let keyed := match r.body with
        | .fieldMap _ _ holders _ => holders[n]?.map Holder.reader
        | _ => none
      listed.toList ++ keyed.toList
  | .variant index n =>
      match r.body with
      | .variantArray _ arms => (arms[index]?.bind (·.result.parts[n]?)).toList
      | _ => []

def isMap (r : ReaderCode τ) : Bool :=
  match r.body with
  | .fieldMap .. => true
  | _ => false

end ReaderCode

/-- A list that has nothing but one thing, at least once. -/
def IsOnly {α : Type} (a : α) (as : List α) : Prop := as ≠ [] ∧ ∀ b ∈ as, b = a

theorem IsOnly.unique {α : Type} {a b : α} {as : List α} (ha : IsOnly a as) (hb : IsOnly b as) :
    a = b := by
  obtain ⟨c, hc⟩ := List.exists_mem_of_ne_nil as ha.1
  rw [← ha.2 c hc, hb.2 c hc]

namespace Item

variable {item : Item τ} {p : Plan τ} {f : Field τ} {place : FieldPlace}

theorem field?_variant {index n : Nat} (h : item.field? (.variant index n) = some f) :
    ∃ v, item.variants[index]? = some v ∧ v.fields.list[n]? = some f := by
  rw [field?, Option.bind_eq_some_iff] at h
  exact h

theorem field?_member_of_enum {variants : List (Variant τ)} {n : Nat}
    (hdata : item.data = .enum variants) : item.field? (.member n) = none := by
  rw [field?, Item.fields, hdata]
  rfl

/-- The functions of its marks, and no others, write and read a field of a struct. -/
theorem only_member {asMap : Bool} {marked : List (MarkedField τ)} {m : MarkedField τ} {n : Nat}
    (hmarked : item.fields.marked item.checkPath = .ok marked) (hm : marked[n]? = some m) :
    IsOnly m.writer ((item.writerOf (.struct asMap marked)).writers (.member n)) ∧
      IsOnly m.reader ((item.readerOf (.struct asMap marked)).readers (.member n)) := by
  have hparts := parts_assemble hmarked MarkedField.reader
  constructor
  · cases asMap <;>
      simp [IsOnly, writerOf, WriterCode.writers, hm, MarkedField.memberStep,
        MarkedField.entryStep]
  · cases asMap <;>
      simp [IsOnly, readerOf, ReaderCode.readers, hm, hparts, MarkedField.holder]

/-- The functions of its marks, and no others, write and read a field of a variant. -/
theorem only_variant {fieldss : List (List (MarkedField τ))} {v : Variant τ}
    {marked : List (MarkedField τ)} {m : MarkedField τ} {index n : Nat}
    (hv : item.variants[index]? = some v) (hmarked : v.fields.marked item.checkPath = .ok marked)
    (hfields : fieldss[index]? = some marked) (hm : marked[n]? = some m) :
    IsOnly m.writer ((item.writerOf (.variants fieldss)).writers (.variant index n)) ∧
      IsOnly m.reader ((item.readerOf (.variants fieldss)).readers (.variant index n)) := by
  have hwrite := getElem?_arms writeArmOf hv hfields
  have hread := getElem?_arms readArmOf hv hfields
  have hparts := parts_assemble hmarked MarkedField.reader
  constructor
  · simp [IsOnly, writerOf, WriterCode.writers, hwrite, writeArmOf, hm]
  · simp [IsOnly, readerOf, ReaderCode.readers, hread, readArmOf, hparts, hm]

/-- Wherever a field is written or read, it is by the function of its marks. -/
theorem exists_marked (hplan : item.plan = .ok p) (hf : item.field? place = some f) :
    ∃ m, Field.Marked item.checkPath f m ∧ IsOnly m.writer ((item.writerOf p).writers place) ∧
      IsOnly m.reader ((item.readerOf p).readers place) := by
  rcases plan_cases hplan with
    ⟨marks, asMap, marked, hdata, hmarked, -, rfl⟩ | ⟨hdata, hbare, rfl⟩ |
    ⟨fieldss, hdata, hvariants, rfl⟩
  · cases place with
    | member n =>
        obtain ⟨m, hm, hfm⟩ := exists_getElem? (Fields.forall₂_marked hmarked) hf
        exact ⟨m, hfm, only_member hmarked hm⟩
    | variant index n =>
        obtain ⟨v, hv, -⟩ := field?_variant hf
        rw [Item.variants, hdata] at hv
        cases hv
  · cases place with
    | member n =>
        rw [field?_member_of_enum hdata] at hf
        cases hf
    | variant index n =>
        obtain ⟨v, hv, hvf⟩ := field?_variant hf
        have hunit := List.all_eq_true.1 hbare v (List.mem_of_getElem? hv)
        rw [Fields.list_of_isUnit hunit] at hvf
        cases hvf
  · cases place with
    | member n =>
        rw [field?_member_of_enum hdata] at hf
        cases hf
    | variant index n =>
        obtain ⟨v, hv, hvf⟩ := field?_variant hf
        obtain ⟨marked, hfields, hmarked⟩ :=
          exists_getElem? ((mapM_ok_iff _ _ _).1 hvariants) hv
        replace hmarked := (marked_of_variant hmarked).1
        obtain ⟨m, hm, hfm⟩ := exists_getElem? (Fields.forall₂_marked hmarked) hvf
        exact ⟨m, hfm, only_variant hv hmarked hfields hm⟩

/-! ## Items that are accepted -/

def AsksMap (item : Item τ) : Prop :=
  ∃ ss, ObjectStream.Asks ItemSetting.Spells item.attributes ss ∧ .asMap ∈ ss

/-- What an item needs for code to be generated. -/
structure Accepted (item : Item τ) : Prop where
  settings : ∃ ss, ObjectStream.Asks ItemSetting.Spells item.attributes ss
  members : ∀ f ∈ item.fields.list, f.Clear item.checkPath
  /-- The fields of a map have names. -/
  names : item.AsksMap → ∀ fields, item.data = .struct fields → fields.isNamed = true
  /-- A map has no bases. -/
  map : item.AsksMap → ∀ f ∈ item.fields.list, ¬ f.Asks item.checkPath .base
  /-- A variant has no bases. -/
  variants : ∀ v ∈ item.variants, ∀ f ∈ v.fields.list,
    f.Clear item.checkPath ∧ ¬ f.Asks item.checkPath .base
  noUnion : ∀ fields, item.data ≠ .union fields

theorem asksMap_iff {marks : ItemMarks}
    (h : ItemMarks.ofAttributes item.attributes = .ok marks) :
    marks.asMap = true ↔ item.AsksMap := by
  obtain ⟨ss, hss⟩ := ItemMarks.exists_asks h
  constructor
  · intro hmap
    rw [ItemMarks.ofAttributes_of_asks hss] at h
    cases h
    exact ⟨ss, hss, of_decide_eq_true hmap⟩
  · rintro ⟨ts, hts, hmem⟩
    rw [ItemMarks.ofAttributes_of_asks hts] at h
    cases h
    exact decide_eq_true hmem

/-- The marks of an item with a plan, and what they say of the framing. -/
theorem marks_of_plan (h : item.plan = .ok p) :
    ∃ marks, ItemMarks.ofAttributes item.attributes = .ok marks ∧
      ∀ asMap marked, p = .struct asMap marked → framing marks item.fields marked = .ok asMap := by
  obtain ⟨marks, hmarks, hrest⟩ := bind_eq_ok h
  refine ⟨marks, hmarks, ?_⟩
  rintro asMap marked rfl
  rw [Item.fields]
  cases hdata : item.data with
  | struct fields =>
      rw [hdata] at hrest
      obtain ⟨found, hfound, hframed⟩ := bind_eq_ok hrest
      obtain ⟨asMap', hframing, hpure⟩ := bind_eq_ok hframed
      cases hpure
      exact hframing
  | enum variants =>
      rw [hdata] at hrest
      dsimp only at hrest
      split at hrest
      · cases hrest
      · cases hall : variants.mapM (variantFields item.checkPath) <;>
          simp [hall, Functor.map, Except.map] at hrest
  | union fields =>
      rw [hdata] at hrest
      cases hrest

theorem framing_eq_ok {marks : ItemMarks} {fields : Fields τ} {marked : List (MarkedField τ)}
    {asMap : Bool} : framing marks fields marked = .ok asMap ↔
      asMap = marks.asMap ∧
        (marks.asMap = true → fields.isNamed = true ∧ hasBase marked = false) := by
  unfold framing
  cases marks.asMap <;> cases fields.isNamed <;> cases hasBase marked <;> simp [eq_comm]

/-- The fields of a variant are taken if they ask for settings and none is a base. -/
theorem variantFields_iff {v : Variant τ} :
    (∃ marked, variantFields check v = .ok marked) ↔
      ∀ f ∈ v.fields.list, f.Clear check ∧ ¬ f.Asks check .base := by
  constructor
  · rintro ⟨marked, h⟩ f hf
    obtain ⟨hmarked, hbase⟩ := marked_of_variant h
    rw [Field.hasBase_eq_false_iff (Fields.forall₂_marked hmarked)] at hbase
    exact ⟨Fields.clear_of_marked hmarked hf, hbase f hf⟩
  · intro h
    obtain ⟨marked, hmarked⟩ := Fields.exists_marked fun f hf => (h f hf).1
    have hbase : hasBase marked = false :=
      (Field.hasBase_eq_false_iff (Fields.forall₂_marked hmarked)).2 fun f hf => (h f hf).2
    refine ⟨marked, ?_⟩
    simp only [variantFields, hmarked, bind, Except.bind, hbase]
    rfl

theorem accepted_of_struct {marks : ItemMarks} {marked : List (MarkedField τ)} {asMap : Bool}
    (hdata : item.data = .struct item.fields)
    (hmarks : ItemMarks.ofAttributes item.attributes = .ok marks)
    (hmarked : item.fields.marked item.checkPath = .ok marked)
    (hframing : framing marks item.fields marked = .ok asMap) : item.Accepted where
  settings := ItemMarks.exists_asks hmarks
  members _ hf := Fields.clear_of_marked hmarked hf
  names hasks fields hfields := by
    rw [hdata] at hfields
    cases hfields
    exact ((framing_eq_ok.1 hframing).2 ((asksMap_iff hmarks).2 hasks)).1
  map hasks := by
    rw [← Field.hasBase_eq_false_iff (Fields.forall₂_marked hmarked)]
    exact ((framing_eq_ok.1 hframing).2 ((asksMap_iff hmarks).2 hasks)).2
  variants v hv := by
    rw [Item.variants, hdata] at hv
    cases hv
  noUnion fields hunion := by
    rw [hdata] at hunion
    cases hunion

theorem accepted_of_enum {marks : ItemMarks} (hdata : item.data = .enum item.variants)
    (hmarks : ItemMarks.ofAttributes item.attributes = .ok marks)
    (hvariants : ∀ v ∈ item.variants, ∀ f ∈ v.fields.list,
      f.Clear item.checkPath ∧ ¬ f.Asks item.checkPath .base) :
    item.Accepted := by
  have hfields : item.fields.list = [] := by
    rw [Item.fields, hdata]
    rfl
  refine
    { settings := ItemMarks.exists_asks hmarks
      members := fun f hf => ?_
      names := fun _ fields hstruct => ?_
      map := fun _ f hf => ?_
      variants := hvariants
      noUnion := fun fields hunion => ?_ }
  · rw [hfields] at hf
    cases hf
  · rw [hdata] at hstruct
    cases hstruct
  · rw [hfields] at hf
    cases hf
  · rw [hdata] at hunion
    cases hunion

theorem accepted_of_plan (h : item.plan = .ok p) : item.Accepted := by
  obtain ⟨marks, hmarks, hframing⟩ := marks_of_plan h
  rcases plan_cases h with
    ⟨_, asMap, marked, hdata, hmarked, -, rfl⟩ | ⟨hdata, hbare, -⟩ | ⟨fieldss, hdata, hall, -⟩
  · exact accepted_of_struct hdata hmarks hmarked (hframing asMap marked rfl)
  · refine accepted_of_enum hdata hmarks fun v hv f hf => ?_
    rw [Fields.list_of_isUnit (List.all_eq_true.1 hbare v hv)] at hf
    cases hf
  · refine accepted_of_enum hdata hmarks fun v hv => ?_
    obtain ⟨n, hn⟩ := List.getElem?_of_mem hv
    obtain ⟨marked, -, hmarked⟩ := exists_getElem? ((mapM_ok_iff _ _ _).1 hall) hn
    exact variantFields_iff.1 ⟨marked, hmarked⟩

theorem exists_plan (h : item.Accepted) : ∃ p, item.plan = .ok p := by
  obtain ⟨ss, hss⟩ := h.settings
  have hmarks := ItemMarks.ofAttributes_of_asks hss
  unfold plan
  simp only [hmarks, bind, Except.bind]
  cases hdata : item.data with
  | struct fields =>
      have hfields : item.fields = fields := by rw [Item.fields, hdata]
      obtain ⟨marked, hmarked⟩ := Fields.exists_marked h.members
      have hframing : framing ⟨decide (.asMap ∈ ss)⟩ fields marked =
          .ok (decide (.asMap ∈ ss)) := by
        refine framing_eq_ok.2 ⟨rfl, fun hmap => ?_⟩
        have hasks : item.AsksMap := (asksMap_iff hmarks).1 hmap
        rw [hfields] at hmarked
        exact ⟨h.names hasks fields hdata,
          (Field.hasBase_eq_false_iff (Fields.forall₂_marked hmarked)).2 (hfields ▸ h.map hasks)⟩
      rw [hfields] at hmarked
      simp only [hmarked, hframing]
      exact ⟨_, rfl⟩
  | enum variants =>
      have hvariants : item.variants = variants := by rw [Item.variants, hdata]
      obtain ⟨fieldss, hall⟩ := exists_mapM fun v hv => variantFields_iff.2 (h.variants v hv)
      rw [hvariants] at hall
      dsimp only
      split
      · exact ⟨_, rfl⟩
      · rw [hall]
        exact ⟨_, rfl⟩
  | union fields => exact absurd hdata (h.noUnion fields)

end Item

/-! ## Settings that are heeded -/

namespace FieldSetting

def writer (type : τ) : FieldSetting → FieldWriter τ
  | .base => .fields type
  | .rule path => .rule path type

def reader (type : τ) : FieldSetting → FieldReader τ
  | .base => .fields type
  | .rule path => .rule path type

/-- The setting that decides about a field: to be a base, or the last rule. -/
def deciding? (ss : List FieldSetting) : Option FieldSetting :=
  if .base ∈ ss then some .base else (lastRule ss).map .rule

def writerOf (type : τ) (ss : List FieldSetting) : FieldWriter τ :=
  ((deciding? ss).map (writer type)).getD (.value type)

def readerOf (type : τ) (ss : List FieldSetting) : FieldReader τ :=
  ((deciding? ss).map (reader type)).getD (.value type)

end FieldSetting

theorem Field.Marked.writer_eq {f : Field τ} {m : MarkedField τ} {ss : List FieldSetting}
    (h : Field.Marked check f m)
    (hss : ObjectStream.Asks (FieldSetting.Spells check) f.attributes ss) :
    m.writer = FieldSetting.writerOf f.type ss ∧ m.reader = FieldSetting.readerOf f.type ss := by
  simp only [MarkedField.writer, MarkedField.reader, h.marks_eq hss, h.1, FieldSetting.writerOf,
    FieldSetting.readerOf, FieldSetting.deciding?, decide_eq_true_iff]
  by_cases hbase : .base ∈ ss
  · simp [hbase, FieldSetting.writer, FieldSetting.reader]
  · cases hrule : FieldSetting.lastRule ss <;>
      simp [hbase, FieldSetting.writer, FieldSetting.reader]

/-- A setting decides if no other rule is asked for. -/
theorem FieldSetting.deciding?_eq {ss : List FieldSetting} {s : FieldSetting} (hs : s ∈ ss)
    (hclash : ¬ Clash ss)
    (hrules : ∀ path path', .rule path ∈ ss → .rule path' ∈ ss → path = path') :
    deciding? ss = some s := by
  unfold deciding?
  cases s with
  | base => rw [if_pos hs]
  | rule path =>
      have hbase : .base ∉ ss := fun hbase => hclash ⟨hbase, path, hs⟩
      obtain ⟨path', hpath'⟩ := Option.isSome_iff_exists.1 (lastRule_isSome.2 ⟨path, hs⟩)
      rw [if_neg hbase, hpath', hrules path path' hs (rule_mem hpath')]
      rfl

namespace Item

variable {item : Item τ} {w : WriterCode τ} {r : ReaderCode τ}

structure Heeds (item : Item τ) (w : WriterCode τ) (r : ReaderCode τ) : Prop where
  /-- A struct is a map if the item asks for it. -/
  map : (w.isMap = true ↔ item.AsksMap ∧ ∃ fields, item.data = .struct fields) ∧
    (r.isMap = true ↔ item.AsksMap ∧ ∃ fields, item.data = .struct fields)
  /-- Wherever a field is written or read, it is by the setting that decides. -/
  fields : ∀ place f ss, item.field? place = some f →
    ObjectStream.Asks (FieldSetting.Spells item.checkPath) f.attributes ss →
    IsOnly (FieldSetting.writerOf f.type ss) (w.writers place) ∧
      IsOnly (FieldSetting.readerOf f.type ss) (r.readers place)

/-- The code of an item honours every setting. -/
structure Honours (item : Item τ) (w : WriterCode τ) (r : ReaderCode τ) : Prop where
  map : item.AsksMap → w.isMap = true ∧ r.isMap = true
  fields : ∀ place f s, item.field? place = some f → f.Asks item.checkPath s →
    IsOnly (s.writer f.type) (w.writers place) ∧ IsOnly (s.reader f.type) (r.readers place)
  /-- Variants have no settings, so nothing may be asked for there. -/
  variants : ∀ v ∈ item.variants, ∀ a ∈ v.attributes, a.path = attributePath →
    a.body.lexemes = .ok []

/-- The item has a setting that is dropped without a word. -/
inductive Drops (item : Item τ) : Prop
  /-- An enum that asks to be a map. -/
  | map {variants : List (Variant τ)} : item.AsksMap → item.data = .enum variants → Drops item
  /-- Anything that stands on a variant. -/
  | variant {v : Variant τ} {a : Attribute} : v ∈ item.variants → a ∈ v.attributes →
      a.path = attributePath → a.body.lexemes ≠ .ok [] → Drops item
  /-- One of two different rules of a field. -/
  | rule {place : FieldPlace} {f : Field τ} {path path' : String} : item.field? place = some f →
      f.Asks item.checkPath (.rule path) → f.Asks item.checkPath (.rule path') → path ≠ path' →
      Drops item

def remark (item : Item τ) (attributes : Variant τ → List Attribute) : Item τ :=
  { item with
    data := match item.data with
      | .enum variants => .enum (variants.map fun v => { v with attributes := attributes v })
      | data => data }

theorem isMap_of_plan {p : Plan τ} (h : item.plan = .ok p) :
    ((item.writerOf p).isMap = true ↔ item.AsksMap ∧ ∃ fields, item.data = .struct fields) ∧
      ((item.readerOf p).isMap = true ↔ item.AsksMap ∧ ∃ fields, item.data = .struct fields) := by
  obtain ⟨marks, hmarks, hframing⟩ := marks_of_plan h
  rcases plan_cases h with
    ⟨_, asMap, marked, hdata, -, -, rfl⟩ | ⟨hdata, -, rfl⟩ | ⟨fieldss, hdata, -, rfl⟩
  · obtain ⟨rfl, -⟩ := framing_eq_ok.1 (hframing asMap marked rfl)
    rw [← asksMap_iff hmarks, hdata]
    cases hmap : marks.asMap <;>
      simp [writerOf, readerOf, WriterCode.isMap, ReaderCode.isMap]
  · rw [hdata]
    simp [writerOf, readerOf, WriterCode.isMap, ReaderCode.isMap]
  · rw [hdata]
    simp [writerOf, readerOf, WriterCode.isMap, ReaderCode.isMap]

theorem heeds_of_plan {p : Plan τ} (h : item.plan = .ok p) :
    item.Heeds (item.writerOf p) (item.readerOf p) where
  map := isMap_of_plan h
  fields place f ss hf hss := by
    obtain ⟨m, hm, hwrites, hreads⟩ := exists_marked h hf
    obtain ⟨hwriter, hreader⟩ := hm.writer_eq hss
    exact ⟨hwriter ▸ hwrites, hreader ▸ hreads⟩

theorem Accepted.clear (h : item.Accepted) {place : FieldPlace} {f : Field τ}
    (hf : item.field? place = some f) : f.Clear item.checkPath := by
  cases place with
  | member n => exact h.members f (List.mem_of_getElem? hf)
  | variant index n =>
      obtain ⟨v, hv, hvf⟩ := field?_variant hf
      exact (h.variants v (List.mem_of_getElem? hv) f (List.mem_of_getElem? hvf)).1

/-- A field of which no rule is dropped is written and read by each of its settings. -/
theorem Heeds.fields_honoured (h : item.Heeds w r) (haccepted : item.Accepted)
    (hdrops : ¬ item.Drops) {place : FieldPlace} {f : Field τ} {s : FieldSetting}
    (hf : item.field? place = some f) (hs : f.Asks item.checkPath s) :
    IsOnly (s.writer f.type) (w.writers place) ∧ IsOnly (s.reader f.type) (r.readers place) := by
  obtain ⟨ss, hss, hmem⟩ := hs
  obtain ⟨marks, hmarks⟩ := Field.clear_iff.1 (haccepted.clear hf)
  have hdeciding : FieldSetting.deciding? ss = some s := by
    refine FieldSetting.deciding?_eq hmem (FieldMarks.not_clash hss hmarks) ?_
    intro path path' hp hp'
    by_contra hne
    exact hdrops (.rule hf ⟨ss, hss, hp⟩ ⟨ss, hss, hp'⟩ hne)
  have honly := h.fields place f ss hf hss
  rwa [FieldSetting.writerOf, FieldSetting.readerOf, hdeciding] at honly

/-- In code that is generated every setting is honoured, if none is dropped. -/
theorem Heeds.honours_iff (h : item.Heeds w r) (haccepted : item.Accepted) :
    item.Honours w r ↔ ¬ item.Drops := by
  constructor
  · rintro hhonours (⟨hasks, hdata⟩ | ⟨hv, ha, hpath, hlexemes⟩ | ⟨hf, hrule, hrule', hne⟩)
    · obtain ⟨-, fields, hstruct⟩ := h.map.1.1 (hhonours.map hasks).1
      rw [hdata] at hstruct
      cases hstruct
    · exact hlexemes (hhonours.variants _ hv _ ha hpath)
    · have hsame := (hhonours.fields _ _ _ hf hrule).1.unique (hhonours.fields _ _ _ hf hrule').1
      cases hsame
      exact hne rfl
  · intro hdrops
    refine
      { map := fun hasks => ?_
        fields := fun place f s hf hs => h.fields_honoured haccepted hdrops hf hs
        variants := fun v hv a ha hpath => ?_ }
    · have hstruct : ∃ fields, item.data = .struct fields := by
        cases hdata : item.data with
        | struct fields => exact ⟨fields, rfl⟩
        | enum variants => exact absurd (.map hasks hdata) hdrops
        | union fields => exact absurd hdata (haccepted.noUnion fields)
      exact ⟨h.map.1.2 ⟨hasks, hstruct⟩, h.map.2.2 ⟨hasks, hstruct⟩⟩
    · by_contra hlexemes
      exact hdrops (.variant hv ha hpath hlexemes)

/-- The attributes of variants make no difference. -/
theorem code_remark (item : Item τ) (attributes : Variant τ → List Attribute) :
    (item.remark attributes).writerCode = item.writerCode ∧
      (item.remark attributes).readerCode = item.readerCode := by
  cases hdata : item.data with
  | struct fields | union fields =>
      have hsame : item.remark attributes = item := by
        obtain ⟨name, marks, generics, whereClause, data, checkPath⟩ := item
        cases hdata
        rfl
      rw [hsame]
      exact ⟨rfl, rfl⟩
  | enum variants =>
      have hbare : allBare (variants.map fun v => { v with attributes := attributes v }) =
          allBare variants := by
        simp [allBare, Function.comp_def]
      constructor
      · unfold writerCode remark
        simp only [hdata, hbare, List.zipIdx_map, List.mapM_map, List.map_map]
        rfl
      · unfold readerCode remark
        simp only [hdata, hbare, List.zipIdx_map, List.mapM_map, List.map_map]
        rfl

theorem plan_of_codes (hw : item.writerCode = .ok w) (hr : item.readerCode = .ok r) :
    ∃ p, item.plan = .ok p ∧ w = item.writerOf p ∧ r = item.readerOf p := by
  rw [writerCode_eq] at hw
  rw [readerCode_eq] at hr
  obtain ⟨p, hp, rfl⟩ := map_eq_ok hw
  rw [hp] at hr
  cases hr
  exact ⟨p, hp, rfl, rfl⟩

structure Settles (item : Item τ) : Prop where
  /-- Both generators refuse an item, for the same reason. -/
  refused : ∀ e, item.writerCode = .error e ↔ item.readerCode = .error e
  accepted : (∃ w, item.writerCode = .ok w) ↔ item.Accepted
  heeded : ∀ w r, item.writerCode = .ok w → item.readerCode = .ok r → item.Heeds w r
  /-- Every setting is honoured exactly if the item has none of those that are dropped. -/
  honoured : ∀ w r, item.writerCode = .ok w → item.readerCode = .ok r →
    (item.Honours w r ↔ ¬ item.Drops)
  /-- The attributes of variants make no difference. -/
  unread : ∀ attributes, (item.remark attributes).writerCode = item.writerCode ∧
    (item.remark attributes).readerCode = item.readerCode

/-- Settings are honoured or refused, but for those of three kinds, which are dropped. -/
theorem settings_settled (item : Item τ) : item.Settles where
  refused e := by
    rw [writerCode_eq, readerCode_eq]
    cases item.plan <;> simp [Except.map]
  accepted := by
    rw [writerCode_eq]
    constructor
    · rintro ⟨w, hw⟩
      obtain ⟨p, hp, -⟩ := map_eq_ok hw
      exact accepted_of_plan hp
    · intro haccepted
      obtain ⟨p, hp⟩ := exists_plan haccepted
      exact ⟨item.writerOf p, by rw [hp]; rfl⟩
  heeded w r hw hr := by
    obtain ⟨p, hp, rfl, rfl⟩ := plan_of_codes hw hr
    exact heeds_of_plan hp
  honoured w r hw hr := by
    obtain ⟨p, hp, rfl, rfl⟩ := plan_of_codes hw hr
    exact (heeds_of_plan hp).honours_iff (accepted_of_plan hp)
  unread attributes := item.code_remark attributes

end Item

/-! ## A map that is none -/

namespace Sample

def mapEnum : Item String where
  name := .plain "Mapped"
  attributes := [⟨"bstream", .list [.word "as_map"]⟩]
  generics := []
  whereClause := ""
  data := .enum [⟨.plain "One", .positional [⟨"u8", []⟩], [], none⟩]

example : mapEnum.writerCode.isOk = true ∧ mapEnum.Drops := by
  have hasks : Asks ItemSetting.Spells mapEnum.attributes ([.asMap] ++ []) :=
    .lists rfl rfl (.last .asMap) .none
  exact ⟨by decide, .map ⟨[.asMap], hasks, List.mem_cons_self⟩ rfl⟩

end Sample

end ObjectStream
