import Mathlib.Data.List.Forall2
import ObjectStream.Item.Writer
import ObjectStream.Item.Reader

/-!
# Plans of items

Both generators make the same checks on an item, and what they find is its plan:
the fields of a struct with their marks and how they are framed, or an enum
without fields, or the fields of each variant. The writer and the reader are
functions of the plan, so they belong together: neither is generated without
the other, and they go over the same fields in the same order.
-/

namespace ObjectStream

/-- What the generators make of an item. -/
inductive Plan (τ : Type)
  /-- The fields of a struct, framed as a map or as an array. -/
  | struct (asMap : Bool) (fields : List (MarkedField τ))
  /-- An enum without fields. -/
  | bare
  /-- The fields of each variant of an enum. -/
  | variants (fields : List (List (MarkedField τ)))

def Plan.fields {τ : Type} : Plan τ → List (MarkedField τ)
  | .struct _ fields => fields
  | .bare => []
  | .variants fieldss => fieldss.flatten

namespace Item

variable {τ : Type} {check : PathCheck}

def fields (item : Item τ) : Fields τ :=
  match item.data with
  | .struct fields => fields
  | _ => .unit

def variants (item : Item τ) : List (Variant τ) :=
  match item.data with
  | .enum variants => variants
  | _ => []

/-- The fields of a variant, of which none may be a base. -/
def variantFields (check : PathCheck) (v : Variant τ) :
    Except CompileError (List (MarkedField τ)) := do
  let fields ← v.fields.marked check
  if hasBase fields then throw .baseInVariant
  pure fields

def framing (marks : ItemMarks) (fields : Fields τ) (marked : List (MarkedField τ)) :
    Except CompileError Bool :=
  if marks.asMap then
    if !fields.isNamed then .error .mapNeedsNames
    else if hasBase marked then .error .baseInMap
    else .ok true
  else .ok false

/-- The plan of an item, or its first fault. -/
def plan (item : Item τ) : Except CompileError (Plan τ) := do
  let marks ← ItemMarks.ofAttributes item.attributes
  match item.data with
  | .struct fields =>
      let marked ← fields.marked item.checkPath
      let asMap ← framing marks fields marked
      pure (.struct asMap marked)
  | .enum variants =>
      if allBare variants then pure .bare
      else .variants <$> variants.mapM (variantFields item.checkPath)
  | .union _ => throw .union

/-! ## Code from plans -/

def writeArmOf (v : Variant τ) (fields : List (MarkedField τ)) (index : Nat) : WriteArm τ where
  variant := v.name
  pattern := v.fields.pattern
  header := 1 + fields.length
  index := index
  steps := fields.zipIdx.map fun (f, n) => ⟨none, .binding n, f.writer⟩

def readArmOf (v : Variant τ) (fields : List (MarkedField τ)) (index : Nat) : ReadArm τ where
  variant := v.name
  variantName := v.name.name
  index := index
  count := fields.length
  result := v.fields.assemble (fields.map MarkedField.reader)

def arms {α : Type} (arm : Variant τ → List (MarkedField τ) → Nat → α)
    (variants : List (Variant τ)) (fields : List (List (MarkedField τ))) : List α :=
  (variants.zip fields).zipIdx.map fun ((v, fields), index) => arm v fields index

def writerOf (item : Item τ) : Plan τ → WriterCode τ
  | .struct asMap fields =>
      ⟨some ⟨fields.map MarkedField.writeCount, fields.map MarkedField.memberStep⟩,
        if asMap then .fieldMap fields.length (fields.map MarkedField.entryStep) else .fieldArray⟩
  | .bare => ⟨none, .discriminant (item.variants.map Variant.name)⟩
  | .variants fields => ⟨none, .variantArray (arms writeArmOf item.variants fields)⟩

def readerOf (item : Item τ) : Plan τ → ReaderCode τ
  | .struct asMap fields =>
      ⟨some ⟨fields.map MarkedField.readCount,
          item.fields.assemble (fields.map MarkedField.reader)⟩,
        if asMap then
          .fieldMap item.name.name fields.length (fields.map MarkedField.holder)
            (item.fields.assemble (fields.map MarkedField.held))
        else .fieldArray item.name.name⟩
  | .bare => ⟨none, .discriminant item.name.name (item.variants.map Variant.name)⟩
  | .variants fields =>
      ⟨none, .variantArray item.name.name (arms readArmOf item.variants fields)⟩

/-- A check followed by a construction, for each variant in order. -/
theorem mapM_arms {α : Type} (check : PathCheck)
    (arm : Variant τ → List (MarkedField τ) → Nat → α)
    (build : Variant τ × Nat → Except CompileError α)
    (hbuild : ∀ v index, build (v, index) =
      (variantFields check v).map fun fields => arm v fields index)
    (variants : List (Variant τ)) :
    variants.zipIdx.mapM build =
      (variants.mapM (variantFields check)).map (arms arm variants) := by
  unfold arms
  generalize 0 = start
  induction variants generalizing start with
  | nil => rfl
  | cons v vs ih =>
      rw [List.zipIdx_cons, List.mapM_cons, List.mapM_cons, hbuild, ih]
      cases variantFields check v with
      | error e => rfl
      | ok fields =>
          cases vs.mapM (variantFields check) with
          | error e => rfl
          | ok fieldss => rfl

theorem writeArm_eq (check : PathCheck) (v : Variant τ) (index : Nat) :
    writeArm check v index =
      (variantFields check v).map fun fields => writeArmOf v fields index := by
  unfold writeArm variantFields
  cases v.fields.marked check with
  | error e => rfl
  | ok fields =>
      simp only [bind, Except.bind]
      split <;> rfl

theorem readArm_eq (check : PathCheck) (v : Variant τ) (index : Nat) :
    readArm check v index = (variantFields check v).map fun fields => readArmOf v fields index := by
  unfold readArm variantFields
  cases v.fields.marked check with
  | error e => rfl
  | ok fields =>
      simp only [bind, Except.bind]
      split <;> rfl

theorem structWriter_eq (marks : ItemMarks) (fields : Fields τ) (marked : List (MarkedField τ)) :
    structWriter marks fields marked = (framing marks fields marked).map fun asMap =>
      if asMap then .fieldMap marked.length (marked.map MarkedField.entryStep)
      else .fieldArray := by
  unfold structWriter framing
  repeat' split
  all_goals rfl

theorem structReader_eq (name : String) (marks : ItemMarks) (fields : Fields τ)
    (marked : List (MarkedField τ)) :
    structReader name marks fields marked = (framing marks fields marked).map fun asMap =>
      if asMap then .fieldMap name marked.length (marked.map MarkedField.holder)
        (fields.assemble (marked.map MarkedField.held))
      else .fieldArray name := by
  unfold structReader framing
  repeat' split
  all_goals rfl

/-- The generated writer is that of the plan, and fails when there is none. -/
theorem writerCode_eq (item : Item τ) : item.writerCode = item.plan.map item.writerOf := by
  unfold writerCode plan
  cases ItemMarks.ofAttributes item.attributes with
  | error e => rfl
  | ok marks =>
      simp only [bind, Except.bind]
      cases hdata : item.data with
      | struct fields =>
          dsimp only
          cases hmarked : fields.marked item.checkPath with
          | error e => rfl
          | ok marked =>
              simp only [structWriter_eq]
              cases hframing : framing marks fields marked <;> rfl
      | enum variants =>
          have hvariants : item.variants = variants := by
            rw [Item.variants, hdata]
          have harms := mapM_arms item.checkPath writeArmOf
            (fun x => writeArm item.checkPath x.1 x.2) (writeArm_eq item.checkPath) variants
          dsimp only
          rw [harms]
          split
          · simp only [pure, Except.pure, Except.map, writerOf, hvariants]
          · cases variants.mapM (variantFields item.checkPath) with
            | error e => rfl
            | ok fields =>
                simp only [pure, Except.pure, Except.map, writerOf, hvariants, Functor.map]
      | union fields => rfl

/-- The generated reader is that of the plan, and fails when there is none. -/
theorem readerCode_eq (item : Item τ) : item.readerCode = item.plan.map item.readerOf := by
  unfold readerCode plan
  cases ItemMarks.ofAttributes item.attributes with
  | error e => rfl
  | ok marks =>
      simp only [bind, Except.bind]
      cases hdata : item.data with
      | struct fields =>
          have hfields : item.fields = fields := by
            rw [Item.fields, hdata]
          dsimp only
          cases hmarked : fields.marked item.checkPath with
          | error e => rfl
          | ok marked =>
              simp only [structReader_eq]
              cases hframing : framing marks fields marked with
              | error e => rfl
              | ok asMap => simp only [pure, Except.pure, Except.map, readerOf, hfields]
      | enum variants =>
          have hvariants : item.variants = variants := by
            rw [Item.variants, hdata]
          have harms := mapM_arms item.checkPath readArmOf
            (fun x => readArm item.checkPath x.1 x.2) (readArm_eq item.checkPath) variants
          dsimp only
          rw [harms]
          split
          · simp only [pure, Except.pure, Except.map, readerOf, hvariants]
          · cases variants.mapM (variantFields item.checkPath) with
            | error e => rfl
            | ok fields =>
                simp only [pure, Except.pure, Except.map, readerOf, hvariants, Functor.map]
      | union fields => rfl

/-! ## What a plan says of its item -/

/-- What the checks on an item have found when there is a plan. -/
theorem plan_cases {item : Item τ} {p : Plan τ} (h : item.plan = .ok p) :
    (∃ marks asMap marked, item.data = .struct item.fields ∧
      item.fields.marked item.checkPath = .ok marked ∧
      framing marks item.fields marked = .ok asMap ∧ p = .struct asMap marked) ∨
    (item.data = .enum item.variants ∧ allBare item.variants = true ∧ p = .bare) ∨
    (∃ fields, item.data = .enum item.variants ∧
      item.variants.mapM (variantFields item.checkPath) = .ok fields ∧ p = .variants fields) := by
  unfold plan at h
  unfold Item.fields Item.variants
  cases hmarks : ItemMarks.ofAttributes item.attributes with
  | error e => simp [hmarks, bind, Except.bind] at h
  | ok marks =>
      simp only [hmarks, bind, Except.bind] at h
      cases hdata : item.data with
      | struct declared =>
          simp only [hdata] at h
          cases hmarked : declared.marked item.checkPath with
          | error e => simp [hmarked] at h
          | ok marked =>
              simp only [hmarked] at h
              cases hframing : framing marks declared marked with
              | error e => simp [hframing] at h
              | ok asMap =>
                  simp only [hframing, pure, Except.pure, Except.ok.injEq] at h
                  exact .inl ⟨marks, asMap, marked, rfl, rfl, hframing, h.symm⟩
      | enum variants =>
          simp only [hdata] at h
          split at h
          · next hbare =>
              cases h
              exact .inr (.inl ⟨rfl, hbare, rfl⟩)
          · cases hall : variants.mapM (variantFields item.checkPath) with
            | error e => simp [hall, Functor.map, Except.map] at h
            | ok fields =>
                simp only [hall, Functor.map, Except.map, Except.ok.injEq] at h
                exact .inr (.inr ⟨fields, rfl, rfl, h.symm⟩)
      | union declared =>
          simp only [hdata] at h
          cases h

theorem exists_plan_of_writerCode {item : Item τ} {code : WriterCode τ}
    (h : item.writerCode = .ok code) : ∃ p, item.plan = .ok p := by
  rw [writerCode_eq] at h
  cases hplan : item.plan with
  | error e =>
      rw [hplan] at h
      cases h
  | ok p => exact ⟨p, rfl⟩

theorem marked_of_plan {item : Item τ} {asMap : Bool} {marked : List (MarkedField τ)}
    (h : item.plan = .ok (.struct asMap marked)) :
    item.fields.marked item.checkPath = .ok marked := by
  rcases plan_cases h with ⟨_, _, _, _, hmarked, _, hp⟩ | ⟨_, _, hp⟩ | ⟨_, _, _, hp⟩
  · cases hp
    exact hmarked
  · cases hp
  · cases hp

/-- Only named fields are framed as a map, and only if no base is among them. -/
theorem isNamed_of_plan {item : Item τ} {marked : List (MarkedField τ)}
    (h : item.plan = .ok (.struct true marked)) :
    item.fields.isNamed = true ∧ hasBase marked = false := by
  rcases plan_cases h with ⟨marks, _, _, _, _, hframing, hp⟩ | ⟨_, _, hp⟩ | ⟨_, _, _, hp⟩
  · cases hp
    unfold framing at hframing
    repeat' split at hframing
    all_goals simp_all
  · cases hp
  · cases hp

theorem hasBase_of_plan {item : Item τ} {marked : List (MarkedField τ)}
    (h : item.plan = .ok (.struct true marked)) : hasBase marked = false :=
  (isNamed_of_plan h).2

theorem data_of_bare {item : Item τ} (h : item.plan = .ok .bare) :
    item.data = .enum item.variants := by
  rcases plan_cases h with ⟨_, _, _, _, _, _, hp⟩ | ⟨hdata, _, _⟩ | ⟨_, hdata, _, _⟩
  · cases hp
  · exact hdata
  · exact hdata

theorem variants_of_plan {item : Item τ} {fields : List (List (MarkedField τ))}
    (h : item.plan = .ok (.variants fields)) :
    item.variants.mapM (variantFields item.checkPath) = .ok fields := by
  rcases plan_cases h with ⟨_, _, _, _, _, _, hp⟩ | ⟨_, _, hp⟩ | ⟨_, _, hvariants, hp⟩
  · cases hp
  · cases hp
  · cases hp
    exact hvariants

/-- A traversal that succeeds does so at every place. -/
theorem mapM_ok_iff {α β ε : Type} (f : α → Except ε β) (xs : List α) (ys : List β) :
    xs.mapM f = .ok ys ↔ List.Forall₂ (fun x y => f x = .ok y) xs ys := by
  induction xs generalizing ys with
  | nil =>
      constructor
      · intro h
        cases h
        exact .nil
      · intro h
        cases h
        rfl
  | cons x xs ih =>
      rw [List.mapM_cons]
      constructor
      · intro h
        cases hx : f x with
        | error e => simp [hx, bind, Except.bind] at h
        | ok y =>
            cases hxs : xs.mapM f with
            | error e => simp [hx, hxs, bind, Except.bind] at h
            | ok zs =>
                simp only [hx, hxs, bind, Except.bind, pure, Except.pure, Except.ok.injEq] at h
                subst h
                exact .cons hx ((ih zs).1 hxs)
      · intro h
        cases h with
        | cons hx hxs => rw [hx, (ih _).2 hxs]; rfl

theorem length_marked {fields : Fields τ} {marked : List (MarkedField τ)}
    (h : fields.marked check = .ok marked) : fields.members.length = marked.length :=
  ((mapM_ok_iff _ _ _).1 h).length_eq

/-- The marked fields have the members of the declared ones. -/
theorem members_of_marked {fields : Fields τ} {marked : List (MarkedField τ)}
    (h : fields.marked check = .ok marked) :
    marked.map MarkedField.member = fields.members.map Prod.fst := by
  have hall := (mapM_ok_iff _ _ _).1 h
  generalize fields.members = declared at hall
  clear h
  induction hall with
  | nil => rfl
  | @cons f m declared marked hmark _ ih =>
      rw [List.map_cons, List.map_cons, ih]
      cases hattributes : FieldMarks.ofAttributes check f.2.attributes with
      | error e => simp [hattributes, bind, Except.bind] at hmark
      | ok marks =>
          simp only [hattributes, bind, Except.bind, pure, Except.pure, Except.ok.injEq] at hmark
          rw [← hmark]

/-- The keys of named fields are their names. -/
theorem key_of_marked {declared : List (Ident × Field τ)} {marked : List (MarkedField τ)}
    (h : (Fields.named declared).marked check = .ok marked) :
    marked.map MarkedField.key = declared.map fun f => f.1.name := by
  have hmembers := members_of_marked h
  rw [Fields.members, List.map_map] at hmembers
  clear h
  induction declared generalizing marked with
  | nil =>
      rw [List.map_eq_nil_iff.1 hmembers]
      rfl
  | cons f declared ih =>
      obtain ⟨m, marked, rfl, hmember, hmembers⟩ := List.map_eq_cons_iff.1 hmembers
      rw [List.map_cons, List.map_cons, ih hmembers, MarkedField.key, hmember]
      rfl

/-- A value is put together from all of its parts in order. -/
theorem parts_assemble {ε : Type} {fields : Fields τ} {marked : List (MarkedField τ)}
    (h : fields.marked check = .ok marked) (g : MarkedField τ → ε) :
    (fields.assemble (marked.map g)).parts = marked.map g := by
  have hlen := length_marked h
  cases fields with
  | named declared =>
      simp only [Fields.members, List.length_map] at hlen
      simp [Fields.assemble, Construction.parts, List.map_snd_zip, hlen]
  | positional declared => rfl
  | unit =>
      have hnil : marked = [] := List.eq_nil_of_length_eq_zero hlen.symm
      rw [hnil]
      rfl

theorem marked_of_variant {v : Variant τ} {marked : List (MarkedField τ)}
    (h : variantFields check v = .ok marked) :
    v.fields.marked check = .ok marked ∧ hasBase marked = false := by
  unfold variantFields at h
  cases hmarked : v.fields.marked check with
  | error e => simp [hmarked, bind, Except.bind] at h
  | ok found =>
      simp only [hmarked, bind, Except.bind, pure, Except.pure] at h
      split at h
      · cases h
      · next hbase =>
          cases h
          exact ⟨rfl, by simpa using hbase⟩

/-- The plan of a struct has its fields. -/
theorem plan_of_struct {item : Item τ} {p : Plan τ} {fields : Fields τ}
    {marked : List (MarkedField τ)} (h : item.plan = .ok p) (hdata : item.data = .struct fields)
    (hmarked : fields.marked item.checkPath = .ok marked) :
    item.fields = fields ∧ ∃ asMap, p = .struct asMap marked := by
  have hfields : item.fields = fields := by rw [Item.fields, hdata]
  refine ⟨hfields, ?_⟩
  rcases plan_cases h with ⟨_, asMap, _, _, hmarked', _, hp⟩ | ⟨henum, _, _⟩ | ⟨_, henum, _, _⟩
  · rw [hfields, hmarked] at hmarked'
    cases hmarked'
    exact ⟨asMap, hp⟩
  · rw [hdata] at henum
    cases henum
  · rw [hdata] at henum
    cases henum

/-- The plan of an enum has the fields of each variant in its place, unless no variant has any. -/
theorem plan_of_enum {item : Item τ} {p : Plan τ} {variants : List (Variant τ)} {index : Nat}
    {v : Variant τ} {marked : List (MarkedField τ)} (h : item.plan = .ok p)
    (hdata : item.data = .enum variants) (hv : variants[index]? = some v)
    (hmarked : v.fields.marked item.checkPath = .ok marked) :
    item.variants = variants ∧
      ((allBare variants = true ∧ marked = [] ∧ p = .bare) ∨
        ∃ fieldss, fieldss.length = variants.length ∧ fieldss[index]? = some marked ∧
          p = .variants fieldss) := by
  have hvariants : item.variants = variants := by rw [Item.variants, hdata]
  refine ⟨hvariants, ?_⟩
  rcases plan_cases h with ⟨_, _, _, hstruct, _, _, _⟩ | ⟨_, hbare, hp⟩ | ⟨fieldss, _, hall, hp⟩
  · rw [hdata] at hstruct
    cases hstruct
  · rw [hvariants] at hbare
    have hunit := List.all_eq_true.1 hbare v (List.mem_of_getElem? hv)
    refine .inl ⟨hbare, ?_, hp⟩
    cases hfields : v.fields with
    | unit =>
        rw [hfields] at hmarked
        cases hmarked
        rfl
    | named | positional =>
        rw [hfields] at hunit
        cases hunit
  · rw [hvariants] at hall
    have hforall := (mapM_ok_iff _ _ _).1 hall
    obtain ⟨hlt, rfl⟩ := List.getElem?_eq_some_iff.1 hv
    have hlt' : index < fieldss.length := hforall.length_eq ▸ hlt
    have hmarked' := (marked_of_variant (hforall.get hlt hlt')).1
    rw [List.get_eq_getElem, List.get_eq_getElem, hmarked] at hmarked'
    cases hmarked'
    exact .inr ⟨fieldss, hforall.length_eq.symm, List.getElem?_eq_getElem hlt', hp⟩

/-! ## Arms -/

theorem getElem?_arms {α : Type} (arm : Variant τ → List (MarkedField τ) → Nat → α)
    {variants : List (Variant τ)} {fields : List (List (MarkedField τ))} {index : Nat}
    {v : Variant τ} {marked : List (MarkedField τ)} (hv : variants[index]? = some v)
    (hmarked : fields[index]? = some marked) :
    (arms arm variants fields)[index]? = some (arm v marked index) := by
  have hzip : (variants.zip fields)[index]? = some (v, marked) :=
    List.getElem?_zip_eq_some.2 ⟨hv, hmarked⟩
  simp [arms, hzip]

theorem getElem?_arms_none {α : Type} (arm : Variant τ → List (MarkedField τ) → Nat → α)
    (variants : List (Variant τ)) {fields : List (List (MarkedField τ))} {index : Nat}
    (h : fields[index]? = none) : (arms arm variants fields)[index]? = none := by
  have hlen := List.getElem?_eq_none_iff.1 h
  simp only [arms, List.getElem?_eq_none_iff, List.length_map, List.length_zipIdx,
    List.length_zip]
  omega

/-- The arm of a variant is found by its place. -/
theorem find?_arms {variants : List (Variant τ)} {fields : List (List (MarkedField τ))}
    {index : Nat} {v : Variant τ} {marked : List (MarkedField τ)}
    (hv : variants[index]? = some v) (hmarked : fields[index]? = some marked) :
    (arms readArmOf variants fields).find? (·.index == index) =
      some (readArmOf v marked index) := by
  have hget := getElem?_arms readArmOf hv hmarked
  obtain ⟨hlt, hget⟩ := List.getElem?_eq_some_iff.1 hget
  rw [List.find?_eq_some_iff_getElem]
  refine ⟨by simp [readArmOf], index, hlt, hget, fun j hj => ?_⟩
  have hplace : (arms readArmOf variants fields)[j].index = j := by
    simp [arms, readArmOf]
  simp only [hplace, Bool.not_eq_eq_eq_not, Bool.not_true, beq_eq_false_iff_ne]
  omega

/-- Each arm is that of a variant with its fields. -/
theorem exists_variant {α : Type} {arm : Variant τ → List (MarkedField τ) → Nat → α}
    {variants : List (Variant τ)} {fields : List (List (MarkedField τ))}
    (h : variants.mapM (variantFields check) = .ok fields) {x : α}
    (hx : x ∈ arms arm variants fields) :
    ∃ v marked index, marked ∈ fields ∧ variantFields check v = .ok marked ∧
      x = arm v marked index := by
  obtain ⟨⟨⟨v, marked⟩, index⟩, hmem, rfl⟩ := List.mem_map.1 hx
  have hzip := List.fst_mem_of_mem_zipIdx hmem
  have hall := List.forall₂_iff_zip.1 ((mapM_ok_iff _ _ _).1 h)
  exact ⟨v, marked, index, (List.of_mem_zip hzip).2, hall.2 hzip, rfl⟩

end Item

end ObjectStream
