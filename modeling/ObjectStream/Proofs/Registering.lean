import Mathlib.Data.Set.Card
import ObjectStream.Proofs.Still
import ObjectStream.Reader.Pointer

/-!
# Registries set up step by step

A registry is set up by steps of which any may fail, and a caller may go on
after one that does, with the registry that the step has left. A step that fails
leaves it as it was, so what the registry says is a matter of the steps that
succeeded: the map from types to tags and the one from tags to types say the same,
and the constructor for a tag and a target is that of the latest step for the tag's
type and the target.
-/

namespace ObjectStream

namespace Registry

namespace Step

def source : Step → Ty
  | .assign t _ => t
  | .upcast _ u => u.source

def target : Step → Ty
  | .assign t _ => t
  | .upcast target _ => target

def conversion : Step → Upcast
  | .assign t _ => .plain t
  | .upcast _ u => u

theorem source_conversion (step : Step) : step.conversion.source = step.source := by
  cases step <;> rfl

end Step

/-- The registry that a caller has after a step, whether it succeeded or not. -/
def after (r : Registry) (step : Step) : Registry := stateAfter step.run r

def afterAll (r : Registry) (steps : List Step) : Registry := steps.foldl after r

theorem afterAll_cons (r : Registry) (step : Step) (steps : List Step) :
    r.afterAll (step :: steps) = (r.after step).afterAll steps := rfl

theorem afterAll_append (r : Registry) (steps more : List Step) :
    r.afterAll (steps ++ more) = (r.afterAll steps).afterAll more := List.foldl_append

def taken (r : Registry) : List Step → List Step
  | [] => []
  | step :: steps =>
      match r.take step with
      | .ok (r', _) => step :: r'.taken steps
      | .error _ => r.taken steps

/-- The latest of some steps that is about a type and a target. -/
def latest? (log : List Step) (source target : Ty) : Option Step :=
  log.reverse.find? fun step => step.source == source && step.target == target

theorem latest?_concat (log : List Step) (step : Step) (t target : Ty) :
    latest? (log ++ [step]) t target =
      if step.source == t && step.target == target then some step else latest? log t target := by
  rw [latest?, List.reverse_concat, List.find?_cons, latest?]
  cases step.source == t && step.target == target <;> rfl

/-- What a registry says is what some steps have put into it, the earliest first. -/
structure Reflects (r : Registry) (log : List Step) : Prop where
  /-- A type has a tag if a step assigned it. -/
  tag?_iff : ∀ t tag, r.tag? t = some tag ↔ .assign t tag ∈ log
  ne_nullTag : ∀ t tag, r.tag? t = some tag → tag ≠ nullTag
  injective : ∀ t t' tag, r.tag? t = some tag → r.tag? t' = some tag → t = t'
  /-- The names are those of the types that have tags. -/
  name?_iff : ∀ tag name, r.name? tag = some name ↔ ∃ t, r.tag? t = some tag ∧ name = t.fullName
  contains_iff : ∀ tag, r.contains tag ↔ ∃ t, r.tag? t = some tag
  /-- The size is the number of the types that have tags. -/
  size_eq : r.size = {t | (r.tag? t).isSome}.ncard
  /-- A tag is assigned to a type if both are free, and the tag is not that of null pointers. -/
  assigns_iff : ∀ t tag, (r.take (.assign t tag)).isOk ↔
    tag ≠ nullTag ∧ (∀ t', r.tag? t' ≠ some tag) ∧ r.tag? t = none
  /-- Only objects that have a tag become pointees of another target. -/
  upcasts_iff : ∀ target u, (r.take (.upcast target u)).isOk ↔ (r.tag? u.source).isSome
  /-- The latest step for a type and a target says how objects with the tag of the type become
  pointees of the target: a value of that type is read, and nothing else. -/
  build_latest : ∀ t tag target step, r.tag? t = some tag → latest? log t target = some step →
    step.source = t ∧ ∀ read : Ty → Reader Value,
      Reader.build r tag target read = do
        Reader.note (.constructing tag target)
        let value ← read t
        pure (step.conversion.result, step.conversion.convert value)
  /-- Without such a step nothing is read. -/
  build_none : ∀ tag target, (∀ t, r.tag? t = some tag → latest? log t target = none) →
    ∀ (read : Ty → Reader Value) s,
      Reader.build r tag target read s = .error (.unregisteredTag tag target) s

/-! ## A step -/

section

variable {r r' : Registry} {event : Event} {step : Step} {t : Ty} {tag : TypeTag}

theorem assign_eq (t : Ty) (tag : TypeTag) (r : Registry) :
    assign t tag r =
      if tag = nullTag then .error (.invalidArgument (.reservedTag tag)) r
      else match r.holder? tag, r.tag? t with
        | some holder, _ => .error (.invalidArgument (.tagTaken tag holder)) r
        | none, some held => .error (.invalidArgument (.typeTaken t held)) r
        | none, none => .ok () (r.enter t tag) := by
  have hget : (get : Setup Registry) r = .ok r r := rfl
  rw [assign, bind_of_ok hget]
  split
  · rfl
  · cases r.holder? tag with
    | some holder => rfl
    | none => cases r.tag? t <;> rfl

theorem addUpcast_eq (target : Ty) (u : Upcast) (r : Registry) :
    addUpcast target u r =
      match r.tag? u.source with
      | some tag => .ok tag (r.withUpcast tag target u)
      | none => .error (.unregisteredType (.type u.source)) r := by
  have hget : (get : Setup Registry) r = .ok r r := rfl
  rw [addUpcast, bind_of_ok hget]
  cases r.tag? u.source <;> rfl

/-- A step enters a type and a tag that are both free, or makes a constructor for a type that has a
tag, or fails and leaves the registry as it was. -/
theorem run_cases (step : Step) (r : Registry) :
    (∃ t tag, step = .assign t tag ∧ tag ≠ nullTag ∧ r.holder? tag = none ∧ r.tag? t = none ∧
      step.run r = .ok (.registeredType tag t) (r.enter t tag)) ∨
    (∃ target u tag, step = .upcast target u ∧ r.tag? u.source = some tag ∧
      step.run r = .ok (.registeredUpcast tag u.source target) (r.withUpcast tag target u)) ∨
    ∃ e, step.run r = .error e r := by
  cases step with
  | assign t tag =>
      have hrun := assign_eq t tag r
      by_cases hnull : tag = nullTag
      · rw [if_pos hnull] at hrun
        exact .inr (.inr ⟨_, bind_failed hrun⟩)
      · rw [if_neg hnull] at hrun
        cases hholder : r.holder? tag with
        | some holder =>
            rw [hholder] at hrun
            exact .inr (.inr ⟨_, bind_failed hrun⟩)
        | none =>
            cases htag : r.tag? t with
            | some held =>
                rw [hholder, htag] at hrun
                exact .inr (.inr ⟨_, bind_failed hrun⟩)
            | none =>
                rw [hholder, htag] at hrun
                exact .inl ⟨t, tag, rfl, hnull, hholder, htag, bind_of_ok hrun⟩
  | upcast target u =>
      have hrun := addUpcast_eq target u r
      cases htag : r.tag? u.source with
      | some tag =>
          rw [htag] at hrun
          exact .inr (.inl ⟨target, u, tag, rfl, htag, bind_of_ok hrun⟩)
      | none =>
          rw [htag] at hrun
          exact .inr (.inr ⟨_, bind_failed hrun⟩)

theorem take_cases (h : r.take step = .ok (r', event)) :
    (∃ t tag, step = .assign t tag ∧ tag ≠ nullTag ∧ r.holder? tag = none ∧ r.tag? t = none ∧
      r' = r.enter t tag) ∨
    (∃ target u tag, step = .upcast target u ∧ r.tag? u.source = some tag ∧
      r' = r.withUpcast tag target u) := by
  rw [take] at h
  rcases run_cases step r with ⟨t, tag, hstep, hnull, hholder, htag, hrun⟩ |
    ⟨target, u, tag, hstep, htag, hrun⟩ | ⟨e, hrun⟩
  · rw [hrun] at h
    cases h
    exact .inl ⟨t, tag, hstep, hnull, hholder, htag, rfl⟩
  · rw [hrun] at h
    cases h
    exact .inr ⟨target, u, tag, hstep, htag, rfl⟩
  · rw [hrun] at h
    cases h

/-- A step leaves the tags alone that were assigned before. -/
theorem tag?_of_take (h : r.take step = .ok (r', event)) (htag : r.tag? t = some tag) :
    r'.tag? t = some tag := by
  rcases take_cases h with ⟨u, tag', -, -, -, hnone, rfl⟩ | ⟨target, u, tag', -, -, rfl⟩
  · rw [tag?_enter, if_neg, htag]
    rw [beq_iff_eq]
    rintro rfl
    rw [hnone] at htag
    cases htag
  · exact htag

theorem isOk_take_iff : (r.take step).isOk ↔ ∃ event r', step.run r = .ok event r' := by
  rw [take]
  cases step.run r with
  | ok event r' => simp [Except.isOk, Except.toBool]
  | error e r' => simp [Except.isOk, Except.toBool]

theorem isOk_take_assign (t : Ty) (tag : TypeTag) :
    (r.take (.assign t tag)).isOk ↔ tag ≠ nullTag ∧ r.holder? tag = none ∧ r.tag? t = none := by
  rw [isOk_take_iff]
  constructor
  · rintro ⟨event, r', hrun⟩
    rcases run_cases (.assign t tag) r with ⟨_, _, hstep, hnull, hholder, htag, -⟩ |
      ⟨_, _, _, hstep, -⟩ | ⟨e, herror⟩
    · cases hstep
      exact ⟨hnull, hholder, htag⟩
    · cases hstep
    · rw [herror] at hrun
      cases hrun
  · rintro ⟨hnull, hholder, htag⟩
    have hassign := assign_eq t tag r
    rw [if_neg hnull, hholder, htag] at hassign
    exact ⟨_, _, bind_of_ok hassign⟩

theorem isOk_take_upcast (target : Ty) (u : Upcast) :
    (r.take (.upcast target u)).isOk ↔ (r.tag? u.source).isSome := by
  rw [isOk_take_iff, Option.isSome_iff_exists]
  constructor
  · rintro ⟨event, r', hrun⟩
    rcases run_cases (.upcast target u) r with ⟨_, _, hstep, -⟩ | ⟨_, _, tag, hstep, htag, -⟩ |
      ⟨e, herror⟩
    · cases hstep
    · cases hstep
      exact ⟨tag, htag⟩
    · rw [herror] at hrun
      cases hrun
  · rintro ⟨tag, htag⟩
    have hupcast := addUpcast_eq target u r
    rw [htag] at hupcast
    exact ⟨_, _, bind_of_ok hupcast⟩

theorem after_of_ok (h : r.take step = .ok (r', event)) : r.after step = r' := by
  rw [take] at h
  cases hrun : step.run r with
  | ok event' r'' =>
      rw [hrun] at h
      cases h
      exact stateAfter_of_ok hrun
  | error e r'' =>
      rw [hrun] at h
      cases h

/-- A step that fails changes nothing. -/
theorem after_of_error {e : StreamError} (h : r.take step = .error e) : r.after step = r := by
  rw [take] at h
  rcases run_cases step r with ⟨t, tag, -, -, -, -, hrun⟩ | ⟨target, u, tag, -, -, hrun⟩ |
    ⟨e', hrun⟩
  · rw [hrun] at h
    cases h
  · rw [hrun] at h
    cases h
  · exact stateAfter_of_error hrun

end

/-! ## What the successful steps have made -/

/-- A registry that was set up by some steps: it has a tag for each type that one was assigned to,
the two maps say the same, and a constructor is that of the latest step. -/
structure Logs (r : Registry) (log : List Step) : Prop where
  tag?_iff : ∀ t tag, r.tag? t = some tag ↔ .assign t tag ∈ log
  ne_nullTag : ∀ t tag, r.tag? t = some tag → tag ≠ nullTag
  holder?_iff : ∀ t tag, r.holder? tag = some t ↔ r.tag? t = some tag
  nodup : (r.names.map Prod.fst).Nodup
  registered : ∀ step ∈ log, ∃ tag, r.tag? step.source = some tag
  upcast?_eq : ∀ tag target, r.upcast? tag target =
    (r.holder? tag).bind fun t => (latest? log t target).map Step.conversion

namespace Logs

variable {r r' : Registry} {log : List Step} {step : Step} {event : Event}

theorem empty : Registry.empty.Logs [] where
  tag?_iff t tag := by simp [tag?, Registry.empty]
  ne_nullTag t tag h := by cases h
  holder?_iff t tag := by simp [tag?, holder?, Registry.empty]
  nodup := List.nodup_nil
  registered := by simp
  upcast?_eq _ _ := rfl

theorem injective (h : r.Logs log) {t t' : Ty} {tag : TypeTag} (htag : r.tag? t = some tag)
    (htag' : r.tag? t' = some tag) : t = t' :=
  Option.some.inj (((h.holder?_iff t tag).2 htag).symm.trans ((h.holder?_iff t' tag).2 htag'))

/-- No step is about a type without a tag. -/
theorem latest?_eq_none (h : r.Logs log) {t : Ty} (ht : r.tag? t = none) (target : Ty) :
    latest? log t target = none := by
  rw [latest?, List.find?_eq_none]
  intro step hstep hmatch
  obtain ⟨tag, htag⟩ := h.registered step (List.mem_reverse.1 hstep)
  rw [Bool.and_eq_true, beq_iff_eq] at hmatch
  rw [hmatch.1, ht] at htag
  cases htag

/-- A step puts its constructor under the tag of its type, which may be a new one. -/
theorem upcast?_concat (h : r.Logs log) (step : Step) {tag : TypeTag}
    (hbefore : r.holder? tag = some step.source ∨
      r.holder? tag = none ∧ r.tag? step.source = none)
    (hholder : ∀ tag', r'.holder? tag' =
      if tag' == tag then some step.source else r.holder? tag')
    (hupcast : ∀ tag' target, r'.upcast? tag' target =
      if (tag', target) == (tag, step.target) then some step.conversion
      else r.upcast? tag' target) (tag' : TypeTag) (target : Ty) :
    r'.upcast? tag' target =
      (r'.holder? tag').bind fun t => (latest? (log ++ [step]) t target).map Step.conversion := by
  rw [hupcast, hholder, h.upcast?_eq]
  by_cases hsame : tag' = tag
  · subst hsame
    rw [if_pos (beq_self_eq_true tag'), Option.bind_some, latest?_concat]
    by_cases htarget : target = step.target
    · subst htarget
      simp
    · rw [if_neg (by simp [htarget]), if_neg (by simp [Ne.symm htarget])]
      rcases hbefore with hheld | ⟨hnone, hsource⟩
      · rw [hheld, Option.bind_some]
      · rw [hnone, h.latest?_eq_none hsource]
        rfl
  · rw [if_neg (by simp [hsame]), if_neg (by simp [hsame])]
    cases hheld : r.holder? tag' with
    | none => rfl
    | some t =>
        have hne : step.source ≠ t := by
          rintro rfl
          have htag' := (h.holder?_iff _ _).1 hheld
          rcases hbefore with hholds | ⟨-, hsource⟩
          · have htag := (h.holder?_iff _ _).1 hholds
            exact hsame (Option.some.inj (htag'.symm.trans htag))
          · rw [hsource] at htag'
            cases htag'
        rw [Option.bind_some, Option.bind_some, latest?_concat, if_neg (by simp [hne])]

/-- A type and a tag that were both free are entered. -/
theorem enter (h : r.Logs log) {t : Ty} {tag : TypeTag} (hnull : tag ≠ nullTag)
    (hholder : r.holder? tag = none) (htag : r.tag? t = none) :
    (r.enter t tag).Logs (log ++ [.assign t tag]) where
  tag?_iff u tag' := by
    rw [tag?_enter, List.mem_append, List.mem_singleton, Step.assign.injEq, ← h.tag?_iff]
    by_cases hu : u = t
    · subst hu
      simp [htag, eq_comm]
    · simp [hu]
  ne_nullTag u tag' hu := by
    rw [tag?_enter] at hu
    split at hu
    · cases hu
      exact hnull
    · exact h.ne_nullTag u tag' hu
  holder?_iff u tag' := by
    have hfree (u : Ty) : r.tag? u ≠ some tag := fun hu => by
      rw [← h.holder?_iff, hholder] at hu
      cases hu
    rw [holder?_enter, tag?_enter]
    by_cases hsame : tag' = tag <;> by_cases hu : u = t
    · simp [hsame, hu]
    · simp [hsame, hu, hfree u, Ne.symm hu]
    · simp [hsame, hu, h.holder?_iff, htag, Ne.symm hsame]
    · simp [hsame, hu, h.holder?_iff]
  nodup := nodup_put tag t r.names h.nodup
  registered step hstep := by
    rw [tag?_enter]
    rcases List.mem_append.1 hstep with hstep | hstep
    · split
      · exact ⟨tag, rfl⟩
      · exact h.registered step hstep
    · rw [List.mem_singleton.1 hstep]
      exact ⟨tag, if_pos (beq_self_eq_true t)⟩
  upcast?_eq := h.upcast?_concat (.assign t tag) (.inr ⟨hholder, htag⟩)
    (holder?_enter r t tag) (upcast?_enter r t tag)

/-- A constructor is made for a type that has a tag. -/
theorem withUpcast (h : r.Logs log) {target : Ty} {u : Upcast} {tag : TypeTag}
    (htag : r.tag? u.source = some tag) :
    (r.withUpcast tag target u).Logs (log ++ [.upcast target u]) where
  tag?_iff t tag' := by
    rw [List.mem_append, List.mem_singleton, ← h.tag?_iff]
    simp only [reduceCtorEq, or_false]
    rfl
  ne_nullTag := h.ne_nullTag
  holder?_iff := h.holder?_iff
  nodup := h.nodup
  registered step hstep := by
    rcases List.mem_append.1 hstep with hstep | hstep
    · exact h.registered step hstep
    · rw [List.mem_singleton.1 hstep]
      exact ⟨tag, htag⟩
  upcast?_eq := by
    have hheld := (h.holder?_iff _ _).2 htag
    refine h.upcast?_concat (.upcast target u) (.inl hheld) (fun tag' => ?_)
      (upcast?_withUpcast r target tag · · u)
    split
    · next hsame => rw [eq_of_beq hsame]; exact hheld
    · rfl

/-- A step that succeeds is added to the log. -/
theorem take (h : r.Logs log) (htake : r.take step = .ok (r', event)) :
    r'.Logs (log ++ [step]) := by
  rcases take_cases htake with ⟨t, tag, rfl, hnull, hholder, htag, rfl⟩ |
    ⟨target, u, tag, rfl, htag, rfl⟩
  · exact h.enter hnull hholder htag
  · exact h.withUpcast htag

/-- The steps of a list that succeed are added to the log. -/
theorem afterAll (h : r.Logs log) (steps : List Step) :
    (r.afterAll steps).Logs (log ++ r.taken steps) := by
  induction steps generalizing r log with
  | nil => simpa [Registry.afterAll, taken] using h
  | cons step steps ih =>
      rw [afterAll_cons]
      cases htake : r.take step with
      | ok p =>
          rw [after_of_ok htake, taken, htake, List.append_cons]
          exact ih (h.take htake)
      | error e =>
          rw [after_of_error htake, taken, htake]
          exact ih h

/-- There is a name for each type that has a tag. -/
theorem size_eq (h : r.Logs log) : r.size = {t | (r.tag? t).isSome}.ncard := by
  have hmem (tag : TypeTag) (t : Ty) : (tag, t) ∈ r.names ↔ r.tag? t = some tag := by
    rw [← h.holder?_iff]
    refine ⟨fun hentry => ?_, fun hlookup => ?_⟩
    · cases hholder : r.holder? tag with
      | none =>
          have hother := List.lookup_eq_none_iff.1 hholder _ hentry
          exact absurd rfl (bne_iff_ne.1 hother)
      | some t' =>
          obtain ⟨before, behind, hnames, -⟩ := List.lookup_eq_some_iff.1 hholder
          have hentry' : (tag, t') ∈ r.names := by
            rw [hnames]
            exact List.mem_append_right _ List.mem_cons_self
          have hsame := List.inj_on_of_nodup_map h.nodup hentry' hentry rfl
          exact congrArg some (Prod.mk.inj hsame).2
    · obtain ⟨before, behind, hnames, -⟩ := List.lookup_eq_some_iff.1 hlookup
      rw [hnames]
      exact List.mem_append_right _ List.mem_cons_self
  have hnodup : (r.names.map Prod.snd).Nodup := by
    refine List.Nodup.map_on (fun p hp q hq heq => ?_) h.nodup.of_map
    obtain ⟨tag, t⟩ := p
    obtain ⟨tag', t'⟩ := q
    obtain rfl : t = t' := heq
    have htag := (hmem tag t).1 hp
    rw [(hmem tag' t).1 hq] at htag
    rw [Option.some.inj htag]
  have hset : {t | (r.tag? t).isSome} = ((r.names.map Prod.snd).toFinset : Set Ty) := by
    ext t
    simp only [Set.mem_ofPred_eq, List.coe_toFinset, List.mem_map, Option.isSome_iff_exists,
      ← hmem, Prod.exists, exists_eq_right]
  rw [hset, Set.ncard_coe_finset, List.toFinset_card_of_nodup hnodup, List.length_map, size]

theorem reflects (h : r.Logs log) : r.Reflects log where
  tag?_iff := h.tag?_iff
  ne_nullTag := h.ne_nullTag
  injective _ _ _ := h.injective
  name?_iff tag name := by
    simp only [name?, Option.map_eq_some_iff, h.holder?_iff, @eq_comm _ name]
  contains_iff tag := by
    simp only [contains, Option.isSome_iff_exists, h.holder?_iff]
  size_eq := h.size_eq
  assigns_iff t tag := by
    rw [isOk_take_assign, Option.eq_none_iff_forall_ne_some]
    simp only [ne_eq, h.holder?_iff]
  upcasts_iff := isOk_take_upcast
  build_latest t tag target step htag hlatest := by
    have hsource : step.source = t := by
      have hfound := List.find?_some hlatest
      rw [Bool.and_eq_true, beq_iff_eq] at hfound
      exact hfound.1
    have hupcast : r.upcast? tag target = some step.conversion := by
      rw [h.upcast?_eq, (h.holder?_iff t tag).2 htag, Option.bind_some, hlatest]
      rfl
    refine ⟨hsource, fun read => ?_⟩
    rw [Reader.build, hupcast, ← hsource, ← step.source_conversion]
  build_none tag target hnone read s := by
    have hupcast : r.upcast? tag target = none := by
      rw [h.upcast?_eq]
      cases hholder : r.holder? tag with
      | none => rfl
      | some t =>
          rw [Option.bind_some, hnone t ((h.holder?_iff t tag).1 hholder)]
          rfl
    rw [Reader.build, hupcast]
    rfl

end Logs

/-! ## All steps -/

variable {r : Registry}

theorem tag?_of_afterAll {t : Ty} {tag : TypeTag} (htag : r.tag? t = some tag)
    (steps : List Step) : (r.afterAll steps).tag? t = some tag := by
  induction steps generalizing r with
  | nil => exact htag
  | cons step steps ih =>
      refine ih (r := r.after step) ?_
      cases htake : r.take step with
      | ok p =>
          rw [after_of_ok htake]
          exact tag?_of_take htake htag
      | error e => rwa [after_of_error htake]

/-- The steps that succeed give the same registry alone, one after the other without a failure. -/
theorem takeAll_taken (journal : Journal) (steps : List Step) :
    (r.takeAll journal (r.taken steps)).1 = .ok (r.afterAll steps) := by
  induction steps generalizing r journal with
  | nil => rfl
  | cons step steps ih =>
      rw [afterAll_cons, taken]
      cases htake : r.take step with
      | ok p =>
          rw [after_of_ok htake, takeAll, htake]
          exact ih _
      | error e =>
          rw [after_of_error htake]
          exact ih _

/-- Whatever steps are taken, and whichever of them fail, the registry is what the successful ones
have made it: tags and types are paired one to one and for good, a step that fails might as well
not have been taken, and for each tag and target the latest constructor is the one that runs. -/
theorem reflects_afterAll (steps : List Step) :
    (empty.afterAll steps).Reflects (empty.taken steps) ∧
    (∀ t tag, (empty.afterAll steps).tag? t = some tag →
      ∀ more, (empty.afterAll (steps ++ more)).tag? t = some tag) ∧
    (∀ step e, (empty.afterAll steps).take step = .error e →
      ∀ more, empty.afterAll (steps ++ step :: more) = empty.afterAll (steps ++ more)) ∧
    ∀ journal, (empty.takeAll journal (empty.taken steps)).1 = .ok (empty.afterAll steps) := by
  refine ⟨?_, fun t tag htag more => ?_, fun step e hfail more => ?_,
    fun journal => takeAll_taken journal steps⟩
  · exact (Logs.empty.afterAll steps).reflects
  · rw [afterAll_append]
    exact tag?_of_afterAll htag more
  · rw [afterAll_append, afterAll_cons, after_of_error hfail, ← afterAll_append]

/-- A tag and a type are taken once, and only a type with a tag can be upcast. -/
example :
    empty.taken [.assign .u8 7, .assign .u16 7, .assign .u8 8, .assign .char nullTag,
      .upcast .char (.plain .u16), .upcast .char (.plain .u8)] =
        [.assign .u8 7, .upcast .char (.plain .u8)] := rfl

end Registry

end ObjectStream
