import ObjectStream.Item.Marks

/-!
# Settings

What the attributes of an item and of a field ask for, as it is written: settings
with commas between them. Reading the attributes finds exactly that. Attributes
that are not written so are refused, and so is a field that is to be a base and to
have a rule; of the others every setting is taken, a later rule in the place of an
earlier one.
-/

namespace ObjectStream

inductive ItemSetting
  | asMap
  deriving DecidableEq

inductive FieldSetting
  | base
  | rule (path : String)
  deriving DecidableEq

/-- How a setting of an item is written. -/
inductive ItemSetting.Spells : ItemSetting → List Lexeme → Prop
  | asMap : Spells .asMap [.token "as_map"]

/-- How a setting of a field is written. -/
inductive FieldSetting.Spells (check : PathCheck) : FieldSetting → List Lexeme → Prop
  | base : Spells check .base [.token "base"]
  | rule {path : String} : check path = .ok () →
      Spells check (.rule path) [.token "with", .token "=", .quoted path]

variable {σ μ : Type} {Spells : σ → List Lexeme → Prop}

/-- Settings with commas between them, and perhaps one behind the last. -/
inductive Lists (Spells : σ → List Lexeme → Prop) : List σ → List Lexeme → Prop
  | none : Lists Spells [] []
  | last {s : σ} {front : List Lexeme} : Spells s front → Lists Spells [s] front
  | more {s : σ} {ss : List σ} {front rest : List Lexeme} : Spells s front →
      Lists Spells ss rest → Lists Spells (s :: ss) (front ++ .token "," :: rest)

/-- The settings that attributes ask for. Those of another path ask for nothing. -/
inductive Asks (Spells : σ → List Lexeme → Prop) : List Attribute → List σ → Prop
  | none : Asks Spells [] []
  | other {a : Attribute} {as : List Attribute} {ss : List σ} : a.path ≠ attributePath →
      Asks Spells as ss → Asks Spells (a :: as) ss
  | lists {a : Attribute} {as : List Attribute} {lexemes : List Lexeme} {ts ss : List σ} :
      a.path = attributePath → a.body.lexemes = .ok lexemes → Lists Spells ts lexemes →
      Asks Spells as ss → Asks Spells (a :: as) (ts ++ ss)

section Except

variable {ε α β : Type} {x : Except ε α} {b : β}

theorem map_eq_ok {f : α → β} (h : x.map f = .ok b) : ∃ a, x = .ok a ∧ f a = b := by
  cases x with
  | error e => cases h
  | ok a => exact ⟨a, rfl, Except.ok.inj h⟩

theorem bind_eq_ok {f : α → Except ε β} (h : (x >>= f) = .ok b) :
    ∃ a, x = .ok a ∧ f a = .ok b := by
  cases x with
  | error e => cases h
  | ok a => exact ⟨a, rfl, h⟩

end Except

namespace Lexeme

variable {name : String} {names : List String} {lexemes behind front rest : List Lexeme}

/-- What can stand behind an argument: nothing, or a comma and more. -/
inductive Ends : List Lexeme → Prop
  | nil : Ends []
  | comma (rest : List Lexeme) : Ends (.token "," :: rest)

/-! ## Paths of one name -/

theorem eq_of_moreNames (h : moreNames lexemes = .ok ([], behind)) : lexemes = behind := by
  unfold moreNames at h
  split at h
  · split at h
    · obtain ⟨found, -, hnames⟩ := map_eq_ok h
      exact absurd (congrArg Prod.fst hnames) (List.cons_ne_nil _ _)
    · cases h
  · cases h
  · cases h
  · cases h
    rfl

theorem eq_of_someNames (h : someNames lexemes = .ok ([name], behind)) :
    lexemes = .token name :: behind := by
  unfold someNames at h
  split at h
  · cases h
  · cases h
  · split at h
    · obtain ⟨⟨names, rest⟩, hmore, hnames⟩ := map_eq_ok h
      cases hnames
      rw [eq_of_moreNames hmore]
    · split at h <;> cases h

/-- A path of one name is that name. -/
theorem eq_of_pathNames (h : pathNames lexemes = .ok ([name], behind)) (hname : name ≠ "") :
    lexemes = .token name :: behind := by
  unfold pathNames at h
  split at h
  · obtain ⟨found, -, hnames⟩ := map_eq_ok h
    exact absurd (List.cons.inj (congrArg Prod.fst hnames)).1.symm hname
  · exact eq_of_someNames h

theorem pathNames_word (hname : Token.isName name = true) (hcolon : name ≠ "::")
    (h : moreNames rest = .ok ([], rest)) :
    pathNames (.token name :: rest) = .ok ([name], rest) := by
  have hpath : pathNames (.token name :: rest) = someNames (.token name :: rest) := by
    unfold pathNames
    split
    next heq =>
      cases heq
      exact absurd rfl hcolon
    next => rfl
  rw [hpath, someNames, if_pos hname, h]
  rfl

theorem Ends.moreNames (h : Ends rest) : moreNames rest = .ok ([], rest) := by
  cases h with
  | nil => rfl
  | comma rest => rfl

/-! ## Arguments -/

/-- What is written for a setting is taken as that setting, and nothing else is taken. -/
structure Understands
    (take : μ → List String → List Lexeme → Except CompileError (μ × List Lexeme))
    (Spells : σ → List Lexeme → Prop) (set : μ → σ → μ) : Prop where
  taken : ∀ {s front rest}, Spells s front → Ends rest → ∃ names behind,
    pathNames (front ++ rest) = .ok (names, behind) ∧
      ∀ known, take known names behind = .ok (set known s, rest)
  spelled : ∀ {lexemes names behind known found rest},
    pathNames lexemes = .ok (names, behind) → take known names behind = .ok (found, rest) →
      ∃ s front, Spells s front ∧ lexemes = front ++ rest ∧ found = set known s

section Understands

variable {take : μ → List String → List Lexeme → Except CompileError (μ × List Lexeme)}
  {set : μ → σ → μ} {s : σ} {ss : List σ} {known found : μ} {fuel : Nat}

def foldBehind (take : μ → List String → List Lexeme → Except CompileError (μ × List Lexeme))
    (fuel : Nat) (known : μ) : List Lexeme → Except CompileError μ
  | [] => .ok known
  | .token "," :: rest => foldArguments take fuel known rest
  | _ => .error .expectedComma

theorem foldArguments_step (hpath : pathNames lexemes = .ok (names, behind))
    (htake : take known names behind = .ok (found, rest)) :
    foldArguments take (fuel + 1) known lexemes = foldBehind take fuel found rest := by
  cases lexemes with
  | nil => cases hpath
  | cons lexeme lexemes =>
      rw [foldArguments, hpath]
      simp only [bind, Except.bind, htake]
      rfl

/-- Arguments that list settings are taken one after the other. -/
theorem Understands.foldArguments_of_lists (h : Understands take Spells set)
    (hlists : Lists Spells ss lexemes) (hfuel : lexemes.length ≤ fuel) :
    foldArguments take fuel known lexemes = .ok (ss.foldl set known) := by
  induction hlists generalizing known fuel with
  | none => cases fuel <;> rfl
  | @last s front hs =>
      obtain ⟨names, behind, hpath, htake⟩ := h.taken hs .nil
      rw [List.append_nil] at hpath
      cases fuel with
      | zero =>
          rw [List.eq_nil_of_length_eq_zero (Nat.le_zero.1 hfuel)] at hpath
          cases hpath
      | succ fuel => rw [foldArguments_step hpath (htake known)]; rfl
  | @more s ss front rest hs _ ih =>
      obtain ⟨names, behind, hpath, htake⟩ := h.taken hs (.comma rest)
      cases fuel with
      | zero => simp at hfuel
      | succ fuel =>
          rw [foldArguments_step hpath (htake known)]
          exact ih (by simp only [List.length_append, List.length_cons] at hfuel; omega)

/-- Arguments that are taken list settings. -/
theorem Understands.lists_of_foldArguments (h : Understands take Spells set)
    (hfuel : lexemes.length ≤ fuel) (htaken : foldArguments take fuel known lexemes = .ok found) :
    ∃ ss, Lists Spells ss lexemes ∧ found = ss.foldl set known := by
  induction fuel generalizing lexemes known with
  | zero =>
      rw [List.eq_nil_of_length_eq_zero (Nat.le_zero.1 hfuel)] at htaken ⊢
      cases htaken
      exact ⟨[], .none, rfl⟩
  | succ fuel ih =>
      cases lexemes with
      | nil =>
          cases htaken
          exact ⟨[], .none, rfl⟩
      | cons lexeme lexemes =>
          obtain ⟨⟨names, behind⟩, hpath, hbehind⟩ := bind_eq_ok htaken
          obtain ⟨⟨next, rest⟩, htake, -⟩ := bind_eq_ok hbehind
          rw [foldArguments_step hpath htake] at htaken
          obtain ⟨s, front, hs, hfront, rfl⟩ := h.spelled hpath htake
          rw [hfront] at hfuel ⊢
          unfold foldBehind at htaken
          split at htaken
          · cases htaken
            rw [List.append_nil]
            exact ⟨[s], .last hs, rfl⟩
          · simp only [List.length_append, List.length_cons] at hfuel
            obtain ⟨ss, hlists, rfl⟩ := ih (by omega) htaken
            exact ⟨s :: ss, .more hs hlists, rfl⟩
          · cases htaken

end Understands

end Lexeme

/-! ## Settings of items -/

open Lexeme

namespace ItemSetting

def set (_ : ItemMarks) : ItemSetting → ItemMarks
  | .asMap => ⟨true⟩

theorem understands : Understands ItemMarks.take ItemSetting.Spells ItemSetting.set where
  taken := by
    intro s front rest hs hrest
    cases hs with
    | asMap =>
        exact ⟨["as_map"], rest, pathNames_word (by decide) (by decide) hrest.moreNames,
          fun _ => rfl⟩
  spelled := by
    intro lexemes names behind known found rest hpath htake
    unfold ItemMarks.take at htake
    split at htake
    · cases htake
      exact ⟨.asMap, _, .asMap, eq_of_pathNames hpath (by decide), rfl⟩
    · cases htake

end ItemSetting

/-! ## Settings of fields -/

namespace FieldSetting

def set (marks : FieldMarks) : FieldSetting → FieldMarks
  | .base => { marks with base := true }
  | .rule path => { marks with rule := some path }

theorem understands (check : PathCheck) :
    Understands (FieldMarks.take check) (FieldSetting.Spells check) FieldSetting.set where
  taken := by
    intro s front rest hs hrest
    cases hs with
    | base =>
        exact ⟨["base"], rest, pathNames_word (by decide) (by decide) hrest.moreNames,
          fun _ => rfl⟩
    | @rule path hpath =>
        refine ⟨["with"], .token "=" :: .quoted path :: rest,
          pathNames_word (by decide) (by decide) rfl, fun known => ?_⟩
        simp only [FieldMarks.take, assigned, bind, Except.bind, hpath]
        rfl
  spelled := by
    intro lexemes names behind known found rest hpath htake
    unfold FieldMarks.take at htake
    split at htake
    · cases htake
      exact ⟨.base, _, .base, eq_of_pathNames hpath (by decide), rfl⟩
    · obtain ⟨⟨path, left⟩, hassigned, hleft⟩ := bind_eq_ok htake
      obtain ⟨⟨⟩, hvalid, hpure⟩ := bind_eq_ok hleft
      cases hpure
      have hbehind : behind = .token "=" :: .quoted path :: rest := by
        unfold assigned at hassigned
        split at hassigned <;> cases hassigned
        rfl
      refine ⟨.rule path, _, .rule hvalid, ?_, rfl⟩
      rw [eq_of_pathNames hpath (by decide), hbehind]
      rfl
    · cases htake

def path? : FieldSetting → Option String
  | .base => none
  | .rule path => some path

def lastRule : List FieldSetting → Option String
  | [] => none
  | s :: ss => (lastRule ss).or s.path?

theorem lastRule_isSome {ss : List FieldSetting} :
    (lastRule ss).isSome = true ↔ ∃ path, .rule path ∈ ss := by
  induction ss with
  | nil => simp [lastRule]
  | cons s ss ih =>
      rw [lastRule, Option.isSome_or, Bool.or_eq_true, ih]
      cases s <;> simp [path?, or_comm]

theorem rule_mem {ss : List FieldSetting} {path : String} (h : lastRule ss = some path) :
    .rule path ∈ ss := by
  induction ss with
  | nil => cases h
  | cons s ss ih =>
      rw [lastRule, Option.or_eq_some_iff] at h
      rcases h with h | ⟨-, h⟩
      · exact List.mem_cons_of_mem _ (ih h)
      · cases s with
        | base => cases h
        | rule path' =>
            cases h
            exact List.mem_cons_self

/-- The marks that settings leave: those of all of them, and of the rules the last. -/
theorem foldl_set (ss : List FieldSetting) (known : FieldMarks) :
    ss.foldl set known = ⟨known.base || decide (.base ∈ ss), (lastRule ss).or known.rule⟩ := by
  induction ss generalizing known with
  | nil => simp [lastRule]
  | cons s ss ih =>
      rw [List.foldl_cons, ih, lastRule]
      cases s <;> cases lastRule ss <;> simp [set, path?]

/-- Whether settings ask for a base and for a rule. -/
def Clash (ss : List FieldSetting) : Prop := .base ∈ ss ∧ ∃ path, .rule path ∈ ss

end FieldSetting

/-! ## Attributes -/

section Arguments

variable {take : μ → List String → List Lexeme → Except CompileError (μ × List Lexeme)}
  {set : μ → σ → μ} {a : Attribute} {lexemes : List Lexeme} {ts : List σ} {known found : μ}

theorem Lexeme.Understands.foldArguments_eq (h : Understands take Spells set)
    (hlexemes : a.body.lexemes = .ok lexemes) (hlists : Lists Spells ts lexemes) :
    a.foldArguments take known = .ok (ts.foldl set known) := by
  rw [Attribute.foldArguments, hlexemes]
  exact h.foldArguments_of_lists hlists (Nat.le_refl _)

theorem Lexeme.Understands.exists_lists (h : Understands take Spells set)
    (htaken : a.foldArguments take known = .ok found) :
    ∃ lexemes ts, a.body.lexemes = .ok lexemes ∧ Lists Spells ts lexemes := by
  obtain ⟨lexemes, hlexemes, hfold⟩ := bind_eq_ok htaken
  obtain ⟨ts, hlists, -⟩ := h.lists_of_foldArguments (Nat.le_refl _) hfold
  exact ⟨lexemes, ts, hlexemes, hlists⟩

end Arguments

section Attributes

/-- Attributes are taken by the settings that they list, until marks are at odds. -/
structure TakesAttributes (take : μ → Attribute → Except CompileError μ)
    (Spells : σ → List Lexeme → Prop) (set : μ → σ → μ) (odd : μ → Bool) (fault : CompileError) :
    Prop where
  other : ∀ {known a}, a.path ≠ attributePath → take known a = .ok known
  lists : ∀ {known a lexemes ts}, a.path = attributePath → a.body.lexemes = .ok lexemes →
    Lists Spells ts lexemes →
    take known a = if odd (ts.foldl set known) then .error fault else .ok (ts.foldl set known)
  listed : ∀ {known a found}, a.path = attributePath → take known a = .ok found →
    ∃ lexemes ts, a.body.lexemes = .ok lexemes ∧ Lists Spells ts lexemes
  stays : ∀ {known s}, odd known = true → odd (set known s) = true

variable {take : μ → Attribute → Except CompileError μ} {set : μ → σ → μ} {odd : μ → Bool}
  {fault : CompileError} {attributes : List Attribute} {ss : List σ} {known found : μ}

theorem TakesAttributes.stays_foldl (h : TakesAttributes take Spells set odd fault)
    (hodd : odd known = true) (ss : List σ) : odd (ss.foldl set known) = true := by
  induction ss generalizing known with
  | nil => exact hodd
  | cons s ss ih => exact ih (h.stays hodd)

/-- Attributes that ask for settings leave the marks of these, unless they are at odds. -/
theorem TakesAttributes.foldlM_of_asks (h : TakesAttributes take Spells set odd fault)
    (hasks : Asks Spells attributes ss) (hknown : odd known = false) :
    attributes.foldlM take known =
      if odd (ss.foldl set known) then .error fault else .ok (ss.foldl set known) := by
  induction hasks generalizing known with
  | none => simp [hknown, pure, Except.pure]
  | other hpath _ ih =>
      rw [List.foldlM_cons, h.other hpath]
      exact ih hknown
  | @lists a as lexemes ts ss hpath hlexemes hlists _ ih =>
      rw [List.foldlM_cons, h.lists hpath hlexemes hlists, List.foldl_append]
      cases hodd : odd (ts.foldl set known) with
      | true =>
          rw [h.stays_foldl hodd ss]
          rfl
      | false => exact ih hodd

/-- Attributes that are taken ask for settings. -/
theorem TakesAttributes.asks_of_foldlM (h : TakesAttributes take Spells set odd fault)
    (hfound : attributes.foldlM take known = .ok found) : ∃ ss, Asks Spells attributes ss := by
  induction attributes generalizing known with
  | nil => exact ⟨[], .none⟩
  | cons a as ih =>
      rw [List.foldlM_cons] at hfound
      obtain ⟨next, hnext, hrest⟩ := bind_eq_ok hfound
      obtain ⟨ss, hasks⟩ := ih hrest
      by_cases hpath : a.path = attributePath
      · obtain ⟨lexemes, ts, hlexemes, hlists⟩ := h.listed hpath hnext
        exact ⟨ts ++ ss, .lists hpath hlexemes hlists hasks⟩
      · exact ⟨ss, .other hpath hasks⟩

end Attributes

theorem ItemSetting.takesAttributes :
    TakesAttributes ItemMarks.takeAttribute ItemSetting.Spells ItemSetting.set (fun _ => false)
      .noArguments where
  other hpath := if_neg hpath
  lists hpath hlexemes hlists := by
    rw [ItemMarks.takeAttribute, if_pos hpath]
    exact understands.foldArguments_eq hlexemes hlists
  listed hpath htake := by
    rw [ItemMarks.takeAttribute, if_pos hpath] at htake
    exact understands.exists_lists htake
  stays h := h

theorem FieldSetting.takesAttributes (check : PathCheck) :
    TakesAttributes (FieldMarks.takeAttribute check) (FieldSetting.Spells check) FieldSetting.set
      (fun marks => marks.base && marks.rule.isSome) .baseWithRule where
  other hpath := if_neg hpath
  lists hpath hlexemes hlists := by
    rw [FieldMarks.takeAttribute, if_pos hpath,
      (understands check).foldArguments_eq hlexemes hlists]
    rfl
  listed hpath htake := by
    rw [FieldMarks.takeAttribute, if_pos hpath] at htake
    obtain ⟨found, hfound, -⟩ := bind_eq_ok htake
    exact (understands check).exists_lists hfound
  stays {known s} h := by
    cases s <;> simp_all [FieldSetting.set]

theorem FieldSetting.clash_iff {ss : List FieldSetting} :
    Clash ss ↔ (decide (.base ∈ ss) && (lastRule ss).isSome) = true := by
  rw [Bool.and_eq_true, lastRule_isSome, decide_eq_true_iff, Clash]

namespace ItemMarks

variable {attributes : List Attribute} {ss : List ItemSetting}

/-- Attributes that ask for settings of an item leave the marks of these. -/
theorem ofAttributes_of_asks (h : Asks ItemSetting.Spells attributes ss) :
    ofAttributes attributes = .ok ⟨decide (.asMap ∈ ss)⟩ := by
  have hset (known : ItemMarks) :
      ss.foldl ItemSetting.set known = ⟨known.asMap || decide (.asMap ∈ ss)⟩ := by
    clear h
    induction ss generalizing known with
    | nil => simp
    | cons s ss ih =>
        cases s
        rw [List.foldl_cons, ih]
        simp [ItemSetting.set]
  rw [ofAttributes, ItemSetting.takesAttributes.foldlM_of_asks h rfl, hset]
  rfl

theorem exists_asks {marks : ItemMarks} (h : ofAttributes attributes = .ok marks) :
    ∃ ss, Asks ItemSetting.Spells attributes ss :=
  ItemSetting.takesAttributes.asks_of_foldlM h

end ItemMarks

namespace FieldMarks

variable {check : PathCheck} {attributes : List Attribute} {ss : List FieldSetting}

theorem ofAttributes_eq (h : Asks (FieldSetting.Spells check) attributes ss) :
    ofAttributes check attributes =
      if decide (.base ∈ ss) && (FieldSetting.lastRule ss).isSome then .error .baseWithRule
      else .ok ⟨decide (.base ∈ ss), FieldSetting.lastRule ss⟩ := by
  have hset : ss.foldl FieldSetting.set ⟨false, none⟩ =
      ⟨decide (.base ∈ ss), FieldSetting.lastRule ss⟩ := by
    simp [FieldSetting.foldl_set]
  rw [ofAttributes, (FieldSetting.takesAttributes check).foldlM_of_asks h rfl, hset]

/-- Attributes that ask for settings of a field leave the marks of these, if they do not clash. -/
theorem ofAttributes_of_asks (h : Asks (FieldSetting.Spells check) attributes ss)
    (hclash : ¬ FieldSetting.Clash ss) :
    ofAttributes check attributes = .ok ⟨decide (.base ∈ ss), FieldSetting.lastRule ss⟩ := by
  rw [FieldSetting.clash_iff] at hclash
  rw [ofAttributes_eq h, if_neg hclash]

theorem not_clash (h : Asks (FieldSetting.Spells check) attributes ss) {marks : FieldMarks}
    (hmarks : ofAttributes check attributes = .ok marks) : ¬ FieldSetting.Clash ss := by
  intro hclash
  rw [ofAttributes_eq h, if_pos (FieldSetting.clash_iff.1 hclash)] at hmarks
  cases hmarks

theorem exists_asks {marks : FieldMarks} (h : ofAttributes check attributes = .ok marks) :
    ∃ ss, Asks (FieldSetting.Spells check) attributes ss :=
  (FieldSetting.takesAttributes check).asks_of_foldlM h

end FieldMarks

end ObjectStream
