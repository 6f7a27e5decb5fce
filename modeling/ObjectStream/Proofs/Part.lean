import ObjectStream.Encode
import ObjectStream.Proofs.Elements
import ObjectStream.Proofs.Plan

/-!
# Parts of values

A value is written and read part by part: a part is a whole value, the fields of
a struct without a header, or a field under a rule. Sequences, tuples, structs
and variants are lists of parts, so what the different loops of the writer and
of the reader do is stated once, for lists of parts.
-/

namespace ObjectStream

/-- What is written and read by itself. -/
inductive Part
  | whole (t : Ty)
  /-- The fields of a struct without a header. -/
  | fields (t : Ty)
  /-- A field under the rule with a path. -/
  | rule (path : String) (t : Ty)

def Part.asked (p : Part) (v : Value) : Part :=
  match p with
  | .whole t => .whole (t.asked v)
  | p => p

theorem Ty.deref_deref (t : Ty) : t.deref.deref = t.deref := by
  cases t with
  | ref t => exact deref_deref t
  | _ => rfl

/-- What is asked how a value is written is no reference. -/
theorem Ty.deref_asked (t : Ty) (v : Value) : (t.asked v).deref = t.asked v := by
  cases v with
  | present v =>
      rw [asked]
      split
      · rfl
      · exact t.deref_deref
  | _ => exact t.deref_deref

def MarkedField.part (σ : List (String × Ty)) (f : MarkedField Ty) : Part :=
  match f.writer with
  | .value t => .whole (t.subst σ)
  | .fields t => .fields (t.subst σ)
  | .rule path t => .rule path t

namespace Schema

def plan? (Γ : Schema) (name : String) : Option (Item Ty × Plan Ty) :=
  match Γ.item? name with
  | some item => item.plan.toOption.map fun plan => (item, plan)
  | none => none

theorem writer?_eq (Γ : Schema) (name : String) :
    Γ.writer? name = (Γ.plan? name).map fun (item, plan) => (item, item.writerOf plan) := by
  unfold writer? plan?
  cases Γ.item? name with
  | none => rfl
  | some item =>
      simp only [Item.writerCode_eq]
      cases item.plan <;> rfl

theorem reader?_eq (Γ : Schema) (name : String) :
    Γ.reader? name = (Γ.plan? name).map fun (item, plan) => (item, item.readerOf plan) := by
  unfold reader? plan?
  cases Γ.item? name with
  | none => rfl
  | some item =>
      simp only [Item.readerCode_eq]
      cases item.plan <;> rfl

theorem plan_of_plan? {Γ : Schema} {name : String} {item : Item Ty} {plan : Plan Ty}
    (h : Γ.plan? name = some (item, plan)) : item.plan = .ok plan := by
  unfold plan? at h
  cases hitem : Γ.item? name with
  | none => simp [hitem] at h
  | some found =>
      simp only [hitem] at h
      cases hplan : found.plan with
      | error e => simp [hplan, Except.toOption] at h
      | ok p =>
          simp only [hplan, Except.toOption, Option.map_some, Option.some.injEq,
            Prod.mk.injEq] at h
          obtain ⟨rfl, rfl⟩ := h
          exact hplan

/-- A writer and a reader come with a declared type, or by it with its options. -/
theorem codec?_cases {Γ : Schema} {t : Ty} {codec : Codec} (h : Γ.codec? t = some codec) :
    (∃ name args hooks, t = .named name args ∧
      Γ.types.lookup name = some (.custom codec hooks)) ∨
    ∃ name args own hooks, t = .option (.named name args) ∧
      Γ.types.lookup name = some (.custom own hooks) ∧ codec = hooks.codec := by
  cases t with
  | named name args =>
      simp only [codec?] at h
      split at h
      · next own hooks hlookup =>
          cases h
          exact .inl ⟨name, args, hooks, rfl, hlookup⟩
      · cases h
  | option inner =>
      cases inner with
      | named name args =>
          simp only [codec?] at h
          split at h
          · next own hooks hlookup =>
              cases h
              exact .inr ⟨name, args, own, hooks, rfl, hlookup, rfl⟩
          · cases h
      | _ => cases h
  | _ => cases h

/-- A type that comes with a writer and reader, or has one by its content, is no reference, and
there is none within an option. -/
theorem asked_of_codec? {Γ : Schema} {t : Ty} {codec : Codec} (h : Γ.codec? t = some codec)
    (v : Value) : t.asked v = t := by
  rcases codec?_cases h with ⟨name, args, _, rfl, -⟩ | ⟨name, args, _, _, rfl, -⟩ <;>
    cases v <;> rfl

/-- A type that leaves its options as they are comes without a writer and reader. -/
theorem codec?_of_option {Γ : Schema} {t : Ty} (h : Γ.codec? (.option t) = none)
    (hoption : t.isOption = false) : Γ.codec? t = none := by
  cases t with
  | named name args =>
      unfold codec? at h ⊢
      cases hlookup : Γ.types.lookup name with
      | none => simp only [hlookup]
      | some declaration =>
          cases declaration with
          | derived item => simp only [hlookup]
          | custom codec hooks => simp [hlookup] at h
  | option t => cases hoption
  | _ => rfl

/-- A type with a plan has no writer and reader of its own. -/
theorem codec?_of_plan? {Γ : Schema} {name : String} {args : List Ty} {p : Item Ty × Plan Ty}
    (h : Γ.plan? name = some p) : Γ.codec? (.named name args) = none := by
  unfold plan? item? at h
  unfold codec?
  cases hlookup : Γ.types.lookup name with
  | none => simp only [hlookup]
  | some declaration =>
      cases declaration with
      | derived item => simp only [hlookup]
      | custom codec => simp [hlookup] at h

/-- A struct is counted alike by its writer and by its reader. -/
theorem writtenFields_eq (Γ : Schema) (fuel : Nat) (t : Ty) :
    Γ.writtenFields fuel t = Γ.readFields fuel t := by
  induction fuel generalizing t with
  | zero => rfl
  | succ fuel ih =>
      cases t with
      | named name args =>
          rw [writtenFields, readFields, writer?_eq, reader?_eq]
          cases hplan : Γ.plan? name with
          | none => rfl
          | some found =>
              obtain ⟨item, plan⟩ := found
              cases plan with
              | bare => rfl
              | variants fields => rfl
              | struct asMap fields =>
                  simp only [Option.map_some, Item.writerOf, Item.readerOf, List.map_map]
                  congr 1
                  apply List.map_congr_left
                  intro f _
                  simp only [Function.comp_apply, MarkedField.writeCount, MarkedField.readCount]
                  cases f.marks.base with
                  | true => exact ih _
                  | false => rfl
      | _ => rfl

theorem writtenFieldCount_eq (Γ : Schema) (t : Ty) : Γ.writtenFieldCount t = Γ.readFieldCount t :=
  writtenFields_eq Γ baseDepth t

/-- There is room for a struct and the bases in it. -/
theorem exists_baseDepth : ∃ fuel, baseDepth = fuel + 1 := ⟨2 ^ 32 - 1, rfl⟩

/-! ## Writing and reading parts -/

def writePart (Γ : Schema) (p : Part) (v : Value) : Writer Unit :=
  match p with
  | .whole t => encode Γ t v
  | .fields t => encodeFields Γ t v
  | .rule path t =>
      match Γ.rule? path with
      | some codec => codec.write v
      | none => illTyped t

def writeParts (Γ : Schema) : List Part → List Value → Writer Unit
  | p :: ps, v :: vs => do
      Γ.writePart p v
      writeParts Γ ps vs
  | [], [] => pure ()
  | _, _ => illTyped .unit

/-- Reads a part, given how to read whole values and how deep bases nest. -/
def readPart (Γ : Schema) (value : Ty → Reader Value) (fuel : Nat) (p : Part) : Reader Value :=
  match p with
  | .whole t => value t
  | .fields t => decodeFieldList Γ value fuel t
  | .rule path t =>
      match Γ.rule? path with
      | some codec => codec.read
      | none => Reader.unreadable t

theorem encodeEach_eq (Γ : Schema) (t : Ty) (vs : List Value) :
    encodeEach Γ t vs = Γ.writeParts (List.replicate vs.length (.whole t)) vs := by
  induction vs with
  | nil => rw [encodeEach]; rfl
  | cons v vs ih =>
      rw [encodeEach, ih]
      rfl

theorem encodeParts_eq (Γ : Schema) (ts : List Ty) (vs : List Value)
    (h : vs.length = ts.length) : encodeParts Γ ts vs = Γ.writeParts (ts.map .whole) vs := by
  induction vs generalizing ts with
  | nil =>
      have hnil : ts = [] := List.eq_nil_of_length_eq_zero h.symm
      rw [encodeParts, hnil]
      rfl
  | cons v vs ih =>
      cases ts with
      | nil => cases h
      | cons t ts =>
          rw [encodeParts, ih ts (Nat.succ.inj h)]
          rfl

/-- Steps without keys write the parts of their fields. -/
theorem encodeSteps_eq (Γ : Schema) (σ : List (String × Ty)) (steps : List (WriteStep Ty))
    (fields : List (MarkedField Ty)) (vs : List Value)
    (h : steps.map (fun step => (step.key, step.writer)) =
      fields.map fun f => (none, f.writer)) :
    encodeSteps Γ σ steps vs = Γ.writeParts (fields.map (MarkedField.part σ)) vs := by
  induction vs generalizing steps fields with
  | nil =>
      rw [encodeSteps]
      cases steps with
      | nil =>
          have hnil : fields = [] := by simpa using h.symm
          rw [hnil]
          rfl
      | cons step steps =>
          cases fields with
          | nil => simp at h
          | cons f fields => rfl
  | cons v vs ih =>
      cases steps with
      | nil =>
          have hnil : fields = [] := by simpa using h.symm
          rw [encodeSteps, hnil]
          rfl
      | cons step steps =>
          cases fields with
          | nil => simp at h
          | cons f fields =>
              simp only [List.map_cons, List.cons.injEq, Prod.mk.injEq] at h
              obtain ⟨⟨hkey, hwriter⟩, hrest⟩ := h
              rw [encodeSteps, ih steps fields hrest, hkey, hwriter]
              simp only [encodeKey, pure_bind, List.map_cons, writeParts, writePart,
                MarkedField.part]
              cases f.writer with
              | value t => rfl
              | fields t => rfl
              | rule path t =>
                  dsimp only
                  cases Γ.rule? path <;> rfl

theorem decodeField_eq (Γ : Schema) (value : Ty → Reader Value) (fuel : Nat)
    (σ : List (String × Ty)) (f : MarkedField Ty) :
    decodeField Γ value (decodeFieldList Γ value fuel) σ f.reader =
      Γ.readPart value fuel (f.part σ) := by
  unfold MarkedField.part MarkedField.reader MarkedField.writer
  cases f.marks.base with
  | true => rfl
  | false =>
      cases f.marks.rule with
      | none => rfl
      | some path =>
          cases hrule : Γ.rule? path <;>
            simp only [Bool.false_eq_true, if_false, decodeField, readPart, hrule]

end Schema

namespace Reader

theorem each_map {α β γ : Type} (read : β → Reader γ) (f : α → β) (as : List α) :
    each read (as.map f) = each (fun a => read (f a)) as := by
  induction as with
  | nil => rfl
  | cons a as ih => rw [List.map_cons, each, each, ih]

theorem each_fields (Γ : Schema) (value : Ty → Reader Value) (fuel : Nat)
    (σ : List (String × Ty)) (fields : List (MarkedField Ty)) :
    each (decodeField Γ value (decodeFieldList Γ value fuel) σ)
        (fields.map MarkedField.reader) =
      each (Γ.readPart value fuel) (fields.map (MarkedField.part σ)) := by
  rw [each_map, each_map]
  simp only [Schema.decodeField_eq]

theorem repeatOnto_eq {α : Type} (x : Reader α) (n : Nat) (done : List α) :
    repeatOnto x n done =
      (fun as => done.reverse ++ as) <$> each (fun _ : Unit => x) (List.replicate n ()) := by
  induction n generalizing done with
  | zero => simp [repeatOnto, each]
  | succ n ih =>
      rw [repeatOnto, List.replicate_succ, each]
      simp only [ih, map_eq_pure_bind, bind_assoc, pure_bind, List.reverse_cons,
        List.append_assoc, List.singleton_append]

theorem each_const {α β : Type} (x : Reader α) (n : Nat) (b : β) :
    each (fun _ : β => x) (List.replicate n b) = times n x := by
  have hunits : List.replicate n b = (List.replicate n ()).map fun _ => b := by simp
  rw [times, repeatOnto_eq, hunits, each_map]
  simp

/-- A repeated reading is that of a list of parts which are all alike. -/
theorem times_eq (Γ : Schema) (value : Ty → Reader Value) (fuel n : Nat) (t : Ty) :
    times n (value t) = each (Γ.readPart value fuel) (List.replicate n (.whole t)) := by
  have hparts : List.replicate n (Part.whole t) =
      (List.replicate n ()).map fun _ => Part.whole t := by
    simp
  rw [times, repeatOnto_eq, hparts, each_map]
  simp [Schema.readPart]

end Reader

end ObjectStream
