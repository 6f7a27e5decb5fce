import Mathlib.Data.List.Nodup
import ObjectStream.Proofs.Writing
import ObjectStream.Proofs.Key

/-!
# What is read for values

The equations of the reader that go with those of the writer, and the mirrored
actions they are made of: headers in front of lists of parts, options, tables,
and the discriminants of enums without fields.
-/

namespace ObjectStream

variable {Γ : Schema} {c : Context} {H : Heap}

namespace Schema

/-- The levels of nesting that the reading of a part takes apart from its bytes. -/
def levels : Part → Nat
  | .whole (.option _) => 2
  | .whole _ => 1
  | _ => 2

theorem levels_le (p : Part) : levels p ≤ 2 := by
  unfold levels
  split <;> omega

/-- The bases within a part nest at most so deep. -/
def PartNests (Γ : Schema) (fuel : Nat) (p : Part) : Prop :=
  match p with
  | .fields t => Γ.Nests fuel t
  | _ => True

/-- A value that is a list in a fixed order is neither an option nor a pointer, and its parts are
whole values. -/
theorem parts_whole {t : Ty} {n : Nat} {ps : List Part} (h : Γ.parts (.whole t) n = some ps) :
    levels (.whole t) = 1 ∧ t.isPointer = false ∧ ∀ fuel, ∀ p ∈ ps, Γ.PartNests fuel p := by
  have hwhole (e : Ty) (fuel : Nat) (p : Part) (hp : p ∈ List.replicate n (Part.whole e)) :
      Γ.PartNests fuel p := by
    rw [List.eq_of_mem_replicate hp]
    trivial
  cases t with
  | tuple ts =>
      simp only [parts] at h
      split at h
      · cases h
        refine ⟨rfl, rfl, fun fuel p hp => ?_⟩
        obtain ⟨t, _, rfl⟩ := List.mem_map.1 hp
        trivial
      · cases h
  | array e count =>
      simp only [parts] at h
      split at h
      · cases h
        exact ⟨rfl, rfl, hwhole e⟩
      · cases h
  | seq kind e =>
      cases kind with
      | slice => cases h
      | _ =>
          cases h
          exact ⟨rfl, rfl, hwhole e⟩
  | _ => cases h

theorem partNests_of_base {σ : List (String × Ty)} {f : MarkedField Ty} {fuel : Nat}
    (h : f.marks.base = true → Γ.Nests fuel (f.type.subst σ)) : Γ.PartNests fuel (f.part σ) := by
  unfold MarkedField.part MarkedField.writer
  cases hbase : f.marks.base with
  | true => exact h hbase
  | false =>
      cases f.marks.rule with
      | none => trivial
      | some path => trivial

theorem partNests_of_hasBase {σ : List (String × Ty)} {fields : List (MarkedField Ty)}
    (h : hasBase fields = false) (fuel : Nat) {p : Part}
    (hp : p ∈ fields.map (MarkedField.part σ)) : Γ.PartNests fuel p := by
  obtain ⟨f, hf, rfl⟩ := List.mem_map.1 hp
  refine partNests_of_base fun hbase => ?_
  have hany : hasBase fields = true := List.any_eq_true.2 ⟨f, hf, hbase⟩
  rw [h] at hany
  cases hany

/-- The bases of a struct's fields nest less deep. -/
theorem partNests_of_nests {name : String} {args : List Ty} {item : Item Ty} {asMap : Bool}
    {fields : List (MarkedField Ty)} {fuel : Nat}
    (hplan : Γ.plan? name = some (item, .struct asMap fields))
    (h : Γ.Nests (fuel + 1) (.named name args)) {p : Part}
    (hp : p ∈ fields.map (MarkedField.part (arguments item args))) : Γ.PartNests fuel p := by
  obtain ⟨f, hf, rfl⟩ := List.mem_map.1 hp
  simp only [Nests, hplan] at h
  exact partNests_of_base (h f hf)

/-- A base is a struct, whose own bases nest less deep. -/
theorem Nests.exists_struct {fuel : Nat} {t : Ty} (h : Γ.Nests fuel t) :
    ∃ less name args item asMap fields, fuel = less + 1 ∧ t = .named name args ∧
      Γ.plan? name = some (item, .struct asMap fields) ∧
      ∀ p ∈ fields.map (MarkedField.part (arguments item args)), Γ.PartNests less p := by
  cases fuel with
  | zero => cases h
  | succ less =>
      cases t with
      | named name args =>
          cases hplan : Γ.plan? name with
          | none => simp only [Nests, hplan] at h
          | some found =>
              obtain ⟨item, plan⟩ := found
              cases plan with
              | struct asMap fields =>
                  exact ⟨less, name, args, item, asMap, fields, rfl, rfl, hplan,
                    fun p => partNests_of_nests hplan h⟩
              | bare | variants => simp only [Nests, hplan] at h
      | _ => cases h

/-! ## Equations of the reader -/

section Equations

variable (value : Ty → Reader Value)

theorem readPart_whole (depth fuel : Nat) (t : Ty) :
    Γ.readPart (decodeWithin Γ (depth + 1)) fuel (.whole t) =
      decodeStep Γ (decodeWithin Γ depth) t := rfl

variable {name : String} {args : List Ty} {item : Item Ty}

theorem decodeFieldList_struct {asMap : Bool} {fields : List (MarkedField Ty)} (fuel : Nat)
    (h : Γ.plan? name = some (item, .struct asMap fields)) :
    decodeFieldList Γ value (fuel + 1) (.named name args) =
      Value.list <$> Reader.each (Γ.readPart value fuel)
        (fields.map (MarkedField.part (arguments item args))) := by
  have hparts := Item.parts_assemble (Item.marked_of_plan (plan_of_plan? h)) MarkedField.reader
  rw [decodeFieldList]
  simp only [reader?_of_plan h, Item.readerOf, hparts, Reader.each_fields]

/-- The fields that are read without a header are those of a struct, with a bound left for its
bases; every other type is refused, however its values are read. -/
theorem decodeFieldList_cases (Γ : Schema) (fuel : Nat) (t : Ty) :
    (∃ less name args item asMap fields, fuel = less + 1 ∧ t = .named name args ∧
      Γ.plan? name = some (item, .struct asMap fields)) ∨
    ∀ value, decodeFieldList Γ value fuel t = Reader.unreadable t := by
  cases fuel with
  | zero => exact .inr fun value => by cases t <;> rfl
  | succ less =>
      cases t with
      | named name args =>
          cases hplan : Γ.plan? name with
          | none =>
              refine .inr fun value => ?_
              simp only [decodeFieldList, reader?_of_no_plan hplan]
          | some found =>
              obtain ⟨item, plan⟩ := found
              cases plan with
              | struct asMap fields =>
                  exact .inl ⟨less, name, args, item, asMap, fields, rfl, rfl, hplan⟩
              | bare | variants fieldss =>
                  refine .inr fun value => ?_
                  simp only [decodeFieldList, reader?_of_plan hplan, Item.readerOf]
      | _ => exact .inr fun value => rfl

theorem decodeStep_of_no_plan (hcodec : Γ.codec? (.named name args) = none)
    (h : Γ.plan? name = none) :
    decodeStep Γ value (.named name args) = Reader.unreadable (.named name args) := by
  simp only [decodeStep, hcodec, reader?_of_no_plan h]

theorem decodeStep_struct {asMap : Bool} {fields : List (MarkedField Ty)}
    (h : Γ.plan? name = some (item, .struct asMap fields)) :
    decodeStep Γ value (.named name args) =
      if asMap then (do
        let count ← Reader.mapHeader
        if count = fields.length then do
          let slots ← decodeEntries item.name.name (fields.map MarkedField.holder)
            (decodeField Γ value (decodeFieldList Γ value baseDepth) (arguments item args)) count
            (List.replicate fields.length none)
          Value.list <$> takeSlots item.name.name (fields.map MarkedField.held) slots
        else throw (.structDecode (.fieldCount item.name.name fields.length count)))
      else (do
        let count ← Reader.arrayHeader
        if count = Γ.readFieldCount (.named name args) then
          decodeFieldList Γ value baseDepth (.named name args)
        else throw (.structDecode (.fieldCount item.name.name
          (Γ.readFieldCount (.named name args)) count))) := by
  have hheld := Item.parts_assemble (Item.marked_of_plan (plan_of_plan? h)) MarkedField.held
  simp only [decodeStep, codec?_of_plan? h, reader?_of_plan h, Item.readerOf]
  cases asMap with
  | true =>
      have hempty : (fields.map MarkedField.holder).map (fun _ => (none : Option Value)) =
          List.replicate fields.length none := by
        rw [List.map_const', List.length_map]
      simp only [if_true, decodeDerived, hheld, hempty]
      congr 1
      funext count
      by_cases hcount : count = fields.length
      · simp [hcount]
      · simp [hcount]
        rfl
  | false =>
      simp only [Bool.false_eq_true, if_false, decodeDerived]
      congr 1
      funext count
      by_cases hcount : count = Γ.readFieldCount (.named name args)
      · simp [hcount]
      · simp [hcount]
        rfl

theorem decodeStep_bare (h : Γ.plan? name = some (item, .bare)) :
    decodeStep Γ value (.named name args) = (do
      let number ← Reader.signed .w64
      match (discriminants item.variants).findIdx? (fun d => number == wireDiscriminant d) with
      | some index => pure (.variant index [])
      | none => throw (.enumDecode (.discriminant number item.name.name))) := by
  have hderived : decodeStep Γ value (.named name args) =
      decodeDerived Γ value (decodeFieldList Γ value baseDepth) (.named name args)
        (arguments item args) item (item.readerOf .bare).body := by
    simp only [decodeStep, codec?_of_plan? h, reader?_of_plan h]
  simp only [Item.readerOf, decodeDerived, Item.data_of_bare (plan_of_plan? h)] at hderived
  exact hderived

theorem decodeStep_variants {fieldss : List (List (MarkedField Ty))}
    (h : Γ.plan? name = some (item, .variants fieldss)) :
    decodeStep Γ value (.named name args) = (do
      let len ← Reader.arrayHeader
      if len = 0 then throw (.type (.emptyVariant item.name.name))
      let index ← Reader.unsigned .w32
      match (Item.arms Item.readArmOf item.variants fieldss).find? (·.index == index) with
      | some arm =>
          if len - 1 ≠ arm.count then
            throw (.enumDecode (.fieldCount item.name.name arm.variantName arm.count (len - 1)))
          Value.variant index <$> Reader.each
            (decodeField Γ value (decodeFieldList Γ value baseDepth) (arguments item args))
            arm.result.parts
      | none => throw (.enumDecode (.variant index item.name.name))) := by
  simp only [decodeStep, codec?_of_plan? h, reader?_of_plan h]
  rfl

end Equations

end Schema

/-! ## Options -/

def Reader.pointer? (value : Ty → Reader Value) : Ty → Option (Reader (Option Value))
  | .shared pointee => some (sharedValue pointee value)
  | .unique pointee => some (uniqueValue pointee value)
  | _ => none

theorem decodeOptional_pointer {value : Ty → Reader Value} {t : Ty}
    {read : Reader (Option Value)} (h : Reader.pointer? value t = some read) :
    decodeOptional value t = Reader.optionOf read := by
  cases t <;> cases h <;> rfl

theorem decodeStep_pointer {value : Ty → Reader Value} {t : Ty} {read : Reader (Option Value)}
    (h : Reader.pointer? value t = some read) :
    ∃ fault, decodeStep Γ value t = Reader.required fault read := by
  cases t <;> cases h <;> exact ⟨_, rfl⟩

theorem decodeOptional_other {value : Ty → Reader Value} {t : Ty}
    (hpointer : t.isPointer = false) (hoption : t.isOption = false) :
    decodeOptional value t = Reader.nilOr (value t) := by
  cases t with
  | shared pointee | unique pointee => cases hpointer
  | option t => cases hoption
  | _ => rfl

namespace Conveys

theorem absentOther (y : Reader Value) :
    Conveys c Writer.nil (· ≠ []) (Reader.nilOr y) .absent := by
  refine spell (f := Form.nil) (List.cons_ne_nil _ _) fun r tail hr hrest => ?_
  simp only [Reader.nilOr, bind, EStateM.bind, Reader.peek_of_rest hrest, if_true,
    Reader.Takes.nil r tail hr hrest]
  rfl

theorem absentPointer {value : Ty → Reader Value} {t : Ty} {read : Reader (Option Value)}
    (h : Reader.pointer? value t = some read) :
    Conveys c Writer.nullPointer StartsValue (Reader.optionOf read) .absent := by
  have hread : Conveys c Writer.nullPointer StartsValue read none := by
    cases t with
    | shared pointee =>
        cases h
        have hnone : Conveys c Writer.nullPointer StartsValue (Reader.shared pointee value)
            none := nullPointer.settle fun _ _ => rfl
        exact hnone.settle fun _ _ => rfl
    | unique pointee =>
        cases h
        have hnone : Conveys c Writer.nullPointer StartsValue (Reader.unique pointee value)
            none := nullPointer.settle fun _ _ => rfl
        exact hnone.settle fun _ _ => rfl
    | _ => cases h
  exact hread.settle fun _ _ => rfl

end Conveys

/-! ## Slots -/

theorem takeSlots_some (struct : String) {helds : List Held} {ws : List Value}
    (h : helds.length = ws.length) (r : InStream) :
    takeSlots struct helds (ws.map some) r = .ok ws r := by
  induction ws generalizing helds with
  | nil =>
      rw [List.eq_nil_of_length_eq_zero h]
      rfl
  | cons w ws ih =>
      cases helds with
      | nil => cases h
      | cons held helds =>
          rw [List.map_cons, takeSlots]
          simp only [bind, EStateM.bind, ih (Nat.succ.inj h)]
          rfl

theorem takeSlots_stays (struct : String) (helds : List Held) (slots : List (Option Value))
    (r : InStream) :
    (∃ ws, takeSlots struct helds slots r = .ok ws r) ∨
      ∃ e, takeSlots struct helds slots r = .error e r := by
  induction helds generalizing slots with
  | nil => exact .inl ⟨[], rfl⟩
  | cons held helds ih =>
      cases slots with
      | nil => exact .inl ⟨[], rfl⟩
      | cons slot slots =>
          cases slot with
          | none => exact .inr ⟨_, rfl⟩
          | some w =>
              rw [takeSlots]
              simp only [bind, EStateM.bind]
              rcases ih slots with ⟨ws, hws⟩ | ⟨e, he⟩
              · rw [hws]
                exact .inl ⟨_, rfl⟩
              · rw [he]
                exact .inr ⟨_, rfl⟩

/-! ## Discriminants -/

theorem wireDiscriminant_injective {ds : List Int} (h : Schema.FitWord ds) {a b : Int}
    (ha : a ∈ ds) (hb : b ∈ ds) (hab : wireDiscriminant a = wireDiscriminant b) : a = b := by
  have hmod : a % (2 ^ 64 : Nat) = b % (2 ^ 64 : Nat) :=
    calc a % (2 ^ 64 : Nat)
      _ = wireDiscriminant a % (2 ^ 64 : Nat) := Int.bmod_emod.symm
      _ = wireDiscriminant b % (2 ^ 64 : Nat) := by rw [hab]
      _ = b % (2 ^ 64 : Nat) := Int.bmod_emod
  rcases h with h | h
  · have hla := (IntWidth.holdsSigned_iff _ _).1 (h a ha)
    have hlb := (IntWidth.holdsSigned_iff _ _).1 (h b hb)
    simp only [IntWidth.bits] at hla hlb
    omega
  · have hla := (IntWidth.holdsUnsigned_iff _ _).1 (h a ha)
    have hlb := (IntWidth.holdsUnsigned_iff _ _).1 (h b hb)
    simp only [IntWidth.bits] at hla hlb
    omega

/-- The discriminant of a variant leads back to the variant. -/
theorem findIdx?_wireDiscriminant {ds : List Int} (hnodup : ds.Nodup) (hfit : Schema.FitWord ds)
    {index : Nat} {d : Int} (hd : ds[index]? = some d) :
    ds.findIdx? (fun e => wireDiscriminant d == wireDiscriminant e) = some index := by
  obtain ⟨hlt, rfl⟩ := List.getElem?_eq_some_iff.1 hd
  rw [List.findIdx?_eq_some_iff_getElem]
  refine ⟨hlt, by simp, fun j hj => ?_⟩
  have hj' : j < ds.length := Nat.lt_trans hj hlt
  intro heq
  have hsame := wireDiscriminant_injective hfit (List.getElem_mem hlt) (List.getElem_mem hj')
    (by simpa using heq)
  have := (List.Nodup.getElem_inj_iff hnodup).1 hsame
  omega

/-- An enum without fields travels as its discriminant. -/
theorem Conveys.bare {name : String} {args : List Ty} {item : Item Ty} {index : Nat}
    (value : Ty → Reader Value) (hplan : Γ.plan? name = some (item, .bare))
    (hdiscriminants : (discriminants item.variants).Nodup ∧
      Schema.FitWord (discriminants item.variants))
    (hindex : index < item.variants.length) :
    Conveys c (Γ.writePart (.whole (.named name args)) (.variant index [])) StartsValue
      (decodeStep Γ value (.named name args)) (.variant index []) := by
  obtain ⟨d, hd⟩ := exists_discriminant hindex
  obtain ⟨hnodup, hfit⟩ := hdiscriminants
  rw [Schema.writePart_bare hplan hd, Schema.decodeStep_bare _ hplan]
  refine (signed (holdsSigned_wireDiscriminant d)).settle fun r _ => ?_
  simp only [findIdx?_wireDiscriminant hnodup hfit hd]
  rfl

namespace Mirrors

variable {size : Nat} {sight : List Identity → List Identity} {x : Writer Unit}
  {Q : Renaming → Value → Prop}

/-- What does not start like nil is not taken for nil. -/
theorem nilOr {y : Reader Value} (hw : Writes c H sight StartsValue x)
    (h : Mirrors Γ c H size sight x y Q) :
    Mirrors Γ c H size sight x (Reader.nilOr y) fun ρ w => ∃ v, w = .present v ∧ Q ρ v := by
  intro s s' bytes hs hx hwrote hsize W hW hW32 r tail hc htracks hrest
  obtain ⟨bytes', hlead, hwrote'⟩ := hw s s' hs hx
  obtain rfl := hwrote.unique hwrote'
  have hread := h s s' bytes hs hx hwrote hsize W hW hW32 r tail hc htracks hrest
  obtain ⟨code, rest, hcons, hcode⟩ := hlead.append tail
  have hnil : Reader.nilOr y r = (Value.present <$> y) r := by
    simp only [Reader.nilOr, bind, EStateM.bind, Reader.peek_of_rest (hrest.trans hcons),
      if_neg hcode, Functor.map, EStateM.map]
    rfl
  rw [hnil]
  exact hread.map Value.present fun ρ v hv => ⟨v, rfl, hv⟩

/-- A header and a list of parts. -/
theorem headed {α β : Type} {y : Reader α} {a : α} {g : α → Reader β}
    {Q : Renaming → β → Prop} (hx : Conveys c x StartsValue y a) (read : Part → Reader Value)
    {ps : List Part} {vs : List Value} (hlen : ps.length = vs.length)
    (hw : ∀ q ∈ ps.zip vs, WritesOut Γ c H q.1 q.2)
    (h : ∀ n < size, ∀ q ∈ ps.zip vs, Mirrors Γ c H n (fun seen => q.2.sightings seen)
      (Γ.writePart q.1 q.2) (read q.1) fun ρ w => Same Γ ρ q.1 q.2 w)
    (f : List Value → β) (hg : g a = f <$> Reader.each read ps)
    (hQ : ∀ ρ ws, SameAll Γ ρ ps vs ws → Q ρ (f ws)) :
    Mirrors Γ c H size (fun seen => Value.sightingsIn seen vs) (do x; Γ.writeParts ps vs)
      (y >>= g) Q := by
  have hw' (q : Part × Value) (hq : q ∈ ps.zip vs) :
      Writes c H (fun seen => q.2.sightings seen) (fun _ => True) (Γ.writePart q.1 q.2) :=
    (hw q hq).imp fun _ _ => trivial
  refine behind hx (Writes.parts hlen hw') fun n hn => ?_
  rw [hg]
  exact (parts read hlen hw' (h n hn)).map f hQ

end Mirrors

end ObjectStream
