import ObjectStream.Proofs.OneValue
import ObjectStream.Proofs.Pace

/-!
# Decoding halts and makes progress

Every level of nesting takes a byte, but for the content of an option. So the bound
on the depth is never met: with any bound from there on a type is read in the same
way, and reading a type is the recursion that its parts say. This holds through
types that contain themselves and through pointers, whose objects are read by
whatever constructor the tag selects. What is read for a type takes at least a byte,
so an announced count makes no more attempts than there are bytes, and one.
-/

namespace ObjectStream

/-- The codec takes at least a byte, and keeps pace. -/
def Codec.Paced (codec : Codec) (c : Context) : Prop :=
  ∀ r, r.context = c → r.cursor.pos ≤ r.cursor.size → Reader.Paced 1 r (codec.read r)

namespace Schema

/-- What comes with a reader of its own inside of a part takes at least a byte, and keeps pace. -/
def Paced (Γ : Schema) (c : Context) (p : Part) : Prop :=
  ∀ q codec, Relation.ReflTransGen (Γ.Component c) p q → Γ.partCodec? q = some codec →
    codec.Paced c

variable {Γ : Schema} {c : Context} {p q : Part}

theorem Paced.component (h : Γ.Paced c p) (hq : Γ.Component c p q) : Γ.Paced c q :=
  fun q' codec hq' => h q' codec (.head hq hq')

theorem Paced.codec (h : Γ.Paced c p) {codec : Codec} (hcodec : Γ.partCodec? p = some codec) :
    codec.Paced c := h p codec .refl hcodec

theorem Paced.of_all (h : ∀ p codec, Γ.partCodec? p = some codec → codec.Paced c) (p : Part) :
    Γ.Paced c p := fun q codec _ => h q codec

/-- Derived types without field rules come with no reader of their own. -/
theorem Paced.of_derived {types : List (String × Declaration)}
    {order : Ty → KeyOrder}
    (h : ∀ q ∈ types, ∃ item, q.2 = .derived item) (c : Context) (p : Part) :
    Schema.Paced ⟨types, [], order⟩ c p :=
  .of_all (fun q codec hcodec => by rw [partCodec?_of_derived h q] at hcodec; cases hcodec) p

end Schema

section Reading

open Reader Schema

variable {Γ : Schema} {c : Context} {n : Nat} {value value' : Ty → Reader Value}

theorem Codec.Paced.keeps {codec : Codec} (h : codec.Paced c) :
    Reader.Keeps c n 1 codec.read codec.read :=
  fun r hc hr _ => ⟨rfl, h r hc hr⟩

/-! ## Collections -/

namespace Reader.Keeps

variable {α β : Type} {x y : Reader α}

theorem each {f g : α → Reader β} {as : List α} (h : ∀ a ∈ as, Keeps c n 0 (f a) (g a)) :
    Keeps c n 0 (Reader.each f as) (Reader.each g as) := by
  induction as with
  | nil => exact pure []
  | cons a as ih =>
      rw [List.forall_mem_cons] at h
      exact h.1.bind fun b => (ih h.2).bind fun bs => pure (b :: bs)

theorem times (h : Keeps c n 1 x y) (count : Nat) :
    Keeps c n 0 (Reader.times count x) (Reader.times count y) := by
  have honto (done : List α) :
      Keeps c n 0 (Reader.repeatOnto x count done) (Reader.repeatOnto y count done) := by
    induction count generalizing done with
    | zero => exact pure _
    | succ count ih =>
        exact (h.weaken (Nat.le_refl n) (Nat.zero_le 1)).bind fun a => ih (a :: done)
  exact honto []

theorem decodeVec (h : Keeps c n 1 x y) :
    Keeps c (n + 1) 1 (Reader.decodeVec x) (Reader.decodeVec y) :=
  arrayHeader.bind (l := 0) h.times

theorem pair {key key' content content' : Reader Value} (hkey : Keeps c n 1 key key')
    (hcontent : Keeps c n 1 content content') :
    Keeps c n 1 (Reader.pair key content) (Reader.pair key' content') := by
  refine (arrayHeaderOf 2).bind (l := 0) fun _ => ?_
  refine (hkey.weaken (Nat.sub_le n 1) (Nat.zero_le 1)).bind (l := 0) fun k => ?_
  exact (hcontent.weaken (Nat.sub_le n 1) (Nat.zero_le 1)).bind (l := 0) fun v => pure (k, v)

end Reader.Keeps

/-! ## Pointers -/

namespace Reader.Keeps

variable {read read' : Ty → Reader Value} {tag : TypeTag} {target : Ty}

theorem pointerTag : Keeps c n 1 Reader.pointerTag Reader.pointerTag := by
  refine (arrayHeaderOf 2).bind (l := 0) fun _ => ?_
  refine ((unsigned .w32).weaken (Nat.le_refl _) (Nat.zero_le 1)).bind (l := 0) fun tag => ?_
  refine ite (fun _ => ?_) fun _ => pure _
  exact (nil.weaken (Nat.le_refl _) (Nat.zero_le 1)).bind fun _ => pure none

theorem build (h : ∀ upcast, c.registry.upcast? tag target = some upcast →
      Keeps c n 1 (read upcast.source) (read' upcast.source)) :
    Keeps c n 1 (Reader.build c.registry tag target read)
      (Reader.build c.registry tag target read') := by
  rw [Reader.build, Reader.build]
  cases hup : c.registry.upcast? tag target with
  | none => exact throw (by simp)
  | some upcast =>
      have hnote : Keeps c n 0 (Reader.note (.constructing tag target))
          (Reader.note (.constructing tag target)) :=
        idle fun r => .inl ⟨_, _, rfl, rfl, rfl⟩
      exact (hnote.bind fun _ => (h upcast hup).bind fun v => pure _).weaken (Nat.le_refl n)
        (by omega)

theorem makeShared (h : ∀ upcast, c.registry.upcast? tag target = some upcast →
      Keeps c n 1 (read upcast.source) (read' upcast.source)) :
    Keeps c n 1 (Reader.makeShared tag target read) (Reader.makeShared tag target read') :=
  context ((build h).bind (l := 0) fun found => by
    exact idle fun r => .inl ⟨_, _, rfl, rfl, rfl⟩)

theorem makeTracked (h : ∀ upcast, c.registry.upcast? tag target = some upcast →
      Keeps c n 1 (read upcast.source) (read' upcast.source)) :
    Keeps c n 1 (Reader.makeTracked tag target read) (Reader.makeTracked tag target read') := by
  have hopen : Keeps c n 0 (Reader.openSlot tag) (Reader.openSlot tag) := by
    refine idle fun r => .inl ?_
    rw [Reader.openSlot]
    split <;> exact ⟨_, _, rfl, rfl, rfl⟩
  have hfill (m serial : Nat) (object : Shared) :
      Keeps c m 0 (Reader.fillSlot tag serial object) (Reader.fillSlot tag serial object) := by
    refine fun r _ hr _ => ⟨rfl, ?_⟩
    rcases fillSlot_cases tag serial object r with ⟨-, hfill⟩ | ⟨slot, -, hfill⟩ | ⟨-, -, hfill⟩
    · rw [hfill]
      exact ⟨.refl hr, Nat.le_refl _⟩
    · rw [hfill]
      exact ⟨⟨rfl, rfl, Nat.le_refl _, hr⟩, Nat.le_refl _⟩
    · rw [hfill]
      refine ⟨⟨rfl, rfl, Nat.le_refl _, hr⟩, fun hdeep => ?_⟩
      cases hdeep
  exact (hopen.bind fun serial => (makeShared h).bind fun object =>
    (hfill _ serial object).bind fun _ => pure object).weaken (Nat.le_refl n) (by omega)

theorem follow (tag : TypeTag) (serial : Nat) (target : Ty) :
    Keeps c n 0 (Reader.follow tag serial target) (Reader.follow tag serial target) := by
  have hslot : Keeps c n 0 (Reader.slot? serial) (Reader.slot? serial) :=
    idle fun r => .inl ⟨_, _, rfl, rfl, rfl⟩
  refine hslot.bind (l := 0) fun slot? => ?_
  cases slot? with
  | none => exact throw (by simp)
  | some slot =>
      have hresolve (object : Shared) : Keeps c n 0
          (do Reader.note (.resolvedObject tag serial)
              if object.target = target then Pure.pure object
              else MonadExcept.throw (.type (.otherPointer serial target)))
          (do Reader.note (.resolvedObject tag serial)
              if object.target = target then Pure.pure object
              else MonadExcept.throw (.type (.otherPointer serial target))) := by
        have hnote : Keeps c n 0 (Reader.note (.resolvedObject tag serial))
            (Reader.note (.resolvedObject tag serial)) :=
          idle fun r => .inl ⟨_, _, rfl, rfl, rfl⟩
        exact hnote.bind fun _ => check object
      refine ite (fun _ => ?_) fun _ => throw (by simp)
      cases slot.object with
      | none => exact throw (by simp)
      | some object => exact hresolve object

theorem sharedBehind (h : ∀ upcast, c.registry.upcast? tag target = some upcast →
      Keeps c n 1 (read upcast.source) (read' upcast.source)) :
    Keeps c n 1 (Reader.sharedBehind tag target read) (Reader.sharedBehind tag target read') := by
  have htracking : Keeps c n 0 Reader.tracking Reader.tracking :=
    idle fun r => .inl ⟨_, _, rfl, rfl, rfl⟩
  refine htracking.bind (l := 1) fun _ => ite (fun _ => ?_) fun _ => makeShared h
  refine peek.bind (l := 1) fun code => ite (fun _ => ?_) fun _ => makeTracked h
  exact (unsigned .w32).bind fun serial => follow tag serial target

/-- What is behind the tag of a pointer stands on a shorter stream. -/
theorem sharedValue (h : ∀ tag upcast, c.registry.upcast? tag target = some upcast →
      Keeps c n 1 (read upcast.source) (read' upcast.source)) :
    Keeps c (n + 1) 1 (Reader.sharedValue target read) (Reader.sharedValue target read') := by
  refine bind (l := 0) (bind (l := 0) pointerTag fun tag? => ?_) fun object? => pure _
  cases tag? with
  | none => exact pure none
  | some tag => exact ((sharedBehind (h tag)).map some).weaken (Nat.le_refl n) (Nat.zero_le 1)

theorem uniqueValue (h : ∀ tag upcast, c.registry.upcast? tag target = some upcast →
      Keeps c n 1 (read upcast.source) (read' upcast.source)) :
    Keeps c (n + 1) 1 (Reader.uniqueValue target read) (Reader.uniqueValue target read') := by
  refine bind (l := 0) (bind (l := 0) pointerTag fun tag? => ?_) fun object? => pure _
  cases tag? with
  | none => exact pure none
  | some tag =>
      exact (context ((build (h tag)).map some)).weaken (Nat.le_refl n) (Nat.zero_le 1)

theorem required (fault : TypeFault) {x y : Reader (Option Value)} (h : Keeps c n 1 x y) :
    Keeps c n 1 (Reader.required fault x) (Reader.required fault y) := by
  refine h.bind (l := 0) fun v? => ?_
  cases v? with
  | none => exact throw (by simp)
  | some v => exact pure v

theorem optionOf {x y : Reader (Option Value)} (h : Keeps c n 1 x y) :
    Keeps c n 1 (Reader.optionOf x) (Reader.optionOf y) := by
  refine h.bind (l := 0) fun v? => ?_
  cases v? with
  | none => exact pure _
  | some v => exact pure _

theorem nilOr {x y : Reader Value} (h : Keeps c n 1 x y) :
    Keeps c n 1 (Reader.nilOr x) (Reader.nilOr y) := by
  refine peek.bind (l := 1) fun code => ite (fun _ => ?_) fun _ => ?_
  · exact nil.bind fun _ => pure _
  · exact h.bind fun v => pure _

end Reader.Keeps

/-! ## Parts -/

/-- A part is read in the same way if the whole values in it are. The fields of a base may take no
byte. -/
theorem keeps_readPart (fuel : Nat) {p : Part} (hp : Γ.Paced c p)
    (hvalue : ∀ t, Γ.Paced c (.whole t) → Keeps c n 1 (value t) (value' t)) :
    Keeps c n 0 (Γ.readPart value fuel p) (Γ.readPart value' fuel p) := by
  induction fuel using Nat.strongRecOn generalizing p with
  | ind fuel ih =>
      cases p with
      | whole t => exact (hvalue t hp).weaken (Nat.le_refl n) (Nat.zero_le 1)
      | rule path t =>
          rw [readPart, readPart]
          cases hfound : Γ.rule? path with
          | none => exact .throw (by simp)
          | some codec => exact (hp.codec hfound).keeps.weaken (Nat.le_refl n) (Nat.zero_le 1)
      | fields t =>
          rw [readPart, readPart]
          rcases decodeFieldList_cases Γ fuel t with
            ⟨less, name, args, item, asMap, fields, rfl, rfl, hplan⟩ | hrefused
          · rw [decodeFieldList_struct value less hplan, decodeFieldList_struct value' less hplan]
            refine .map _ (.each fun q hq => ih less (Nat.lt_succ_self less) ?_)
            obtain ⟨f, hf, rfl⟩ := List.mem_map.1 hq
            exact hp.component (.field hplan hf)
          · rw [hrefused, hrefused]
            exact .throw (by simp)

theorem keeps_decodeEntries (struct : String) {fields : List (MarkedField Ty)}
    {σ : List (String × Ty)} (fuel : Nat) (hfields : ∀ f ∈ fields, Γ.Paced c (f.part σ))
    (hvalue : ∀ t, Γ.Paced c (.whole t) → Keeps c n 1 (value t) (value' t)) (count : Nat)
    (slots : List (Option Value)) :
    Keeps c n 0
      (decodeEntries struct (fields.map MarkedField.holder)
        (decodeField Γ value (decodeFieldList Γ value fuel) σ) count slots)
      (decodeEntries struct (fields.map MarkedField.holder)
        (decodeField Γ value' (decodeFieldList Γ value' fuel) σ) count slots) := by
  induction count generalizing slots with
  | zero => exact .pure slots
  | succ count ih =>
      rw [decodeEntries, decodeEntries]
      refine (Keeps.str.weaken (Nat.le_refl n) (Nat.zero_le 1)).bind (l := 0) fun key => ?_
      split
      · next i holder _ hholder =>
          obtain ⟨f, hf, rfl⟩ := List.mem_map.1 (List.mem_of_find?_eq_some hholder)
          have hpart := keeps_readPart fuel (hfields f hf) hvalue
          rw [← decodeField_eq, ← decodeField_eq] at hpart
          exact hpart.bind (l := 0) fun v => ih _
      · exact .throw (by simp)

theorem keeps_takeSlots (struct : String) (helds : List Held) (slots : List (Option Value)) :
    Keeps c n 0 (takeSlots struct helds slots) (takeSlots struct helds slots) := by
  induction helds generalizing slots with
  | nil => cases slots <;> exact .pure []
  | cons held helds ih =>
      cases slots with
      | nil => exact .pure []
      | cons slot slots =>
          cases slot with
          | none => exact .throw (by simp)
          | some v => exact (ih slots).bind fun vs => .pure _

/-- Behind the header of an option inside of an option, or the tag of a pointer, a value stands on a
shorter stream. Any other content of an option stands where the option does. -/
theorem keeps_decodeOptional {t : Ty} (ht : Γ.Paced c (.whole t))
    (hvalue : ∀ t, Γ.Paced c (.whole t) → Keeps c n 1 (value t) (value' t))
    (hfront : t.isOption = false → Keeps c (n + 1) 1 (value t) (value' t)) :
    Keeps c (n + 1) 1 (decodeOptional value t) (decodeOptional value' t) := by
  cases t with
  | option t =>
      refine .nilOr ((Keeps.arrayHeaderOf 1).bind (l := 0) fun _ => ?_)
      exact (hvalue _ ht).weaken (Nat.le_refl n) (Nat.zero_le 1)
  | shared pointee =>
      refine .optionOf (.sharedValue fun tag upcast hup => hvalue _ ?_)
      exact ht.component (.read (.inl rfl) hup)
  | unique pointee =>
      refine .optionOf (.uniqueValue fun tag upcast hup => hvalue _ ?_)
      exact ht.component (.read (.inr rfl) hup)
  | _ => exact .nilOr (hfront rfl)

section Derived

variable {name : String} {args : List Ty} {item : Item Ty}

theorem keeps_struct {asMap : Bool} {fields : List (MarkedField Ty)}
    (ht : Γ.Paced c (.whole (.named name args)))
    (hplan : Γ.plan? name = some (item, .struct asMap fields))
    (hvalue : ∀ t, Γ.Paced c (.whole t) → Keeps c n 1 (value t) (value' t)) :
    Keeps c (n + 1) 1 (decodeStep Γ value (.named name args))
      (decodeStep Γ value' (.named name args)) := by
  rw [decodeStep_struct value hplan, decodeStep_struct value' hplan]
  refine .ite (fun hmap => ?_) fun hmap => ?_
  · subst hmap
    have hfields (f : MarkedField Ty) (hf : f ∈ fields) :
        Γ.Paced c (f.part (arguments item args)) := ht.component (.entry hplan hf)
    refine Keeps.mapHeader.bind (l := 0) fun count => .ite (fun _ => ?_) fun _ => .throw (by simp)
    exact (keeps_decodeEntries _ baseDepth hfields hvalue count _).bind (l := 0) fun slots =>
      (keeps_takeSlots _ _ slots).map _
  · have harray : asMap = false := by simpa using hmap
    subst harray
    refine Keeps.arrayHeader.bind (l := 0) fun count => .ite (fun _ => ?_) fun _ => .throw (by simp)
    obtain ⟨fuel, hfuel⟩ := exists_baseDepth
    rw [hfuel, decodeFieldList_struct value fuel hplan, decodeFieldList_struct value' fuel hplan]
    refine .map _ (.each fun q hq => keeps_readPart fuel ?_ hvalue)
    have hmember : Γ.Members (.named name args) 0 _ _ := .struct 0 hplan
    exact ht.component (.member hmember hq)

theorem keeps_variants {fieldss : List (List (MarkedField Ty))}
    (ht : Γ.Paced c (.whole (.named name args)))
    (hplan : Γ.plan? name = some (item, .variants fieldss))
    (hvalue : ∀ t, Γ.Paced c (.whole t) → Keeps c n 1 (value t) (value' t)) :
    Keeps c (n + 1) 1 (decodeStep Γ value (.named name args))
      (decodeStep Γ value' (.named name args)) := by
  rw [decodeStep_variants value hplan, decodeStep_variants value' hplan]
  refine Keeps.arrayHeader.bind (l := 0) fun len => .ite (fun _ => .raise (by simp)) fun hlen => ?_
  refine ((Keeps.unsigned .w32).weaken (Nat.le_refl n) (Nat.zero_le 1)).bind (l := 0)
    fun index => ?_
  split
  · next arm harm =>
      refine .ite (fun _ => .raise (by simp)) fun hcount => .map _ ?_
      have hvariants := Item.variants_of_plan (plan_of_plan? hplan)
      obtain ⟨v, fields, place, hfields, hmarked, rfl⟩ :=
        Item.exists_variant hvariants (List.mem_of_find?_eq_some harm)
      obtain ⟨hassembled, -⟩ := Item.marked_of_variant hmarked
      rw [Item.readArmOf, Item.parts_assemble hassembled, Reader.each_fields, Reader.each_fields]
      refine .each fun q hq => keeps_readPart baseDepth ?_ hvalue
      obtain ⟨f, hf, rfl⟩ := List.mem_map.1 hq
      exact ht.component (.variant hplan hfields hf)
  · exact .throw (by simp)

theorem keeps_derived {plan : Plan Ty} (ht : Γ.Paced c (.whole (.named name args)))
    (hplan : Γ.plan? name = some (item, plan))
    (hvalue : ∀ t, Γ.Paced c (.whole t) → Keeps c n 1 (value t) (value' t)) :
    Keeps c (n + 1) 1 (decodeStep Γ value (.named name args))
      (decodeStep Γ value' (.named name args)) := by
  cases plan with
  | struct asMap fields => exact keeps_struct ht hplan hvalue
  | bare =>
      rw [decodeStep_bare value hplan, decodeStep_bare value' hplan]
      refine (Keeps.signed .w64).bind (l := 0) fun number => ?_
      split
      · exact .pure _
      · exact .throw (by simp)
  | variants fieldss => exact keeps_variants ht hplan hvalue

end Derived

/-- What two readers of the values inside of a type agree on, its two readers agree on with one more
byte. For the content of an option that stands where the option does, they have to agree with as
many. -/
theorem keeps_decodeStep {t : Ty} (ht : Γ.Paced c (.whole t))
    (hvalue : ∀ t, Γ.Paced c (.whole t) → Keeps c n 1 (value t) (value' t))
    (hfront : ∀ u, t = .option u → u.isOption = false →
      Keeps c (n + 1) 1 (value u) (value' u)) :
    Keeps c (n + 1) 1 (decodeStep Γ value t) (decodeStep Γ value' t) := by
  induction t using Ty.tuple_induction generalizing n with
  | tuple ts ih =>
      rw [decodeStep_tuple, decodeStep_tuple]
      refine (Keeps.arrayHeaderOf ts.length).bind (l := 0) fun _ => .map _ (.each fun u hu => ?_)
      have hmember := ht.component (.member (.tuple ts) (List.mem_map_of_mem hu))
      -- A part stands behind the header, so the content of an option does too.
      cases n with
      | zero => exact .zero
      | succ n =>
          refine (ih u hu hmember (fun t ht' => ?_) fun w hw _ => ?_).weaken (Nat.le_refl _)
            (Nat.zero_le 1)
          · exact (hvalue t ht').weaken (Nat.le_succ n) (Nat.le_refl 1)
          · subst hw
            exact hvalue w (hmember.component (.content w))
  | other t htuple =>
    cases hcodec : Γ.codec? t with
    | some codec =>
      have hpart : Γ.partCodec? (.whole t) = some codec := by
        cases t <;> first | exact hcodec | cases hcodec
      rw [decodeStep_custom value hcodec, decodeStep_custom value' hcodec]
      exact (ht.codec hpart).keeps
    | none =>
      cases t with
      | scalar s => exact (Keeps.scalar s).map _
      | errorCode => exact Keeps.errorCode.map _
      | tuple ts => exact absurd rfl (htuple ts)
      | array e count =>
          rw [decodeStep_array, decodeStep_array]
          refine (Keeps.arrayHeaderOf count).bind (l := 0) fun _ => .map _ ?_
          rcases count with _ | count
          · exact .pure []
          · have he : Γ.Paced c (.whole e) :=
              ht.component (.member (.array e (count + 1)) List.mem_cons_self)
            exact (hvalue e he).times (count + 1)
      | seq kind e =>
          have he : Γ.Paced c (.whole e) :=
            ht.component (.member (.seq kind e 1) List.mem_cons_self)
          by_cases hkind : kind = .slice
          · subst hkind
            exact .throw (by simp)
          · rw [decodeStep_seq value hkind, decodeStep_seq value' hkind]
            exact (hvalue e he).decodeVec.map _
      | set kind e =>
          have he : Γ.Paced c (.whole e) :=
            ht.component (.member (.set kind e 1) List.mem_cons_self)
          rw [decodeStep_set, decodeStep_set]
          exact (hvalue e he).decodeVec.map _
      | map kind k u =>
          have hentry : Γ.Paced c (.whole (.tuple [k, u])) :=
            ht.component (.member (.map kind k u 1) List.mem_cons_self)
          have hmember {t : Ty} (h : t ∈ [k, u]) : Γ.Paced c (.whole t) :=
            hentry.component (.member (.tuple [k, u]) (List.mem_map_of_mem h))
          rw [decodeStep_map, decodeStep_map]
          have hpair := (hvalue k (hmember (by simp))).pair (hvalue u (hmember (by simp)))
          exact hpair.decodeVec.map _
      | option u =>
          rw [decodeStep_option value hcodec, decodeStep_option value' hcodec]
          exact keeps_decodeOptional (ht.component (.content u)) hvalue (hfront u rfl)
      | shared pointee =>
          refine .required _ (.sharedValue fun tag upcast hup => hvalue _ ?_)
          exact ht.component (.read (.inl rfl) hup)
      | unique pointee =>
          refine .required _ (.uniqueValue fun tag upcast hup => hvalue _ ?_)
          exact ht.component (.read (.inr rfl) hup)
      | named name args =>
          cases hplan : Γ.plan? name with
          | none =>
              rw [decodeStep_of_no_plan value hcodec hplan,
                decodeStep_of_no_plan value' hcodec hplan]
              exact .throw (by simp)
          | some found => exact keeps_derived ht hplan hvalue
      | ref t | dyn name | param name => exact .throw (by simp)

end Reading

/-! ## The depth of nesting -/

/-- Reads a value down to a depth of nesting, and goes on in some other way there. -/
def decodeOver (Γ : Schema) (bottom : Ty → Reader Value) : Nat → Ty → Reader Value
  | 0, t => bottom t
  | depth + 1, t => decodeStep Γ (decodeOver Γ bottom depth) t

theorem decodeOver_tooDeep (Γ : Schema) (depth : Nat) :
    decodeOver Γ (fun _ => throw .tooDeep) depth = decodeWithin Γ depth := by
  induction depth with
  | zero => rfl
  | succ depth ih =>
      funext t
      rw [decodeOver, ih, decodeWithin]

section Depth

open Reader Schema

variable {Γ : Schema} {c : Context} {n : Nat} {bottom bottom' : Ty → Reader Value}
  {depth depth' : Nat}

/-- A value that is no option takes one level, and leaves the others to shorter streams. -/
theorem keeps_headed {t : Ty} (ht : Γ.Paced c (.whole t)) (hoption : t.isOption = false)
    (hdepth : 2 * n + 1 ≤ depth) (hdepth' : 2 * n + 1 ≤ depth')
    (hshorter : ∀ u, Γ.Paced c (.whole u) → ∀ d d', 2 * n ≤ d → 2 * n ≤ d' →
      Keeps c n 1 (decodeOver Γ bottom d u) (decodeOver Γ bottom' d' u)) :
    Keeps c (n + 1) 1 (decodeOver Γ bottom depth t) (decodeOver Γ bottom' depth' t) := by
  obtain ⟨d, rfl⟩ : ∃ d, depth = d + 1 := ⟨depth - 1, by omega⟩
  obtain ⟨d', rfl⟩ : ∃ d', depth' = d' + 1 := ⟨depth' - 1, by omega⟩
  refine keeps_decodeStep ht (fun u hu => hshorter u hu d d' (by omega) (by omega)) fun u hu _ => ?_
  subst hu
  cases hoption

/-- With two levels for each byte that is left and two more, it makes no difference what is done at
the bottom: reading does not come there. -/
theorem keeps_decodeOver (n : Nat) {t : Ty} (ht : Γ.Paced c (.whole t)) {depth depth' : Nat}
    (hdepth : 2 * n ≤ depth) (hdepth' : 2 * n ≤ depth') :
    Keeps c n 1 (decodeOver Γ bottom depth t) (decodeOver Γ bottom' depth' t) := by
  induction n generalizing t depth depth' with
  | zero => exact .zero
  | succ n ih =>
      obtain ⟨d, rfl⟩ : ∃ d, depth = d + 1 := ⟨depth - 1, by omega⟩
      obtain ⟨d', rfl⟩ : ∃ d', depth' = d' + 1 := ⟨depth' - 1, by omega⟩
      refine keeps_decodeStep ht (fun u hu => ih hu (by omega) (by omega)) fun u hu hoption => ?_
      subst hu
      exact keeps_headed (ht.component (.content u)) hoption (by omega) (by omega)
        fun u hu d d' hd hd' => ih hu hd hd'

theorem decode_eq_decodeOver (Γ : Schema) (t : Ty) (r : InStream) :
    decode Γ t r = decodeOver Γ (fun _ => throw .tooDeep) (depthBound r.cursor.remaining) t r := by
  rw [decodeOver_tooDeep]
  rfl

theorem keeps_decode {t : Ty} (ht : Γ.Paced c (.whole t)) (hdepth : 2 * n ≤ depth) :
    Keeps c n 1 (decodeOver Γ bottom depth t) (decode Γ t) := by
  intro r hc hr hn
  rw [decode_eq_decodeOver]
  exact keeps_decodeOver (r.cursor.remaining + 1) ht (by omega) (Nat.le_refl _) r hc hr
    (Nat.lt_succ_self _)

/-- Reading a type is the recursion that its parts say. -/
theorem decode_unfolds {t : Ty} (ht : Γ.Paced c (.whole t)) {r : InStream} (hc : r.context = c)
    (hr : r.cursor.pos ≤ r.cursor.size) : decode Γ t r = decodeStep Γ (decode Γ) t r := by
  have hbound : depthBound r.cursor.remaining = 2 * r.cursor.remaining + 1 + 1 := by
    rw [depthBound]
    omega
  rw [decode_eq_decodeOver, hbound]
  -- An option and its content stand at the same place, with one level between them.
  have hfront (u : Ty) (hu : Γ.Paced c (.whole u)) (hoption : u.isOption = false) :
      Keeps c (r.cursor.remaining + 1) 1
        (decodeOver Γ (fun _ => throw .tooDeep) (2 * r.cursor.remaining + 1) u) (decode Γ u) := by
    intro s hc hs hn
    rw [decode_eq_decodeOver]
    refine keeps_headed (n := s.cursor.remaining) hu hoption (by omega) ?_ (fun u hu d d' hd hd' =>
      keeps_decodeOver _ hu hd hd') s hc hs (Nat.lt_succ_self _)
    rw [depthBound]
    omega
  refine (keeps_decodeStep ht (n := r.cursor.remaining) (fun u hu => keeps_decode hu (by omega))
    (fun u hu hoption => ?_) r hc hr (Nat.lt_succ_self _)).1
  subst hu
  exact hfront u (ht.component (.content u)) hoption

end Depth

/-! ## Bases -/

theorem Reader.each_congr {α β : Type} {f g : α → Reader β} {as : List α}
    (h : ∀ a ∈ as, f a = g a) : each f as = each g as := by
  induction as with
  | nil => rfl
  | cons a as ih =>
      rw [List.forall_mem_cons] at h
      rw [each, each, h.1, ih h.2]

/-- The bases of a struct nest as deep as its declaration says, whatever the bound. -/
theorem Schema.Nests.decodeFieldList_eq {Γ : Schema} {k fuel : Nat} {t : Ty} (h : Γ.Nests k t)
    (hfuel : k ≤ fuel) (value : Ty → Reader Value) :
    decodeFieldList Γ value fuel t = decodeFieldList Γ value k t := by
  induction k using Nat.strongRecOn generalizing fuel t with
  | ind k ih =>
      obtain ⟨less, name, args, item, asMap, fields, rfl, rfl, hplan, hfields⟩ := h.exists_struct
      obtain ⟨fuel, rfl⟩ : ∃ f, fuel = f + 1 := ⟨fuel - 1, by omega⟩
      rw [decodeFieldList_struct value fuel hplan, decodeFieldList_struct value less hplan]
      congr 1
      refine Reader.each_congr fun p hp => ?_
      cases p with
      | whole t => rfl
      | rule path t => rfl
      | fields t => exact ih less (Nat.lt_succ_self less) (hfields _ hp) (by omega)

/-! ## Attempts -/

/-- The number of times that something is read when it is to be read a number of times: until one
of them fails. -/
def Reader.attempts {α : Type} (x : Reader α) : Nat → InStream → Nat
  | 0, _ => 0
  | count + 1, r =>
      match x r with
      | .ok _ r' => attempts x count r' + 1
      | .error _ _ => 1

namespace Reader.Keeps

variable {α : Type} {c : Context} {x : Reader α} {r : InStream}

/-- What takes a byte each time is not read more often than there are bytes, but for the time when
there are none. -/
theorem attempts_le (h : ∀ n, Keeps c n 1 x x) (hc : r.context = c)
    (hr : r.cursor.pos ≤ r.cursor.size) (count : Nat) :
    x.attempts count r ≤ r.cursor.remaining + 1 := by
  induction count generalizing r with
  | zero => exact Nat.zero_le _
  | succ count ih =>
      obtain ⟨-, hpaced⟩ := h (r.cursor.remaining + 1) r hc hr (Nat.lt_succ_self _)
      rw [attempts]
      cases hx : x r with
      | error e t => exact Nat.le_add_left 1 _
      | ok a t =>
          rw [hx] at hpaced
          obtain ⟨honward, htaken⟩ := hpaced
          have hsize := honward.size_eq
          have hinside := honward.inside
          have hrest := ih (honward.context.trans hc) (hsize ▸ hinside)
          simp only [ByteCursor.remaining] at hrest ⊢
          omega

/-- Counts that are greater than the number of bytes left make no difference. -/
theorem times_eq (h : ∀ n, Keeps c n 1 x x) (hc : r.context = c)
    (hr : r.cursor.pos ≤ r.cursor.size) {m n : Nat} (hm : r.cursor.remaining < m)
    (hn : r.cursor.remaining < n) : Reader.times m x r = Reader.times n x r := by
  have honto (done : List α) : Reader.repeatOnto x m done r = Reader.repeatOnto x n done r := by
    induction m generalizing r n done with
    | zero => omega
    | succ m ih =>
        obtain ⟨n, rfl⟩ : ∃ k, n = k + 1 := ⟨n - 1, by omega⟩
        rw [Reader.repeatOnto, Reader.repeatOnto]
        obtain ⟨-, hpaced⟩ := h (r.cursor.remaining + 1) r hc hr (Nat.lt_succ_self _)
        cases hx : x r with
        | error e t => rw [bind_failed hx, bind_failed hx]
        | ok a t =>
            rw [hx] at hpaced
            obtain ⟨honward, htaken⟩ := hpaced
            have hsize := honward.size_eq
            have hinside := honward.inside
            have hleft : t.cursor.remaining < r.cursor.remaining := by
              simp only [ByteCursor.remaining]
              omega
            rw [bind_of_ok hx, bind_of_ok hx]
            exact ih (honward.context.trans hc) (hsize ▸ hinside) (by omega) (by omega) (a :: done)
  exact honto []

end Reader.Keeps

/-- Reading a type from a stream comes to an end and makes progress. -/
structure Schema.Progresses (Γ : Schema) (t : Ty) (r : InStream) : Prop where
  /-- Reading the type is reading its parts. -/
  unfolds : decode Γ t r = decodeStep Γ (decode Γ) t r
  /-- Values do not nest deeper than two levels for each byte that is left, and two more. -/
  bounded : ∀ depth, 2 * (r.cursor.remaining + 1) ≤ depth → ∀ bottom,
    decodeOver Γ bottom depth t r = decode Γ t r
  /-- Bases do not nest deeper than they are declared. -/
  bases : ∀ k fuel, Γ.Nests k t → k ≤ fuel → ∀ value,
    decodeFieldList Γ value fuel t = decodeFieldList Γ value k t
  ends : ∀ e r', decode Γ t r = .error e r' → e ≠ .tooDeep
  /-- The cursor moves forward and not past the end, also when reading fails. -/
  onward : r.Onward (stateAfter (decode Γ t) r)
  takes : ∀ v r', decode Γ t r = .ok v r' → r.cursor.pos < r'.cursor.pos
  /-- Elements are not tried more often than there are bytes left, and once more, -/
  attempts : ∀ count, (decode Γ t).attempts count r ≤ r.cursor.remaining + 1
  /-- so a greater count comes to the same. -/
  counts : ∀ count, r.cursor.remaining < count →
    Reader.times count (decode Γ t) r = Reader.times (r.cursor.remaining + 1) (decode Γ t) r

theorem Schema.Paced.progresses {Γ : Schema} {c : Context} {t : Ty} {r : InStream}
    (ht : Γ.Paced c (.whole t)) (hc : r.context = c) (hr : r.cursor.pos ≤ r.cursor.size) :
    Γ.Progresses t r := by
  have hkeeps (n : Nat) : Reader.Keeps c n 1 (decode Γ t) (decode Γ t) := by
    have hover : Reader.Keeps c n 1 (decodeOver Γ (fun _ => throw .tooDeep) (2 * n) t) _ :=
      keeps_decode ht (Nat.le_refl _)
    exact hover.symm.trans hover
  obtain ⟨-, hpaced⟩ := hkeeps (r.cursor.remaining + 1) r hc hr (Nat.lt_succ_self _)
  exact {
    unfolds := decode_unfolds ht hc hr
    bounded := fun depth hdepth bottom =>
      (keeps_decode (n := r.cursor.remaining + 1) ht hdepth r hc hr (Nat.lt_succ_self _)).1
    bases := fun k fuel hnests hfuel value => hnests.decodeFieldList_eq hfuel value
    ends := by
      intro e r' he
      rw [he] at hpaced
      exact hpaced.2
    onward := by
      cases hx : decode Γ t r with
      | ok v r' =>
          rw [hx] at hpaced
          rw [stateAfter_of_ok hx]
          exact hpaced.1
      | error e r' =>
          rw [hx] at hpaced
          rw [stateAfter_of_error hx]
          exact hpaced.1
    takes := by
      intro v r' hv
      rw [hv] at hpaced
      exact hpaced.2
    attempts := Reader.Keeps.attempts_le hkeeps hc hr
    counts := fun count hcount =>
      Reader.Keeps.times_eq hkeeps hc hr hcount (Nat.lt_succ_self _) }

namespace Sample

theorem paced_blob (c : Context) : Codec.blob.Paced c := by
  intro r hc hr
  have hkeeps : Reader.Keeps c (r.cursor.remaining + 1) 1 Codec.blob.read Codec.blob.read :=
    Reader.Keeps.blob.bind fun bytes => .pure _
  exact (hkeeps r hc hr (Nat.lt_succ_self _)).2

theorem paced_parcels (c : Context) (p : Part) : parcels.Paced c p := by
  refine Schema.Paced.of_all (fun p codec hcodec => ?_) p
  obtain rfl := Schema.eq_of_partCodec? derived_parcels rfl hcodec
  exact paced_blob c

/-- A stream that announces more nodes than it has bytes. -/
def flood : InStream := .ofBytes tracked (packed [0xdd, 0xff, 0xff, 0xff, 0xff, 0x92, 0x07]) 0 none

end Sample

/-- Nodes that point to nodes are read with progress, whatever count is announced, and so is a
parcel with a field that comes with a reader of its own. -/
theorem progresses_nodes :
    Sample.links.Progresses (.vec (.shared Sample.node)) Sample.flood ∧
    Sample.parcels.Paced Sample.parcelTracked (.whole Sample.parcel) ∧
    Sample.wideStream.cursor.pos ≤ Sample.wideStream.cursor.size ∧
    Sample.parcels.Progresses Sample.parcel Sample.wideStream :=
  ⟨(Schema.Paced.of_derived Sample.derived_graphs Sample.tracked _).progresses rfl (Nat.zero_le _),
    Sample.paced_parcels _ _, Nat.zero_le _,
    Schema.Paced.progresses (Sample.paced_parcels Sample.parcelTracked _) rfl (Nat.zero_le _)⟩

end ObjectStream
