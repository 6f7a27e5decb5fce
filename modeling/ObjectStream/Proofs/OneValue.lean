import Mathlib.Logic.Relation
import ObjectStream.Proofs.Counting
import ObjectStream.Proofs.Reading
import ObjectStream.Proofs.Still

/-!
# Every type goes over one value

Whatever a type is made of, its reader and its writer go over exactly one value
of the format: the announced numbers of elements are those of the things read and
written. So a value can be skipped wherever it can be read, and wherever it was
written, without knowledge of its type. This needs that the writers and readers
that come with the types and fields inside go over one value each; one that goes
over none, or over two, would throw the count off.
-/

namespace ObjectStream

/-- The codec goes over one value, in reading and in writing. -/
structure Codec.OneValue (codec : Codec) (c : Context) : Prop where
  reads : ∀ r v r', r.context = c → codec.read r = .ok v r' → r'.context = c ∧
    Reader.skip r = .ok () { r with cursor := r'.cursor }
  writes : ∀ v s s', s.context = c → codec.write v s = .ok () s' → s'.context = c ∧
    ∃ bytes, s'.sink = s.sink.append (packed bytes) ∧ Reader.Takes c Reader.skip bytes ()

theorem Codec.OneValue.of_counts {codec : Codec} {c : Context}
    (hread : Reader.Counts c 1 codec.read fun _ => 0)
    (hwrite : ∀ v, Writer.Counts c 1 (codec.write v) 0) : codec.OneValue c where
  reads := fun r v r' hc hr => ⟨(hread r v r' hc hr).1, hread.skip hc hr⟩
  writes := by
    intro v s s' hc hs
    obtain ⟨hcontext, bytes, hsink, hpasses⟩ := hwrite v s () s' hc hs
    exact ⟨hcontext, bytes, hsink, Reader.Takes.skip_iff.2 hpasses⟩

/-- Raw bytes are one value. -/
theorem Codec.oneValue_blob (c : Context) : Codec.blob.OneValue c := by
  apply OneValue.of_counts
  · exact (Reader.Counts.agrees Reader.Agrees.blob).bind fun bytes => .pure _
  · intro v
    simp only [Codec.blob]
    split
    · exact .blob _
    · exact .throw _

namespace Schema

/-- A part and the parts that it is immediately made of. Behind a pointer is whatever type the
registry lets be there, in writing or in reading. -/
inductive Component (Γ : Schema) (c : Context) : Part → Part → Prop
  | ref (t : Ty) : Component Γ c (.whole (.ref t)) (.whole t)
  | member {t : Ty} {k n : Nat} {ps : List Part} {p : Part} : Γ.Members t k n ps → p ∈ ps →
      Component Γ c (.whole t) p
  | entry {name : String} {args : List Ty} {item : Item Ty} {fields : List (MarkedField Ty)}
      {f : MarkedField Ty} : Γ.plan? name = some (item, .struct true fields) → f ∈ fields →
      Component Γ c (.whole (.named name args)) (f.part (arguments item args))
  | field {name : String} {args : List Ty} {item : Item Ty} {asMap : Bool}
      {fields : List (MarkedField Ty)} {f : MarkedField Ty} :
      Γ.plan? name = some (item, .struct asMap fields) → f ∈ fields →
      Component Γ c (.fields (.named name args)) (f.part (arguments item args))
  | variant {name : String} {args : List Ty} {item : Item Ty}
      {fieldss : List (List (MarkedField Ty))} {fields : List (MarkedField Ty)}
      {f : MarkedField Ty} : Γ.plan? name = some (item, .variants fieldss) → fields ∈ fieldss →
      f ∈ fields → Component Γ c (.whole (.named name args)) (f.part (arguments item args))
  | content (t : Ty) : Component Γ c (.whole (.option t)) (.whole t)
  /-- A reference within an option is asked for its target. -/
  | target (t : Ty) : Component Γ c (.whole (.option (.ref t))) (.whole (.option t))
  | written {pointer pointee type : Ty} {tag : TypeTag} :
      pointer = .shared pointee ∨ pointer = .unique pointee → canPoint pointee type = true →
      c.registry.requireTag type = .ok tag → Component Γ c (.whole pointer) (.whole type)
  | read {pointer pointee : Ty} {tag : TypeTag} {upcast : Upcast} :
      pointer = .shared pointee ∨ pointer = .unique pointee →
      c.registry.upcast? tag pointee = some upcast →
      Component Γ c (.whole pointer) (.whole upcast.source)

/-- What comes with a writer and a reader of its own inside of a part goes over one value, and no
struct inside is a base of itself. -/
structure OneValued (Γ : Schema) (c : Context) (p : Part) : Prop where
  codecs : ∀ q codec, Relation.ReflTransGen (Γ.Component c) p q → Γ.partCodec? q = some codec →
    codec.OneValue c
  bases : ∀ name args item fields,
    Relation.ReflTransGen (Γ.Component c) p (.whole (.named name args)) →
    Γ.plan? name = some (item, .struct false fields) → Γ.Nests baseDepth (.named name args)

def partCount (Γ : Schema) (fuel : Nat) : Part → Nat
  | .fields t => Γ.readFields fuel t
  | _ => 1

variable {Γ : Schema} {c : Context} {p q : Part} {m : Nat}

/-- Codecs that go over one value each, and no struct that is a base of itself, are enough. -/
theorem OneValued.of_all (hcodecs : ∀ p codec, Γ.partCodec? p = some codec → codec.OneValue c)
    (hbases : ∀ name args item fields, Γ.plan? name = some (item, .struct false fields) →
      Γ.Nests baseDepth (.named name args)) (p : Part) : Γ.OneValued c p where
  codecs := fun q codec _ hcodec => hcodecs q codec hcodec
  bases := fun name args item fields _ hplan => hbases name args item fields hplan

theorem OneValued.component (h : Γ.OneValued c p) (hq : Γ.Component c p q) : Γ.OneValued c q where
  codecs := fun q' codec hq' => h.codecs q' codec (.head hq hq')
  bases := fun name args item fields hq' => h.bases name args item fields (.head hq hq')

theorem OneValued.codec (h : Γ.OneValued c p) {codec : Codec}
    (hcodec : Γ.partCodec? p = some codec) : codec.OneValue c :=
  h.codecs p codec .refl hcodec

theorem OneValued.nests (h : Γ.OneValued c p) {name : String} {args : List Ty} {item : Item Ty}
    {fields : List (MarkedField Ty)} (hp : p = .whole (.named name args))
    (hplan : Γ.plan? name = some (item, .struct false fields)) :
    Γ.Nests baseDepth (.named name args) := by
  subst hp
  exact h.bases name args item fields .refl hplan

theorem OneValued.deref {t : Ty} (h : Γ.OneValued c (.whole t)) :
    Γ.OneValued c (.whole t.deref) := by
  fun_induction Ty.deref t with
  | case1 t ih => exact ih (h.component (.ref t))
  | case2 t => exact h

theorem OneValued.asked (h : Γ.OneValued c p) (v : Value) : Γ.OneValued c (p.asked v) := by
  cases p with
  | fields t | rule path t => exact h
  | whole t =>
      have htarget (u : Ty) (hu : Γ.OneValued c (.whole (.option u))) :
          Γ.OneValued c (.whole (.option u.deref)) := by
        fun_induction Ty.deref u with
        | case1 u ih => exact ih (hu.component (.target u))
        | case2 u => exact hu
      have hderef : Γ.OneValued c (.whole t.deref) := h.deref
      cases v with
      | present v =>
          rw [Part.asked, Ty.asked]
          split
          · next inner hinner => exact htarget inner (hinner ▸ hderef)
          · exact hderef
      | _ => exact hderef

/-! ## Numbers of values -/

theorem readFields_struct {name : String} {args : List Ty} {item : Item Ty} {asMap : Bool}
    {fields : List (MarkedField Ty)} (fuel : Nat)
    (hplan : Γ.plan? name = some (item, .struct asMap fields)) :
    Γ.readFields (fuel + 1) (.named name args) =
      ((fields.map (MarkedField.part (arguments item args))).map (Γ.partCount fuel)).sum := by
  rw [readFields]
  simp only [reader?_of_plan hplan, Item.readerOf, List.map_map]
  rw [List.sum_eq_foldr]
  congr 1
  apply List.map_congr_left
  intro f _
  simp only [Function.comp_apply, MarkedField.readCount, MarkedField.part, MarkedField.writer]
  cases f.marks.base with
  | true => rfl
  | false =>
      cases f.marks.rule with
      | none => rfl
      | some path => rfl

/-- Parts that are not the fields of a base are as many values as there are parts. -/
theorem sum_partCount {fuel : Nat} {ps : List Part} (h : ∀ p ∈ ps, Γ.partCount fuel p = 1) :
    (ps.map (Γ.partCount fuel)).sum = ps.length := by
  rw [List.map_congr_left h, List.map_const', List.sum_replicate_nat, Nat.mul_one]

theorem partCount_of_hasBase {fields : List (MarkedField Ty)} (h : hasBase fields = false)
    (σ : List (String × Ty)) (fuel : Nat) :
    ∀ p ∈ fields.map (MarkedField.part σ), Γ.partCount fuel p = 1 := by
  intro p hp
  obtain ⟨f, hf, rfl⟩ := List.mem_map.1 hp
  have hbase : f.marks.base = false := by
    by_contra htrue
    have hany : hasBase fields = true := List.any_eq_true.2 ⟨f, hf, by simpa using htrue⟩
    rw [h] at hany
    cases hany
  simp only [MarkedField.part, MarkedField.writer, hbase]
  cases f.marks.rule with
  | none => rfl
  | some path => rfl

theorem partCount_replicate (fuel n : Nat) (t : Ty) :
    ((List.replicate n (Part.whole t)).map (Γ.partCount fuel)).sum = n := by
  rw [sum_partCount fun p hp => by rw [List.eq_of_mem_replicate hp]; rfl, List.length_replicate]

end Schema

/-! ## Reading -/

section Reading

open Reader Schema

variable {Γ : Schema} {c : Context} {m : Nat} {value : Ty → Reader Value}

theorem Codec.OneValue.counts_read {codec : Codec} (h : codec.OneValue c) :
    Reader.Counts c (m + 1) codec.read fun _ => m :=
  .skipped h.reads

/-- A part is read as the number of values that it is, if the whole values in it are. -/
theorem counts_readPart (fuel : Nat) {p : Part} (hp : Γ.OneValued c p)
    (hvalue : ∀ t, Γ.OneValued c (.whole t) → ∀ m, Reader.Counts c (m + 1) (value t) fun _ => m) :
    Reader.Counts c (m + Γ.partCount fuel p) (Γ.readPart value fuel p) fun _ => m := by
  induction fuel using Nat.strongRecOn generalizing p m with
  | ind fuel ih =>
      cases p with
      | whole t => exact hvalue t hp m
      | rule path t =>
          rw [readPart]
          cases hrule : Γ.rule? path with
          | none => exact .throw _
          | some codec => exact (hp.codec hrule).counts_read
      | fields t =>
          rw [readPart]
          rcases decodeFieldList_cases Γ fuel t with
            ⟨less, name, args, item, asMap, fields, rfl, rfl, hplan⟩ | hrefused
          · rw [decodeFieldList_struct value less hplan, partCount, readFields_struct less hplan]
            refine .map _ (.each fun q hq m => ih less (Nat.lt_succ_self less) ?_)
            obtain ⟨f, hf, rfl⟩ := List.mem_map.1 hq
            exact hp.component (.field hplan hf)
          · rw [hrefused]
            exact .throw _

/-- Each entry of a map-framed struct is two values, its key and its content. -/
theorem counts_decodeEntries (struct : String) {fields : List (MarkedField Ty)}
    {σ : List (String × Ty)} (fuel : Nat) (hbase : hasBase fields = false)
    (hfields : ∀ f ∈ fields, Γ.OneValued c (f.part σ))
    (hvalue : ∀ t, Γ.OneValued c (.whole t) → ∀ m, Reader.Counts c (m + 1) (value t) fun _ => m)
    (n : Nat) (slots : List (Option Value)) :
    Reader.Counts c (m + 2 * n) (decodeEntries struct (fields.map MarkedField.holder)
      (decodeField Γ value (decodeFieldList Γ value fuel) σ) n slots) fun _ => m := by
  induction n generalizing slots with
  | zero => exact .pure slots
  | succ n ih =>
      rw [decodeEntries]
      refine (Counts.agrees (m := m + 2 * n + 1) Agrees.str).bind fun key => ?_
      split
      · next i holder _ hholder =>
          obtain ⟨f, hf, rfl⟩ := List.mem_map.1 (List.mem_of_find?_eq_some hholder)
          have hpart := counts_readPart (m := m + 2 * n) fuel (hfields f hf) hvalue
          rw [partCount_of_hasBase hbase σ fuel _ (List.mem_map_of_mem hf),
            ← decodeField_eq] at hpart
          exact hpart.bind fun v => ih _
      · exact .throw _

theorem counts_times {α : Type} {x : Reader α}
    (h : ∀ m, Reader.Counts c (m + 1) x fun _ => m) (n : Nat) :
    Reader.Counts c (m + n) (times n x) fun _ => m := by
  have honto (done : List α) : Reader.Counts c (m + n) (repeatOnto x n done) fun _ => m := by
    induction n generalizing done with
    | zero => exact .pure done.reverse
    | succ n ih => exact (h (m + n)).bind fun a => ih (a :: done)
  exact honto []

theorem counts_decodeVec {α : Type} {x : Reader α}
    (h : ∀ m, Reader.Counts c (m + 1) x fun _ => m) :
    Reader.Counts c (m + 1) (decodeVec x) fun _ => m :=
  (Counts.agrees Agrees.arrayHeader).bind (counts_times h)

theorem counts_pair {key content : Reader Value}
    (hkey : ∀ m, Reader.Counts c (m + 1) key fun _ => m)
    (hcontent : ∀ m, Reader.Counts c (m + 1) content fun _ => m) :
    Reader.Counts c (m + 1) (pair key content) fun _ => m :=
  (Counts.agrees (Agrees.arrayHeaderOf 2)).bind fun _ => (hkey (m + 1)).bind fun k =>
    (hcontent m).bind fun v => .pure (k, v)

/-- The content of an option is one value, or nil in its place. -/
theorem counts_nilOr {y : Reader Value} (h : Reader.Counts c (m + 1) y fun _ => m) :
    Reader.Counts c (m + 1) (nilOr y) fun _ => m := by
  have hpeek : Stays Reader.peek := fun r code r' hr => (peek_ok hr).1
  refine (Counts.idle hpeek.idle).bind fun code => .ite (fun _ => ?_) fun _ => ?_
  · exact (Counts.agrees Agrees.nil).bind fun _ => .pure _
  · exact h.bind fun v => .pure _

theorem counts_optionOf {y : Reader (Option Value)} (h : Reader.Counts c (m + 1) y fun _ => m) :
    Reader.Counts c (m + 1) (optionOf y) fun _ => m := by
  refine h.bind fun v? => ?_
  cases v? with
  | none => exact .pure _
  | some v => exact .pure _

theorem counts_required {fault : TypeFault} {y : Reader (Option Value)}
    (h : Reader.Counts c (m + 1) y fun _ => m) :
    Reader.Counts c (m + 1) (required fault y) fun _ => m := by
  refine h.bind fun v? => ?_
  cases v? with
  | none => exact .throw _
  | some v => exact .pure _

theorem counts_decodeOptional {t : Ty} (ht : Γ.OneValued c (.whole t))
    (hvalue : ∀ t, Γ.OneValued c (.whole t) → ∀ m, Reader.Counts c (m + 1) (value t) fun _ => m) :
    Reader.Counts c (m + 1) (decodeOptional value t) fun _ => m := by
  cases t with
  | option t =>
      refine counts_nilOr ?_
      exact (Counts.agrees (Agrees.arrayHeaderOf 1)).bind fun _ => hvalue _ ht m
  | shared pointee =>
      refine counts_optionOf (.shared fun tag upcast hup => hvalue _ ?_)
      exact ht.component (.read (.inl rfl) hup)
  | unique pointee =>
      refine counts_optionOf (.unique fun tag upcast hup => hvalue _ ?_)
      exact ht.component (.read (.inr rfl) hup)
  | _ => exact counts_nilOr (hvalue _ ht m)

theorem counts_errorCode : Reader.Counts c (m + 1) Reader.errorCode fun _ => m := by
  have hheader := Counts.agrees (c := c) (m := m) (Agrees.arrayHeaderOf 2)
  have hplace := Counts.agrees (c := c) (m := m + 1) (Agrees.unsigned .w32)
  have hvalue := Counts.agrees (c := c) (m := m) (Agrees.signed .w32)
  refine hheader.bind fun _ => hplace.bind fun place => hvalue.bind fun value => .context ?_
  split
  · exact .pure _
  · exact .throw _

section Derived

variable {name : String} {args : List Ty} {item : Item Ty}

/-- A struct goes over one value: its header announces its fields, those of its bases among them. -/
theorem counts_struct {asMap : Bool} {fields : List (MarkedField Ty)}
    (ht : Γ.OneValued c (.whole (.named name args)))
    (hplan : Γ.plan? name = some (item, .struct asMap fields))
    (hvalue : ∀ t, Γ.OneValued c (.whole t) → ∀ m, Reader.Counts c (m + 1) (value t) fun _ => m) :
    Reader.Counts c (m + 1) (decodeStep Γ value (.named name args)) fun _ => m := by
  rw [decodeStep_struct value hplan]
  cases asMap with
  | true =>
      rw [if_pos rfl]
      have hbase := Item.hasBase_of_plan (plan_of_plan? hplan)
      have hfields (f : MarkedField Ty) (hf : f ∈ fields) :
          Γ.OneValued c (f.part (arguments item args)) := ht.component (.entry hplan hf)
      have htake (slots : List (Option Value)) :
          Stays (takeSlots item.name.name (fields.map MarkedField.held) slots) := by
        intro r ws r' hr
        rcases takeSlots_stays item.name.name (fields.map MarkedField.held) slots r with
          ⟨ws', hok⟩ | ⟨e, herror⟩
        · rw [hok] at hr
          cases hr
          rfl
        · rw [herror] at hr
          cases hr
      refine (Counts.agrees Agrees.mapHeader).bind fun count => .ite (fun _ => ?_) fun _ => .throw _
      exact (counts_decodeEntries _ baseDepth hbase hfields hvalue count _).bind fun slots =>
        (Counts.idle (htake slots).idle).map _
  | false =>
      rw [if_neg Bool.false_ne_true]
      refine (Counts.agrees Agrees.arrayHeader).bind fun count => .ite ?_ fun _ => .throw _
      rintro rfl
      obtain ⟨fuel, hfuel⟩ := exists_baseDepth
      rw [readFieldCount, hfuel, decodeFieldList_struct value fuel hplan, id,
        readFields_struct fuel hplan]
      refine .map _ (.each fun q hq m => counts_readPart fuel ?_ hvalue)
      have hmember : Γ.Members (.named name args) 0 _ _ := .struct 0 hplan
      exact ht.component (.member hmember hq)

/-- An enum goes over one value: its header announces the place of a variant and its fields. -/
theorem counts_variants {fieldss : List (List (MarkedField Ty))}
    (ht : Γ.OneValued c (.whole (.named name args)))
    (hplan : Γ.plan? name = some (item, .variants fieldss))
    (hvalue : ∀ t, Γ.OneValued c (.whole t) → ∀ m, Reader.Counts c (m + 1) (value t) fun _ => m) :
    Reader.Counts c (m + 1) (decodeStep Γ value (.named name args)) fun _ => m := by
  rw [decodeStep_variants value hplan]
  refine (Counts.agrees Agrees.arrayHeader).bind fun len => ?_
  refine .ite (fun _ => .raise _) fun hlen => ?_
  obtain ⟨count, rfl⟩ := Nat.exists_eq_succ_of_ne_zero hlen
  refine (Counts.agrees (m := m + count) (Agrees.unsigned .w32)).bind fun index => ?_
  split
  · next arm harm =>
      refine .ite (fun _ => .raise _) fun hcount => .map _ ?_
      have hvariants := Item.variants_of_plan (plan_of_plan? hplan)
      obtain ⟨v, fields, place, hfields, hmarked, rfl⟩ :=
        Item.exists_variant hvariants (List.mem_of_find?_eq_some harm)
      obtain ⟨hassembled, hbase⟩ := Item.marked_of_variant hmarked
      have hlen : count = fields.length := by simpa [Item.readArmOf] using hcount
      have hsum := sum_partCount
        (partCount_of_hasBase (Γ := Γ) hbase (arguments item args) baseDepth)
      rw [List.length_map, ← hlen] at hsum
      rw [Item.readArmOf, Item.parts_assemble hassembled, Reader.each_fields, ← hsum]
      refine .each fun q hq m => counts_readPart baseDepth ?_ hvalue
      obtain ⟨f, hf, rfl⟩ := List.mem_map.1 hq
      exact ht.component (.variant hplan hfields hf)
  · exact .throw _

/-- A derived type goes over one value by its generated reader. -/
theorem counts_derived {plan : Plan Ty} (ht : Γ.OneValued c (.whole (.named name args)))
    (hplan : Γ.plan? name = some (item, plan))
    (hvalue : ∀ t, Γ.OneValued c (.whole t) → ∀ m, Reader.Counts c (m + 1) (value t) fun _ => m) :
    Reader.Counts c (m + 1) (decodeStep Γ value (.named name args)) fun _ => m := by
  cases plan with
  | struct asMap fields => exact counts_struct ht hplan hvalue
  | bare =>
      rw [decodeStep_bare value hplan]
      refine (Counts.agrees (Agrees.signed .w64)).bind fun number => ?_
      split
      · exact .pure _
      · exact .throw _
  | variants fieldss => exact counts_variants ht hplan hvalue

end Derived

theorem counts_decodeStep {t : Ty} (ht : Γ.OneValued c (.whole t))
    (hvalue : ∀ t, Γ.OneValued c (.whole t) → ∀ m, Reader.Counts c (m + 1) (value t) fun _ => m) :
    Reader.Counts c (m + 1) (decodeStep Γ value t) fun _ => m := by
  induction t using Ty.tuple_induction generalizing m with
  | tuple ts ih =>
      have hsum : ts.length = (ts.map fun _ => 1).sum := by
        rw [List.map_const', List.sum_replicate_nat, Nat.mul_one]
      have hparts : Reader.Counts c (m + ts.length) (each (decodeStep Γ value) ts) fun _ => m := by
        rw [hsum]
        refine .each fun t ht' m => ih t ht' (ht.component ?_)
        exact .member (.tuple ts) (List.mem_map_of_mem ht')
      rw [decodeStep_tuple]
      exact (Counts.agrees (Agrees.arrayHeaderOf ts.length)).bind fun _ => hparts.map _
  | other t htuple =>
    cases hcodec : Γ.codec? t with
    | some codec =>
      have hpart : Γ.partCodec? (.whole t) = some codec := by
        cases t <;> first | exact hcodec | cases hcodec
      rw [decodeStep_custom value hcodec]
      exact (ht.codec hpart).counts_read
    | none =>
      cases t with
      | scalar s => exact Counts.map _ (.agrees (Agrees.scalar s))
      | errorCode => exact counts_errorCode.map _
      | tuple ts => exact absurd rfl (htuple ts)
      | array e n =>
          rw [decodeStep_array]
          refine (Counts.agrees (Agrees.arrayHeaderOf n)).bind fun _ => .map _ ?_
          rcases n with _ | n
          · exact .pure []
          · have he : Γ.OneValued c (.whole e) :=
              ht.component (.member (.array e (n + 1)) List.mem_cons_self)
            exact counts_times (hvalue e he) (n + 1)
      | seq kind e =>
          have he : Γ.OneValued c (.whole e) :=
            ht.component (.member (.seq kind e 1) List.mem_cons_self)
          by_cases hkind : kind = .slice
          · subst hkind
            exact .throw _
          · rw [decodeStep_seq value hkind]
            exact (counts_decodeVec (hvalue e he)).map _
      | set kind e =>
          have he : Γ.OneValued c (.whole e) :=
            ht.component (.member (.set kind e 1) List.mem_cons_self)
          rw [decodeStep_set]
          exact (counts_decodeVec (hvalue e he)).map _
      | map kind k u =>
          have hentry : Γ.OneValued c (.whole (.tuple [k, u])) :=
            ht.component (.member (.map kind k u 1) List.mem_cons_self)
          have hmember {t : Ty} (h : t ∈ [k, u]) : Γ.OneValued c (.whole t) :=
            hentry.component (.member (.tuple [k, u]) (List.mem_map_of_mem h))
          rw [decodeStep_map]
          refine (counts_decodeVec fun m => ?_).map _
          exact counts_pair (hvalue k (hmember (by simp))) (hvalue u (hmember (by simp)))
      | option t =>
          rw [decodeStep_option value hcodec]
          exact counts_decodeOptional (ht.component (.content t)) hvalue
      | shared pointee =>
          refine counts_required (.shared fun tag upcast hup => hvalue _ ?_)
          exact ht.component (.read (.inl rfl) hup)
      | unique pointee =>
          refine counts_required (.unique fun tag upcast hup => hvalue _ ?_)
          exact ht.component (.read (.inr rfl) hup)
      | named name args =>
          cases hplan : Γ.plan? name with
          | none =>
              rw [decodeStep_of_no_plan value hcodec hplan]
              exact .throw _
          | some found => exact counts_derived ht hplan hvalue
      | ref t | dyn name | param name => exact .throw _

/-- The reader of a type goes over one value, in whatever form it finds it. -/
theorem counts_decodeWithin (depth : Nat) {t : Ty} (ht : Γ.OneValued c (.whole t)) (m : Nat) :
    Reader.Counts c (m + 1) (decodeWithin Γ depth t) fun _ => m := by
  induction depth generalizing t m with
  | zero => exact .throw _
  | succ depth ih => exact counts_decodeStep ht fun t ht m => ih ht m

theorem counts_decode {t : Ty} (ht : Γ.OneValued c (.whole t)) :
    Reader.Counts c (m + 1) (decode Γ t) fun _ => m := by
  have hremaining : Stays Reader.remaining := by
    intro r n r' hr
    cases hr
    rfl
  exact (Counts.idle hremaining.idle).bind fun n => counts_decodeWithin (depthBound n) ht m

end Reading

/-! ## Writing -/

section Writing

open Schema

variable {Γ : Schema} {c : Context} {m : Nat}

theorem Codec.OneValue.counts_write {codec : Codec} (h : codec.OneValue c) (v : Value) :
    Writer.Counts c (m + 1) (codec.write v) m := by
  intro s a s' hc hx
  obtain ⟨hcontext, bytes, hsink, htakes⟩ := h.writes v s s' hc hx
  have hpasses := (Reader.Takes.skip_iff.1 htakes).add m
  rw [Nat.add_comm, Nat.zero_add] at hpasses
  exact ⟨hcontext, bytes, hsink, hpasses⟩

theorem counts_writeParts {fuel : Nat} {ps : List Part} {vs : List Value}
    (h : ∀ v ∈ vs, ∀ p ∈ ps, ∀ m, Writer.Counts c (m + Γ.partCount fuel p) (Γ.writePart p v) m) :
    Writer.Counts c (m + (ps.map (Γ.partCount fuel)).sum) (Γ.writeParts ps vs) m := by
  induction ps generalizing vs with
  | nil =>
      cases vs with
      | nil => exact .still fun _ _ _ hs => by cases hs; rfl
      | cons v vs => exact .throw _
  | cons p ps ih =>
      cases vs with
      | nil => exact .throw _
      | cons v vs =>
          rw [List.map_cons, List.sum_cons, Nat.add_comm (Γ.partCount fuel p), ← Nat.add_assoc]
          refine (h v List.mem_cons_self p List.mem_cons_self _).bind fun _ => ih ?_
          exact fun w hw q hq => h w (List.mem_cons_of_mem _ hw) q (List.mem_cons_of_mem _ hq)

/-- Each entry is two values. -/
theorem counts_writeEntries {ps : List (String × Part)} {vs : List Value}
    (h : ∀ v ∈ vs, ∀ p ∈ ps, ∀ m, Writer.Counts c (m + 1) (Γ.writePart p.2 v) m) :
    Writer.Counts c (m + 2 * ps.length) (Γ.writeEntries ps vs) m := by
  induction ps generalizing vs with
  | nil =>
      cases vs with
      | nil => exact .still fun _ _ _ hs => by cases hs; rfl
      | cons v vs => exact .throw _
  | cons p ps ih =>
      cases vs with
      | nil => exact .throw _
      | cons v vs =>
          refine (Writer.Counts.str (m := m + 2 * ps.length + 1) p.1).bind fun _ =>
            (h v List.mem_cons_self p List.mem_cons_self _).bind fun _ => ih fun w hw q hq => ?_
          exact h w (List.mem_cons_of_mem _ hw) q (List.mem_cons_of_mem _ hq)

/-- What an array header announces are the parts behind it. -/
theorem Schema.Members.counted {t : Ty} {k n : Nat} {ps : List Part} (h : Γ.Members t k n ps)
    (ht : Γ.OneValued c (.whole t)) :
    ∃ fuel, (ps.map (Γ.partCount fuel)).sum = n ∧ ∀ p ∈ ps, Γ.PartNests fuel p := by
  have hwhole (e : Ty) (n : Nat) : ∀ p ∈ List.replicate n (Part.whole e), Γ.PartNests 0 p := by
    intro p hp
    rw [List.eq_of_mem_replicate hp]
    trivial
  cases h with
  | tuple ts =>
      refine ⟨0, ?_, fun p hp => ?_⟩
      · rw [sum_partCount, List.length_map]
        intro p hp
        obtain ⟨t, _, rfl⟩ := List.mem_map.1 hp
        rfl
      · obtain ⟨t, _, rfl⟩ := List.mem_map.1 hp
        trivial
  | array e n | seq kind e n | set kind e n => exact ⟨0, partCount_replicate 0 _ e, hwhole e _⟩
  | map kind k u n => exact ⟨0, partCount_replicate 0 _ _, hwhole _ _⟩
  | struct k hplan =>
      obtain ⟨fuel, hfuel⟩ := exists_baseDepth
      have hnests := ht.nests rfl hplan
      rw [hfuel] at hnests
      refine ⟨fuel, ?_, fun p hp => partNests_of_nests hplan hnests hp⟩
      rw [writtenFieldCount_eq, readFieldCount, hfuel, readFields_struct fuel hplan]

section Elements

variable {vs : List Value}

/-- Elements behind their header are one value, if each of them is written as what it is. -/
theorem counts_writeMembers {t : Ty} {k n : Nat} {ps : List Part} (hmembers : Γ.Members t k n ps)
    (ht : Γ.OneValued c (.whole t))
    (h : ∀ w ∈ vs, ∀ q fuel, Γ.OneValued c q → Γ.PartNests fuel q → ∀ m,
      Writer.Counts c (m + Γ.partCount fuel q) (Γ.writePart q w) m) :
    Writer.Counts c (m + 1) (do Writer.arrayHeader n; Γ.writeParts ps vs) m := by
  obtain ⟨fuel, hsum, hparts⟩ := hmembers.counted ht
  refine (Writer.Counts.arrayHeader n).bind fun _ => ?_
  rw [← hsum]
  exact counts_writeParts fun w hw q hq =>
    h w hw q fuel (ht.component (.member hmembers hq)) (hparts q hq)

variable {name : String} {args : List Ty} {item : Item Ty} {fields : List (MarkedField Ty)}

/-- The entries of a map-framed struct behind their header are one value. -/
theorem counts_writeMap (hplan : Γ.plan? name = some (item, .struct true fields))
    (ht : Γ.OneValued c (.whole (.named name args)))
    (h : ∀ w ∈ vs, ∀ q fuel, Γ.OneValued c q → Γ.PartNests fuel q → ∀ m,
      Writer.Counts c (m + Γ.partCount fuel q) (Γ.writePart q w) m) :
    Writer.Counts c (m + 1) (do
      Writer.mapHeader fields.length
      Γ.writeEntries (fields.map (entry (arguments item args))) vs) m := by
  have hbase := Item.hasBase_of_plan (plan_of_plan? hplan)
  have hentry : ∀ w ∈ vs, ∀ q ∈ fields.map (entry (arguments item args)), ∀ m,
      Writer.Counts c (m + 1) (Γ.writePart q.2 w) m := by
    intro w hw q hq m
    obtain ⟨f, hf, rfl⟩ := List.mem_map.1 hq
    have hpart := List.mem_map_of_mem (f := MarkedField.part (arguments item args)) hf
    have hcount := partCount_of_hasBase (Γ := Γ) hbase (arguments item args) 0 _ hpart
    have hone := h w hw _ 0 (ht.component (.entry hplan hf)) (partNests_of_hasBase hbase 0 hpart) m
    rwa [hcount] at hone
  have hentries := counts_writeEntries hentry (m := m)
  rw [List.length_map] at hentries
  exact (Writer.Counts.mapHeader fields.length).bind fun _ => hentries

/-- The place of a variant and its fields behind their header are one value. -/
theorem counts_writeVariant {fieldss : List (List (MarkedField Ty))} {index : Nat}
    (hplan : Γ.plan? name = some (item, .variants fieldss))
    (hfields : fieldss[index]? = some fields)
    (ht : Γ.OneValued c (.whole (.named name args)))
    (h : ∀ w ∈ vs, ∀ q fuel, Γ.OneValued c q → Γ.PartNests fuel q → ∀ m,
      Writer.Counts c (m + Γ.partCount fuel q) (Γ.writePart q w) m) :
    Writer.Counts c (m + 1) (do
      Writer.arrayHeader (1 + fields.length)
      Writer.uint index
      Γ.writeParts (fields.map (MarkedField.part (arguments item args))) vs) m := by
  obtain ⟨v, -, hmarked⟩ := exists_variantFields hplan hfields
  obtain ⟨-, hbase⟩ := Item.marked_of_variant hmarked
  have hsum := sum_partCount (partCount_of_hasBase (Γ := Γ) hbase (arguments item args) 0)
  rw [List.length_map] at hsum
  refine (Writer.Counts.arrayHeader _).bind fun _ => ?_
  rw [Nat.add_comm 1, ← Nat.add_assoc, ← hsum]
  refine (Writer.Counts.uint _).bind fun _ => counts_writeParts fun w hw q hq => ?_
  obtain ⟨f, hf, hpart⟩ := List.mem_map.1 hq
  have hq' := ht.component (.variant hplan (List.mem_of_getElem? hfields) hf)
  rw [hpart] at hq'
  exact h w hw q 0 hq' (partNests_of_hasBase hbase 0 hq)

end Elements

/-- A part is written as the number of values that it is. -/
theorem counts_writePart {p : Part} (v : Value) (fuel : Nat) (hp : Γ.OneValued c p)
    (hnests : Γ.PartNests fuel p) (m : Nat) :
    Writer.Counts c (m + Γ.partCount fuel p) (Γ.writePart p v) m := by
  have hlayout := Γ.layout p v
  generalize Γ.writePart p v = x at hlayout
  cases hlayout with
  | refused _ _ e => exact .throw e
  | @codec p codec _ hcodec =>
      cases p with
      | whole t | rule path t => exact ((hp.asked v).codec hcodec).counts_write v
      | fields t => cases hcodec
  | scalar d _ => exact .scalar _ d
  | errorCode code _ => exact .errorCode code
  | @array t n ps vs hmembers =>
      refine counts_writeMembers hmembers hp.deref fun w hw q fuel hq hnests m => ?_
      have hsize := List.sizeOf_lt_of_mem hw
      exact counts_writePart w fuel hq hnests m
  | @map t name args item fields vs ht hplan =>
      refine counts_writeMap hplan (ht ▸ hp.deref) fun w hw q fuel hq hnests m => ?_
      have hsize := List.sizeOf_lt_of_mem hw
      exact counts_writePart w fuel hq hnests m
  | @fields name args item asMap fields vs hplan =>
      cases fuel with
      | zero => exact hnests.elim
      | succ fuel =>
          rw [partCount, readFields_struct fuel hplan]
          refine counts_writeParts fun w hw q hq m => ?_
          have hsize := List.sizeOf_lt_of_mem hw
          have hq' := hq
          obtain ⟨f, hf, rfl⟩ := List.mem_map.1 hq'
          exact counts_writePart w fuel (hp.component (.field hplan hf))
            (partNests_of_nests hplan hnests hq) m
  | absent _ => exact .absent _
  | @present t inner w ht =>
      have hinner : Γ.OneValued c (.whole inner) := (ht ▸ hp.deref).component (.content inner)
      have hw := counts_writePart w 0 hinner trivial
      by_cases hoption : inner.deref.isOption = true
      · rw [if_pos hoption]
        exact (Writer.Counts.arrayHeader 1).bind fun _ => hw m
      · rw [if_neg hoption]
        exact hw m
  | discriminant _ _ d _ _ => exact .int _
  | @variant t name args item fieldss fields index vs ht hplan hfields =>
      refine counts_writeVariant hplan hfields (ht ▸ hp.deref) fun w hw q fuel hq hnests m => ?_
      have hsize := List.sizeOf_lt_of_mem hw
      exact counts_writePart w fuel hq hnests m
  | @shared t pointee type id body ht hpoint =>
      refine .shared fun tag htag => ?_
      have hbody := (ht ▸ hp.deref).component (.written (.inl rfl) hpoint htag)
      exact counts_writePart body 0 hbody trivial m
  | @unique t pointee type body ht hpoint =>
      refine .unique fun tag htag => ?_
      have hbody := (ht ▸ hp.deref).component (.written (.inr rfl) hpoint htag)
      exact counts_writePart body 0 hbody trivial m
termination_by sizeOf v

end Writing

/-- What a reader of a type went over is one value to skip, and so is what a writer of the type has
appended, whatever follows. -/
theorem Schema.OneValued.skips {Γ : Schema} {c : Context} {t : Ty} (ht : Γ.OneValued c (.whole t)) :
    (∀ r v r', r.context = c → decode Γ t r = .ok v r' → ∀ r₁ : InStream, r₁.context = c →
      r₁.cursor = r.cursor → Reader.skip r₁ = .ok () { r₁ with cursor := r'.cursor }) ∧
    ∀ v s s', s.context = c → encode Γ t v s = .ok () s' →
      ∃ bytes, s'.sink = s.sink.append (packed bytes) ∧
        ∀ (r : InStream) (suffix : List UInt8), r.context = c → r.rest = bytes ++ suffix →
          ∃ r', Reader.skip r = .ok () r' ∧ r' = r.skip bytes.length ∧ r'.rest = suffix := by
  constructor
  · intro r v r' hc hr r₁ hc₁ hcursor
    obtain ⟨-, bytes, tail, hrest, hcursor', hpasses⟩ := counts_decode ht r v r' hc hr
    have hrest₁ : r₁.rest = bytes ++ tail := by
      rw [← hrest, InStream.rest, hcursor, InStream.rest]
    rw [Reader.Takes.skip_iff.2 hpasses r₁ tail hc₁ hrest₁, hcursor', ← hcursor]
    rfl
  · intro v s s' hc hs
    have hcounts := counts_writePart v 0 ht trivial 0
    rw [Nat.zero_add] at hcounts
    obtain ⟨-, bytes, hsink, hpasses⟩ := hcounts s () s' hc hs
    refine ⟨bytes, hsink, fun r suffix hrc hrest => ?_⟩
    exact ⟨_, Reader.Takes.skip_iff.2 hpasses r suffix hrc hrest, rfl,
      InStream.rest_skip_append hrest⟩

/-! ## Parcels -/

namespace Sample

def parcel : Ty := type "Parcel"

def parcels : Schema where
  types := [
    struct "Header" (.named [field "id" .u32, field "version" .u8]),
    struct "Parcel" (.named [marked base "header" (type "Header"),
      marked (withRule Codec.blobPath) "content" (.vec .u8),
      field "next" (.option (.shared parcel))])]
  rules := [(Codec.blobPath, .blob)]

def parcelTracked : Context :=
  { Context.standard with
    dedup := true
    registry := Registry.empty.enter parcel 7 }

def lastParcel : Value :=
  .list [.list [.scalar (.int 2), .scalar (.int 0)], .ofBytes [0xca, 0xfe], .absent]

def firstParcel : Value :=
  .list [.list [.scalar (.int 1), .scalar (.int 0)], .ofBytes [],
    .present (.shared 1 parcel lastParcel)]

/-- The bytes of a parcel without a link, with wider headers and numbers than a writer makes. -/
def wideParcel : List UInt8 :=
  [0xdc, 0, 4, 0xce, 0, 0, 0, 2, 0xcc, 0, 0xc5, 0, 1, 0xca, 0xdc, 0, 2, 0, 0xc0]

def wideStream : InStream := .ofBytes parcelTracked (packed (wideParcel ++ [5])) 0 none

theorem name_of_parcels {name : String} {p : Item Ty × Plan Ty}
    (h : parcels.plan? name = some p) : name = home ++ "::Header" ∨ name = home ++ "::Parcel" := by
  by_contra hname
  rw [not_or] at hname
  have hlookup : parcels.types.lookup name = none := by
    rw [List.lookup_eq_none_iff]
    intro q hq
    simp only [parcels, List.mem_cons, List.not_mem_nil, or_false] at hq
    rcases hq with rfl | rfl
    · exact bne_iff_ne.2 hname.1
    · exact bne_iff_ne.2 hname.2
  simp only [Schema.plan?, Schema.item?, hlookup] at h
  cases h

theorem nests_parcels {name : String} {args : List Ty} {p : Item Ty × Plan Ty}
    (h : parcels.plan? name = some p) (n : Nat) : parcels.Nests (n + 2) (.named name args) := by
  obtain ⟨_, _, _, hheader, hid, hversion⟩ : ∃ item a b,
      parcels.plan? (home ++ "::Header") = some (item, .struct false [a, b]) ∧
        a.marks.base = false ∧ b.marks.base = false :=
    ⟨_, _, _, rfl, rfl, rfl⟩
  obtain ⟨_, _, _, _, hparcel, hcontent, hnext, hbase⟩ : ∃ item a b d,
      parcels.plan? (home ++ "::Parcel") = some (item, .struct false [a, b, d]) ∧
        b.marks.base = false ∧ d.marks.base = false ∧
        ∀ σ, a.type.subst σ = .named (home ++ "::Header") [] :=
    ⟨_, _, _, _, rfl, rfl, rfl, fun σ => rfl⟩
  have hheaders (args : List Ty) (n : Nat) :
      parcels.Nests (n + 1) (.named (home ++ "::Header") args) := by
    simp [Schema.Nests, *]
  rcases name_of_parcels h with rfl | rfl
  · exact hheaders args _
  · simp [Schema.Nests, *]

theorem derived_parcels : ∀ q ∈ parcels.types, ∃ item, q.2 = .derived item := by
  intro q hq
  simp only [parcels, List.mem_cons, List.not_mem_nil, or_false] at hq
  rcases hq with rfl | rfl <;> exact ⟨_, rfl⟩

theorem oneValued_parcels (c : Context) (p : Part) : parcels.OneValued c p := by
  apply Schema.OneValued.of_all
  · intro p codec hcodec
    obtain rfl := Schema.eq_of_partCodec? derived_parcels rfl hcodec
    exact Codec.oneValue_blob c
  · intro name args item fields hplan
    exact nests_parcels hplan (2 ^ 32 - 2)

end Sample

/-- A parcel is skipped where it was read, also in a form that no writer makes, and where it was
written. -/
theorem skips_parcels :
    (∃ v r', decode Sample.parcels Sample.parcel Sample.wideStream = .ok v r' ∧
      r'.cursor.pos = 19 ∧
      Reader.skip Sample.wideStream = .ok () { Sample.wideStream with cursor := r'.cursor }) ∧
    ∃ s' bytes, encode Sample.parcels Sample.parcel Sample.firstParcel
        (.ofSink Sample.parcelTracked .growable none) = .ok () s' ∧
      s'.sink = ByteSink.growable.append (packed bytes) ∧
      ∃ r', Reader.skip (.ofBytes Sample.parcelTracked (packed (bytes ++ [5])) 0 none) =
        .ok () r' ∧ r'.rest = [5] := by
  have hskips := Schema.OneValued.skips
    (Sample.oneValued_parcels Sample.parcelTracked (.whole Sample.parcel))
  constructor
  · obtain ⟨v, hr⟩ := ok_of_succeeds (x := decode Sample.parcels Sample.parcel)
      (s := Sample.wideStream) (by decide +kernel)
    exact ⟨v, _, hr, by decide +kernel, hskips.1 _ v _ rfl hr _ rfl rfl⟩
  · obtain ⟨_, hs⟩ := ok_of_succeeds (x := encode Sample.parcels Sample.parcel Sample.firstParcel)
      (s := .ofSink Sample.parcelTracked .growable none) (by decide +kernel)
    obtain ⟨bytes, hsink, hskip⟩ := hskips.2 _ _ _ rfl hs
    obtain ⟨r', hr', -, hrest⟩ :=
      hskip (.ofBytes Sample.parcelTracked (packed (bytes ++ [5])) 0 none) [5] rfl rfl
    exact ⟨_, bytes, hs, hsink, r', hr', hrest⟩

end ObjectStream
