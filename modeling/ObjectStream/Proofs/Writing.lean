import ObjectStream.Proofs.Sequence

/-!
# What is written for values

The equations of the writer for values of a type, with the different loops as
lists of parts, and what follows from them: the bytes of a value are not empty,
they do not start like nil unless the value is an option or has a writer of its
own, and the pointers are framed in the order of the value's sightings.
-/

namespace ObjectStream

variable {Γ : Schema} {c : Context} {H : Heap}

namespace Schema

def Leads (Γ : Schema) (p : Part) (bytes : List UInt8) : Prop :=
  match p with
  | .whole t => bytes ≠ [] ∧ (Γ.codec? t = none → t.isOption = false → StartsValue bytes)
  | _ => True

theorem leads_of_startsValue {t : Ty} {bytes : List UInt8} (h : StartsValue bytes) :
    Γ.Leads (.whole t) bytes :=
  ⟨h.ne_nil, fun _ _ => h⟩

/-- An option may start like nil. -/
theorem leads_option {t : Ty} {bytes : List UInt8} (h : bytes ≠ []) :
    Γ.Leads (.whole (.option t)) bytes := by
  refine ⟨h, fun _ hoption => ?_⟩
  cases hoption

/-! ## Equations of the writer -/

-- Only the lemmas of this section take the writer apart.
attribute [local simp] encode

theorem writePart_scalar (s : Scalar) (d : Datum) :
    Γ.writePart (.whole (.scalar s)) (.scalar d) = Writer.scalar s d := by
  simp [writePart, codec?, Ty.asked, Ty.deref]

theorem writePart_errorCode (code : ErrorCode) :
    Γ.writePart (.whole .errorCode) (.errorCode code) = Writer.errorCode code := by
  simp [writePart, codec?, Ty.asked, Ty.deref]

/-- A list in a fixed order is a header and its parts. -/
theorem writePart_list {t : Ty} {vs : List Value} {ps : List Part}
    (h : Γ.parts (.whole t) vs.length = some ps) :
    Γ.writePart (.whole t) (.list vs) = (do
      Writer.arrayHeader vs.length
      Γ.writeParts ps vs) := by
  rw [writePart, encode]
  cases t with
  | tuple ts =>
      simp only [parts] at h
      split at h
      · next hlen =>
          cases h
          simp only [codec?, Ty.asked, Ty.deref, encodeParts_eq Γ ts vs hlen, hlen, if_true]
      · cases h
  | array e n =>
      simp only [parts] at h
      split at h
      · next hlen =>
          cases h
          simp only [codec?, Ty.asked, Ty.deref, encodeEach_eq, hlen, if_true]
      · cases h
  | seq kind e =>
      cases kind <;> simp only [parts] at h <;> cases h <;>
        simp only [codec?, Ty.asked, Ty.deref, encodeEach_eq]
  | _ => cases h

theorem writePart_set (kind : TableKind) (t : Ty) (vs : List Value) :
    Γ.writePart (.whole (.set kind t)) (.list vs) = (do
      Writer.arrayHeader vs.length
      Γ.writeParts (List.replicate vs.length (.whole t)) vs) := by
  simp [writePart, codec?, Ty.asked, Ty.deref, encodeEach_eq]

theorem writePart_map (kind : TableKind) (t u : Ty) (vs : List Value) :
    Γ.writePart (.whole (.map kind t u)) (.list vs) = (do
      Writer.arrayHeader vs.length
      Γ.writeParts (List.replicate vs.length (.whole (.tuple [t, u]))) vs) := by
  simp [writePart, codec?, Ty.asked, Ty.deref, encodeEach_eq]

theorem writePart_absent {t : Ty} (hcodec : Γ.codec? (.option t) = none) :
    Γ.writePart (.whole (.option t)) .absent = encodeAbsent t := by
  simp [writePart, Ty.asked, Ty.deref, hcodec]

theorem writePart_present {t : Ty} (v : Value) (hcodec : Γ.codec? (.option t) = none)
    (hderef : t.deref = t) :
    Γ.writePart (.whole (.option t)) (.present v) = (do
      if t.isOption then Writer.arrayHeader 1
      Γ.writePart (.whole t) v) := by
  simp [writePart, Ty.asked, Ty.deref, hcodec, hderef]

variable {name : String} {args : List Ty} {item : Item Ty}

theorem writer?_of_plan {plan : Plan Ty} (h : Γ.plan? name = some (item, plan)) :
    Γ.writer? name = some (item, item.writerOf plan) := by
  rw [writer?_eq, h]
  rfl

theorem reader?_of_plan {plan : Plan Ty} (h : Γ.plan? name = some (item, plan)) :
    Γ.reader? name = some (item, item.readerOf plan) := by
  rw [reader?_eq, h]
  rfl

theorem reader?_of_no_plan (h : Γ.plan? name = none) : Γ.reader? name = none := by
  rw [reader?_eq, h]
  rfl

/-- The fields of a struct without a header are its parts. -/
theorem writePart_fields {asMap : Bool} {fields : List (MarkedField Ty)} {vs : List Value}
    (h : Γ.plan? name = some (item, .struct asMap fields)) :
    Γ.writePart (.fields (.named name args)) (.list vs) =
      Γ.writeParts (fields.map (MarkedField.part (arguments item args))) vs := by
  rw [writePart, encodeFields]
  simp only [writer?_of_plan h, Item.writerOf]
  exact encodeSteps_eq Γ _ _ fields vs (by simp [MarkedField.memberStep])

theorem writePart_struct {asMap : Bool} {fields : List (MarkedField Ty)} {vs : List Value}
    (h : Γ.plan? name = some (item, .struct asMap fields)) :
    Γ.writePart (.whole (.named name args)) (.list vs) =
      if asMap then (do
        Writer.mapHeader fields.length
        Γ.writeEntries (fields.map (entry (arguments item args))) vs)
      else (do
        Writer.arrayHeader (Γ.writtenFieldCount (.named name args))
        Γ.writeParts (fields.map (MarkedField.part (arguments item args))) vs) := by
  have hsteps := encodeSteps_eq Γ (arguments item args) (fields.map MarkedField.memberStep)
    fields vs (by simp [MarkedField.memberStep])
  rw [writePart, encode]
  simp only [Ty.asked, Ty.deref, codec?_of_plan? h, writer?_of_plan h, Item.writerOf]
  cases asMap with
  | true => simp only [if_true, encodeSteps_entries Γ _ fields vs]
  | false => simp only [Bool.false_eq_true, if_false, hsteps, Writer.objectHeader]

theorem writePart_bare {index : Nat} {d : Int} (h : Γ.plan? name = some (item, .bare))
    (hd : (discriminants item.variants)[index]? = some d) :
    Γ.writePart (.whole (.named name args)) (.variant index []) =
      Writer.int (wireDiscriminant d) := by
  have hdata := Item.data_of_bare (plan_of_plan? h)
  have hwriter := writer?_of_plan h
  obtain ⟨itemName, attributes, generics, whereClause, data, checkPath⟩ := item
  cases data with
  | struct fields | union fields => cases hdata
  | enum variants =>
      simp only [Item.variants] at hd
      rw [writePart, encode]
      simp only [Ty.asked, Ty.deref, codec?_of_plan? h, hwriter, Item.writerOf, hd]

/-- The fields of a variant are those that the source has in its place. -/
theorem exists_variantFields {fieldss : List (List (MarkedField Ty))} {index : Nat}
    {fields : List (MarkedField Ty)} (h : Γ.plan? name = some (item, .variants fieldss))
    (hfields : fieldss[index]? = some fields) :
    ∃ v, item.variants[index]? = some v ∧ Item.variantFields item.checkPath v = .ok fields := by
  have hall := (Item.mapM_ok_iff _ _ _).1 (Item.variants_of_plan (plan_of_plan? h))
  obtain ⟨hlt, rfl⟩ := List.getElem?_eq_some_iff.1 hfields
  have hlt' : index < item.variants.length := hall.length_eq ▸ hlt
  exact ⟨_, List.getElem?_eq_getElem hlt', hall.get hlt' hlt⟩

theorem writePart_variant {t : Ty} {fieldss : List (List (MarkedField Ty))} {index : Nat}
    {fields : List (MarkedField Ty)} {vs : List Value} (ht : t.deref = .named name args)
    (h : Γ.plan? name = some (item, .variants fieldss)) (hfields : fieldss[index]? = some fields) :
    Γ.writePart (.whole t) (.variant index vs) = (do
      Writer.arrayHeader (1 + fields.length)
      Writer.uint index
      Γ.writeParts (fields.map (MarkedField.part (arguments item args))) vs) := by
  obtain ⟨v, hv, -⟩ := exists_variantFields h hfields
  have harm := Item.getElem?_arms Item.writeArmOf hv hfields
  rw [writePart, encode]
  simp only [Ty.asked, ht, codec?_of_plan? h, writer?_of_plan h, Item.writerOf, harm,
    Item.writeArmOf]
  rw [encodeSteps_eq Γ _ _ fields vs]
  rw [List.map_map]
  conv_rhs => rw [← List.zipIdx_map_fst 0 fields, List.map_map]
  rfl

theorem writePart_shared (pointee type : Ty) (id : Identity) (body : Value) :
    Γ.writePart (.whole (.shared pointee)) (.shared id type body) =
      if canPoint pointee type then Writer.shared id type (Γ.writePart (.whole type) body)
      else illTyped (.shared pointee) := by
  simp [writePart, codec?, Ty.asked, Ty.deref]

theorem writePart_unique (pointee type : Ty) (body : Value) :
    Γ.writePart (.whole (.unique pointee)) (.unique type body) =
      if canPoint pointee type then Writer.unique type (Γ.writePart (.whole type) body)
      else illTyped (.unique pointee) := by
  simp [writePart, codec?, Ty.asked, Ty.deref]

theorem writePart_custom {t : Ty} {codec : Codec} (h : Γ.codec? t = some codec) (v : Value) :
    Γ.writePart (.whole t) v = codec.write v := by
  rw [writePart, encode.eq_def, asked_of_codec? h, h]

theorem writePart_rule {path : String} {t : Ty} {codec : Codec} (h : Γ.rule? path = some codec)
    (v : Value) : Γ.writePart (.rule path t) v = codec.write v := by
  simp only [writePart, h]

/-- Only structs have fields. -/
theorem plan_of_parts_fields {t : Ty} {n : Nat} {ps : List Part}
    (h : Γ.parts (.fields t) n = some ps) :
    ∃ name args item asMap fields, t = .named name args ∧
      Γ.plan? name = some (item, .struct asMap fields) ∧
      ps = fields.map (MarkedField.part (arguments item args)) := by
  cases t with
  | named name args =>
      simp only [parts] at h
      split at h
      · next item asMap fields hplan =>
          split at h
          · cases h
            exact ⟨name, args, item, asMap, fields, rfl, hplan, rfl⟩
          · cases h
      · cases h
  | _ => cases h

end Schema

/-! ## What is written for typed values -/

/-- What is written for a value of a part starts as the part does, with its pointers framed in the
order of the value's sightings. -/
abbrev WritesOut (Γ : Schema) (c : Context) (H : Heap) (p : Part) (v : Value) : Prop :=
  Writes c H (fun seen => v.sightings seen) (Γ.Leads p) (Γ.writePart p v)

theorem mem_zip_replicate {p : Part} {vs : List Value} {n : Nat} {q : Part × Value}
    (h : q ∈ (List.replicate n p).zip vs) : q.1 = p ∧ q.2 ∈ vs :=
  ⟨List.eq_of_mem_replicate (List.of_mem_zip h).1, (List.of_mem_zip h).2⟩

/-- The discriminant of a variant. -/
theorem exists_discriminant {item : Item Ty} {index : Nat} (h : index < item.variants.length) :
    ∃ d, (discriminants item.variants)[index]? = some d := by
  have hlen (next : Int) (vs : List (Variant Ty)) :
      (discriminantsFrom next vs).length = vs.length := by
    induction vs generalizing next with
    | nil => rfl
    | cons v vs ih => simp only [discriminantsFrom, List.length_cons, ih]
  exact ⟨_, List.getElem?_eq_getElem (by rwa [discriminants, hlen])⟩

theorem holdsSigned_wireDiscriminant (d : Int) :
    IntWidth.w64.holdsSigned (wireDiscriminant d) = true := by
  rw [IntWidth.holdsSigned_iff]
  have hlow := Int.le_bmod (x := d) (m := 2 ^ 64) (by decide)
  have hhigh := Int.bmod_lt (x := d) (m := 2 ^ 64) (by decide)
  simp only [wireDiscriminant, IntWidth.bits]
  omega

namespace Writes

/-- A header and a list of parts. -/
theorem headed {α : Type} {x : Writer Unit} {y : Reader α} {a : α}
    (hx : Conveys c x StartsValue y a) {ps : List Part} {vs : List Value}
    (hlen : ps.length = vs.length) (h : ∀ q ∈ ps.zip vs, WritesOut Γ c H q.1 q.2) :
    Writes c H (fun seen => Value.sightingsIn seen vs) StartsValue (do x; Γ.writeParts ps vs) :=
  behind hx (parts hlen fun q hq => (h q hq).imp fun _ _ => trivial)

end Writes

namespace WritesOut

theorem scalar {s : Scalar} (hs : s.Readable) (d : Datum) :
    WritesOut Γ c H (.whole (.scalar s)) (.scalar d) := by
  simp only [WritesOut, Value.sightings]
  rw [Schema.writePart_scalar]
  exact (Writes.conveys (Conveys.scalar hs d)).imp fun _ => Schema.leads_of_startsValue

theorem errorCode {code : ErrorCode} (hc : c.WellFormed)
    (hvalue : IntWidth.w32.holdsSigned code.value = true) :
    WritesOut Γ c H (.whole .errorCode) (.errorCode code) := by
  simp only [WritesOut, Value.sightings]
  rw [Schema.writePart_errorCode]
  obtain ⟨_, _, hconveys⟩ := Conveys.errorCode hc.places hvalue
  exact (Writes.conveys hconveys).imp fun _ => Schema.leads_of_startsValue

theorem list {t : Ty} {ps : List Part} {vs : List Value}
    (hparts : Γ.parts (.whole t) vs.length = some ps)
    (h : ∀ q ∈ ps.zip vs, WritesOut Γ c H q.1 q.2) : WritesOut Γ c H (.whole t) (.list vs) := by
  simp only [WritesOut, Value.sightings]
  rw [Schema.writePart_list hparts]
  exact (Writes.headed (Conveys.arrayHeader _) (Schema.length_parts hparts) h).imp
    fun _ => Schema.leads_of_startsValue

/-- An entry of a map is the pair of its key and its value. -/
theorem pair {t u : Ty} {e : Value × Value} (hkey : WritesOut Γ c H (.whole t) e.1)
    (hvalue : WritesOut Γ c H (.whole u) e.2) :
    WritesOut Γ c H (.whole (.tuple [t, u])) (.ofPair e) := by
  have hparts : Γ.parts (.whole (.tuple [t, u])) 2 = some [.whole t, .whole u] := rfl
  refine list hparts ?_
  simp only [List.zip_cons_cons, List.zip_nil_right, List.forall_mem_cons]
  exact ⟨hkey, hvalue, by simp⟩

theorem set {kind : TableKind} {t : Ty} {vs : List Value}
    (h : ∀ v ∈ vs, WritesOut Γ c H (.whole t) v) :
    WritesOut Γ c H (.whole (.set kind t)) (.list vs) := by
  simp only [WritesOut, Value.sightings]
  rw [Schema.writePart_set]
  refine (Writes.headed (Conveys.arrayHeader _) (by simp) fun q hq => ?_).imp
    fun _ => Schema.leads_of_startsValue
  obtain ⟨hp, hv⟩ := mem_zip_replicate hq
  rw [hp]
  exact h q.2 hv

theorem map {kind : TableKind} {t u : Ty} {entries : List (Value × Value)}
    (hkeys : ∀ e ∈ entries, WritesOut Γ c H (.whole t) e.1)
    (hvalues : ∀ e ∈ entries, WritesOut Γ c H (.whole u) e.2) :
    WritesOut Γ c H (.whole (.map kind t u)) (.list (entries.map .ofPair)) := by
  simp only [WritesOut, Value.sightings]
  rw [Schema.writePart_map]
  refine (Writes.headed (Conveys.arrayHeader _) (by simp) fun q hq => ?_).imp
    fun _ => Schema.leads_of_startsValue
  obtain ⟨hp, hv⟩ := mem_zip_replicate hq
  obtain ⟨e, he, hq'⟩ := List.mem_map.1 hv
  rw [hp, ← hq']
  exact pair (hkeys e he) (hvalues e he)

theorem absent {t : Ty} (hcodec : Γ.codec? (.option t) = none) :
    WritesOut Γ c H (.whole (.option t)) .absent := by
  simp only [WritesOut, Value.sightings]
  rw [Schema.writePart_absent hcodec, encodeAbsent]
  split
  · exact (Writes.conveys Conveys.nullPointer).imp fun _ h => Schema.leads_option h.ne_nil
  · exact (Writes.conveys Conveys.nil).imp fun _ => Schema.leads_option

theorem present {t : Ty} {v : Value} (hcodec : Γ.codec? (.option t) = none)
    (hderef : t.deref = t) (h : WritesOut Γ c H (.whole t) v) :
    WritesOut Γ c H (.whole (.option t)) (.present v) := by
  simp only [WritesOut, Value.sightings]
  rw [Schema.writePart_present v hcodec hderef]
  cases t.isOption with
  | true =>
      exact (Writes.behind (Conveys.arrayHeader 1) h).imp fun _ h => Schema.leads_option h.ne_nil
  | false => exact h.imp fun _ h => Schema.leads_option h.1

theorem shared {id : Identity} {pointee type : Ty} {body : Value} (hc : c.WellFormed)
    (htype : (H id).type = type) (hmakes : c.registry.Makes type pointee)
    (h : WritesOut Γ c H (.whole type) body) :
    WritesOut Γ c H (.whole (.shared pointee)) (.shared id type body) := by
  have hshared := Writes.shared hc htype hmakes h
  simp only [WritesOut, Value.sightings]
  rw [Schema.writePart_shared]
  split
  · exact hshared.imp fun _ => Schema.leads_of_startsValue
  · intro s s' _ hx
    cases hx

theorem unique {pointee type : Ty} {body : Value} (hc : c.WellFormed)
    (hmakes : c.registry.Makes type pointee) (h : WritesOut Γ c H (.whole type) body) :
    WritesOut Γ c H (.whole (.unique pointee)) (.unique type body) := by
  have hunique := Writes.unique hc hmakes h
  simp only [WritesOut, Value.sightings]
  rw [Schema.writePart_unique]
  split
  · exact hunique.imp fun _ => Schema.leads_of_startsValue
  · intro s s' _ hx
    cases hx

/-- Where there is a writer of its own, nothing is said of the first byte. -/
theorem custom {t : Ty} {codec : Codec} {v : Value} (hcodec : Γ.codec? t = some codec)
    (hkeeps : codec.Keeps c v (· ≠ [])) (hplain : ∀ seen, v.sightings seen = []) :
    WritesOut Γ c H (.whole t) v := by
  simp only [WritesOut, hplain]
  rw [Schema.writePart_custom hcodec]
  refine (Writes.conveys hkeeps).imp fun _ h => ⟨h, fun hnone => ?_⟩
  rw [hcodec] at hnone
  cases hnone

theorem rule {path : String} {t : Ty} {codec : Codec} {v : Value}
    (hrule : Γ.rule? path = some codec) (hkeeps : codec.Keeps c v fun _ => True)
    (hplain : ∀ seen, v.sightings seen = []) : WritesOut Γ c H (.rule path t) v := by
  simp only [WritesOut, hplain]
  rw [Schema.writePart_rule hrule]
  exact (Writes.conveys hkeeps).imp fun _ _ => trivial

section Derived

variable {name : String} {args : List Ty} {item : Item Ty} {fields : List (MarkedField Ty)}
  {vs : List Value}

/-- The fields of a base. -/
theorem base {asMap : Bool} (hplan : Γ.plan? name = some (item, .struct asMap fields))
    (hlen : vs.length = fields.length)
    (h : ∀ q ∈ (fields.map (MarkedField.part (Schema.arguments item args))).zip vs,
      WritesOut Γ c H q.1 q.2) :
    WritesOut Γ c H (.fields (.named name args)) (.list vs) := by
  simp only [WritesOut, Value.sightings]
  rw [Schema.writePart_fields hplan]
  exact Writes.parts (by simp [hlen]) fun q hq => (h q hq).imp fun _ _ => trivial

theorem struct {asMap : Bool} (hplan : Γ.plan? name = some (item, .struct asMap fields))
    (hlen : vs.length = fields.length)
    (h : ∀ q ∈ (fields.map (MarkedField.part (Schema.arguments item args))).zip vs,
      WritesOut Γ c H q.1 q.2) :
    WritesOut Γ c H (.whole (.named name args)) (.list vs) := by
  simp only [WritesOut, Value.sightings]
  rw [Schema.writePart_struct hplan]
  cases asMap with
  | true =>
      have hentries : Writes c H (fun seen => Value.sightingsIn seen vs) (fun _ => True)
          (Γ.writeEntries (fields.map (Schema.entry (Schema.arguments item args))) vs) :=
        Writes.entries (by simp [hlen]) (by
          rw [List.map_map]
          exact fun q hq => (h q hq).imp fun _ _ => trivial)
      exact (Writes.behind (Conveys.mapHeader _) hentries).imp fun _ => Schema.leads_of_startsValue
  | false =>
      exact (Writes.headed (Conveys.arrayHeader _) (by simp [hlen]) h).imp
        fun _ => Schema.leads_of_startsValue

theorem bare {index : Nat} (hplan : Γ.plan? name = some (item, .bare))
    (hindex : index < item.variants.length) :
    WritesOut Γ c H (.whole (.named name args)) (.variant index []) := by
  simp only [WritesOut, Value.sightings, Value.sightingsIn]
  obtain ⟨d, hd⟩ := exists_discriminant hindex
  rw [Schema.writePart_bare hplan hd]
  exact (Writes.conveys (Conveys.signed (holdsSigned_wireDiscriminant d))).imp
    fun _ => Schema.leads_of_startsValue

theorem variant {fieldss : List (List (MarkedField Ty))} {index : Nat}
    (hplan : Γ.plan? name = some (item, .variants fieldss))
    (hfields : fieldss[index]? = some fields)
    (hplaces : fieldss.length ≤ 2 ^ 32) (hlen : vs.length = fields.length)
    (h : ∀ q ∈ (fields.map (MarkedField.part (Schema.arguments item args))).zip vs,
      WritesOut Γ c H q.1 q.2) :
    WritesOut Γ c H (.whole (.named name args)) (.variant index vs) := by
  simp only [WritesOut, Value.sightings]
  rw [Schema.writePart_variant rfl hplan hfields]
  have hindex : index < 2 ^ 32 :=
    Nat.lt_of_lt_of_le (List.getElem?_eq_some_iff.1 hfields).1 hplaces
  have hparts := Writes.headed (Γ := Γ) (H := H)
    (Conveys.unsigned (c := c) (IntWidth.holdsUnsigned_of_lt hindex)) (by simp [hlen]) h
  exact (Writes.behind (Conveys.arrayHeader _) hparts).imp fun _ => Schema.leads_of_startsValue

end Derived

end WritesOut

theorem Fits.deref {key : Bool} {t : Ty} {v : Value} (h : Fits Γ c H key (.whole t) v) :
    t.deref = t := by
  cases t with
  | ref t =>
      cases h with
      | list hparts _ => cases hparts
      | custom hcodec _ _ => cases hcodec
  | _ => rfl

/-- Writing a value of a part frames its pointers in the order of its sightings. -/
theorem Fits.writes (hc : c.WellFormed) (hΓ : Γ.WellFormed) {key : Bool} {p : Part} {v : Value}
    (h : Fits Γ c H key p v) : WritesOut Γ c H p v := by
  induction h with
  | scalar hs _ => exact .scalar hs _
  | errorCode hvalue => exact .errorCode hc hvalue
  | @list key p ps vs hparts _ ih =>
      cases p with
      | whole t => exact .list hparts ih
      | fields t =>
          have hlen := Schema.length_parts hparts
          obtain ⟨name, args, item, asMap, fields, rfl, hplan, rfl⟩ :=
            Schema.plan_of_parts_fields hparts
          rw [List.length_map] at hlen
          exact .base hplan hlen.symm ih
      | rule path t => cases hparts
  | struct hplan hlen _ ih => exact .struct hplan hlen ih
  | set _ _ _ ih => exact .set ih
  | map _ _ _ _ ihk ihv => exact .map ihk ihv
  | absent hcodec => exact .absent hcodec
  | present hcodec hv ih => exact .present hcodec hv.deref ih
  | bare hplan hindex => exact .bare hplan hindex
  | variant hplan hfields hlen _ ih =>
      exact .variant hplan hfields (hΓ.places _ _ _ hplan) hlen ih
  | shared hheap hmakes _ ih => exact .shared hc (by rw [hheap]) hmakes ih
  | unique hmakes _ ih => exact .unique hc hmakes ih
  | custom hcodec hkeeps hplain => exact .custom hcodec hkeeps hplain
  | rule hrule hkeeps hplain => exact .rule hrule hkeeps hplain

end ObjectStream
