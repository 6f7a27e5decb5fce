import ObjectStream.Proofs.Carries
import ObjectStream.Proofs.OneValue

/-!
# Values of derived types

A value of an item is made of the values of its fields, or of those of one of its
variants; the fields of a base are among those of the struct. Whatever relation
the writers and readers of the fields carry, with the generated code of the item
it is carried from one value of the item to the other. So if every field is read
back as it was written, every value of the item is.
-/

namespace ObjectStream

namespace Schema

variable {Γ : Schema}

/-! ## What values are made of -/

/-- A part in which every field meets a condition, the fields of bases among them. -/
inductive Built (Γ : Schema) (P : Part → Value → Prop) : Part → Value → Prop
  | whole {t : Ty} {v : Value} : P (.whole t) v → Built Γ P (.whole t) v
  | rule {path : String} {t : Ty} {v : Value} : P (.rule path t) v → Built Γ P (.rule path t) v
  | base {name : String} {args : List Ty} {item : Item Ty} {asMap : Bool}
      {marked : List (MarkedField Ty)} {vs : List Value} :
      Γ.plan? name = some (item, .struct asMap marked) → vs.length = marked.length →
      (∀ q ∈ (marked.map (MarkedField.part (arguments item args))).zip vs, Built Γ P q.1 q.2) →
      Built Γ P (.fields (.named name args)) (.list vs)

/-- A value of an item with some type arguments, in which every field meets a condition. -/
inductive Made (Γ : Schema) (P : Part → Value → Prop) (item : Item Ty) (args : List Ty) :
    Value → Prop
  | struct {fields : Fields Ty} {marked : List (MarkedField Ty)} {vs : List Value} :
      item.data = .struct fields → fields.marked item.checkPath = .ok marked →
      vs.length = marked.length →
      (∀ q ∈ (marked.map (MarkedField.part (arguments item args))).zip vs, Γ.Built P q.1 q.2) →
      Made Γ P item args (.list vs)
  | variant {variants : List (Variant Ty)} {index : Nat} {variant : Variant Ty}
      {marked : List (MarkedField Ty)} {vs : List Value} :
      item.data = .enum variants → variants[index]? = some variant →
      variant.fields.marked item.checkPath = .ok marked → vs.length = marked.length →
      (∀ q ∈ (marked.map (MarkedField.part (arguments item args))).zip vs, Γ.Built P q.1 q.2) →
      Made Γ P item args (.variant index vs)

inductive Alike (Γ : Schema) (S : Part → Value → Value → Prop) : Part → Value → Value → Prop
  | whole {t : Ty} {v w : Value} : S (.whole t) v w → Alike Γ S (.whole t) v w
  | rule {path : String} {t : Ty} {v w : Value} : S (.rule path t) v w →
      Alike Γ S (.rule path t) v w
  | base {name : String} {args : List Ty} {item : Item Ty} {asMap : Bool}
      {marked : List (MarkedField Ty)} {vs ws : List Value} :
      Γ.plan? name = some (item, .struct asMap marked) → vs.length = marked.length →
      ws.length = vs.length →
      (∀ q ∈ (marked.map (MarkedField.part (arguments item args))).zip (vs.zip ws),
        Alike Γ S q.1 q.2.1 q.2.2) →
      Alike Γ S (.fields (.named name args)) (.list vs) (.list ws)

inductive AlikeIn (Γ : Schema) (S : Part → Value → Value → Prop) (item : Item Ty)
    (args : List Ty) : Value → Value → Prop
  | struct {marked : List (MarkedField Ty)} {vs ws : List Value} :
      item.fields.marked item.checkPath = .ok marked → vs.length = marked.length →
      PartByPart (Γ.Alike S) (marked.map (MarkedField.part (arguments item args))) vs ws →
      AlikeIn Γ S item args (.list vs) (.list ws)
  | variant {index : Nat} {variant : Variant Ty} {marked : List (MarkedField Ty)}
      {vs ws : List Value} :
      item.variants[index]? = some variant → variant.fields.marked item.checkPath = .ok marked →
      vs.length = marked.length →
      PartByPart (Γ.Alike S) (marked.map (MarkedField.part (arguments item args))) vs ws →
      AlikeIn Γ S item args (.variant index vs) (.variant index ws)

/-- What the compiler makes sure of in an item: the fields of a struct have different names, and it
is no base of itself; the variants of an enum have different discriminants, which fit 64 bits, if
it has no fields, and the place of a variant fits 32 bits. -/
structure Compiles (Γ : Schema) (name : String) (item : Item Ty) (args : List Ty) : Prop where
  names : ∀ declared, item.data = .struct (.named declared) →
    (declared.map fun f => f.1.name).Nodup
  bases : ∀ fields, item.data = .struct fields → Γ.Nests baseDepth (.named name args)
  discriminants : allBare item.variants = true →
    (ObjectStream.discriminants item.variants).Nodup ∧
      FitWord (ObjectStream.discriminants item.variants)
  places : item.variants.length ≤ 2 ^ 32

/-- The writer and the reader of a field carry a relation, with any bytes behind. -/
def RoundTrips (Γ : Schema) (c : Context) (R : TableRelation) (S : Part → Value → Value → Prop)
    (p : Part) (v : Value) : Prop :=
  ∀ depth, Carries c R depth (Γ.writePart p v) (Γ.readPart (decode Γ) 0 p) (S p v)

end Schema

open Schema

section Relations

variable {Γ : Schema} {S : Part → Value → Value → Prop}

theorem PartByPart.eq {P : Part → Value → Value → Prop} {ps : List Part} {vs ws : List Value}
    (h : PartByPart P ps vs ws) (hlen : ps.length = vs.length)
    (hP : ∀ q ∈ ps.zip (vs.zip ws), P q.1 q.2.1 q.2.2 → q.2.2 = q.2.1) : ws = vs := by
  have hmap := map_eq_of_zip id ps hlen h.1 fun q hq => hP q hq (h.2 q hq)
  rwa [List.map_id, List.map_id] at hmap

/-- Parts are equal if their fields are. -/
theorem Schema.Alike.eq (hS : ∀ p v w, S p v w → w = v) {p : Part} {v w : Value}
    (h : Γ.Alike S p v w) : w = v := by
  induction h with
  | whole h => exact hS _ _ _ h
  | rule h => exact hS _ _ _ h
  | base hplan hlen hws _ ih =>
      have hmap := map_eq_of_zip id _ (by rw [List.length_map, hlen]) hws ih
      rw [List.map_id, List.map_id] at hmap
      rw [hmap]

theorem Schema.AlikeIn.eq (hS : ∀ p v w, S p v w → w = v) {item : Item Ty} {args : List Ty}
    {v w : Value} (h : Γ.AlikeIn S item args v w) : w = v := by
  cases h with
  | struct hmarked hlen hparts =>
      rw [hparts.eq (by rw [List.length_map, hlen]) fun q _ => Alike.eq hS]
  | variant hvariant hmarked hlen hparts =>
      rw [hparts.eq (by rw [List.length_map, hlen]) fun q _ => Alike.eq hS]

end Relations

section Carrying

variable {Γ : Schema} {c : Context} {R : TableRelation} {S : Part → Value → Value → Prop}

/-- Parts are carried, within the depth that their bytes need. -/
theorem Schema.Built.carries {p : Part} {v : Value} (h : Γ.Built (Γ.RoundTrips c R S) p v)
    {fuel : Nat} (hnests : Γ.PartNests fuel p) (depth : Nat) :
    Carries c R depth (Γ.writePart p v) (Γ.readPart (decodeWithin Γ depth) fuel p)
      (Γ.Alike S p v) := by
  induction h generalizing fuel with
  | @whole t v h =>
      refine ((h depth).extended fun r w r' hdepth hr => ?_).imp fun w => .whole
      exact decodeWithin_of_decode hr hdepth
  | @rule path t v h =>
      cases fuel <;> exact (h depth).imp fun w => .rule
  | @base name args item asMap marked vs hplan hlen _ ih =>
      cases fuel with
      | zero => cases hnests
      | succ fuel =>
          rw [writePart_fields hplan, readPart, decodeFieldList_struct _ _ hplan]
          refine (Carries.parts (by rw [List.length_map, hlen]) fun q hq => ?_).map Value.list
            fun ws hws => .base hplan hlen hws.1 hws.2
          exact ih q hq (partNests_of_nests hplan hnests (List.of_mem_zip hq).1)

variable {name : String} {args : List Ty} {item : Item Ty} {v : Value}

/-- A struct that is framed as a map has different keys. -/
theorem Schema.Compiles.keys {marked : List (MarkedField Ty)} (h : Γ.Compiles name item args)
    (hplan : item.plan = .ok (.struct true marked)) : (marked.map MarkedField.key).Nodup := by
  rcases Item.plan_cases hplan with ⟨_, _, _, hdata, hmarked, _, hp⟩ | ⟨_, _, hp⟩ | ⟨_, _, _, hp⟩
  · cases hp
    have hnamed := (Item.isNamed_of_plan hplan).1
    cases hfields : item.fields with
    | named declared =>
        rw [hfields] at hdata hmarked
        rw [Item.key_of_marked hmarked]
        exact h.names declared hdata
    | positional | unit =>
        rw [hfields] at hnamed
        cases hnamed
  · cases hp
  · cases hp

/-- A struct is carried if its fields are. -/
theorem carries_struct {asMap : Bool} {marked : List (MarkedField Ty)} {vs : List Value}
    (hplan : Γ.plan? name = some (item, .struct asMap marked))
    (hnests : Γ.Nests baseDepth (.named name args))
    (hkeys : asMap = true → (marked.map MarkedField.key).Nodup) (hlen : vs.length = marked.length)
    (h : ∀ q ∈ (marked.map (MarkedField.part (arguments item args))).zip vs,
      Γ.Built (Γ.RoundTrips c R S) q.1 q.2) (depth : Nat) :
    Carries c R (depth + 1) (Γ.writePart (.whole (.named name args)) (.list vs))
      (decodeStep Γ (decodeWithin Γ depth) (.named name args))
      fun w => ∃ ws, w = .list ws ∧
        PartByPart (Γ.Alike S) (marked.map (MarkedField.part (arguments item args))) vs ws := by
  rw [writePart_struct hplan, decodeStep_struct _ hplan]
  cases asMap with
  | false =>
      obtain ⟨fuel, hfuel⟩ := exists_baseDepth
      rw [if_neg Bool.false_ne_true, if_neg Bool.false_ne_true, writtenFieldCount_eq]
      refine Carries.behind (Conveys.arrayHeader _) ?_
      rw [if_pos rfl]
      rw [hfuel] at hnests ⊢
      rw [decodeFieldList_struct _ _ hplan]
      refine (Carries.parts (by rw [List.length_map, hlen]) fun q hq => ?_).map Value.list
        fun ws hws => ⟨ws, rfl, hws⟩
      exact (h q hq).carries (partNests_of_nests hplan hnests (List.of_mem_zip hq).1) depth
  | true =>
      have hbase := Item.hasBase_of_plan (plan_of_plan? hplan)
      rw [if_pos rfl, if_pos rfl]
      refine Carries.behind (Conveys.mapHeader _) ?_
      rw [if_pos rfl]
      have hkeys' : (([] ++ marked).map MarkedField.key).Nodup := hkeys rfl
      have hdone : ([] : List Value).length = ([] : List (MarkedField Ty)).length := rfl
      have hslots := Carries.entries item.name.name hkeys' hdone hlen fun q hq =>
        (h q hq).carries (partNests_of_hasBase hbase baseDepth (List.of_mem_zip hq).1) depth
      refine Carries.settle hslots fun slots hfull r => ?_
      obtain ⟨ws, rfl, hws⟩ := hfull
      have hlength : (marked.map MarkedField.held).length = ws.length := by
        rw [List.length_map, hws.1, hlen]
      refine ⟨.list ws, ?_, ws, rfl, hws⟩
      simp only [List.nil_append, Functor.map, EStateM.map, takeSlots_some _ hlength r]

/-- A variant is carried if its fields are. -/
theorem carries_variant {fieldss : List (List (MarkedField Ty))} {index : Nat}
    {marked : List (MarkedField Ty)} {vs : List Value}
    (hplan : Γ.plan? name = some (item, .variants fieldss))
    (hmarked : fieldss[index]? = some marked)
    (hindex : index < 2 ^ 32) (hlen : vs.length = marked.length)
    (h : ∀ q ∈ (marked.map (MarkedField.part (arguments item args))).zip vs,
      Γ.Built (Γ.RoundTrips c R S) q.1 q.2) (depth : Nat) :
    Carries c R (depth + 1) (Γ.writePart (.whole (.named name args)) (.variant index vs))
      (decodeStep Γ (decodeWithin Γ depth) (.named name args))
      fun w => ∃ ws, w = .variant index ws ∧
        PartByPart (Γ.Alike S) (marked.map (MarkedField.part (arguments item args))) vs ws := by
  obtain ⟨variant, hvariant, hfields⟩ := exists_variantFields hplan hmarked
  obtain ⟨hassembled, hbase⟩ := Item.marked_of_variant hfields
  rw [writePart_variant rfl hplan hmarked, decodeStep_variants _ hplan]
  refine Carries.behind (Conveys.arrayHeader _) ?_
  rw [if_neg (by omega)]
  refine Carries.of_depth (Carries.behind
    (Conveys.unsigned (IntWidth.holdsUnsigned_of_lt hindex)) ?_) (Nat.le_succ depth)
  have hresult := Item.parts_assemble hassembled MarkedField.reader
  simp only [Item.find?_arms hvariant hmarked, Item.readArmOf, hresult, Reader.each_fields]
  rw [if_neg (by omega)]
  refine (Carries.parts (by rw [List.length_map, hlen]) fun q hq => ?_).map (Value.variant index)
    fun ws hws => ⟨ws, rfl, hws⟩
  exact (h q hq).carries (partNests_of_hasBase hbase _ (List.of_mem_zip hq).1) depth

/-- The plan of an item that both generators accept. -/
theorem exists_plan? (hitem : Γ.item? name = some item)
    (haccepted : (∃ code, item.writerCode = .ok code) ∧ ∃ code, item.readerCode = .ok code) :
    ∃ plan, item.plan = .ok plan ∧ Γ.plan? name = some (item, plan) := by
  obtain ⟨code, hcode⟩ := haccepted.1
  obtain ⟨plan, hplan⟩ := Item.exists_plan_of_writerCode hcode
  refine ⟨plan, hplan, ?_⟩
  simp only [plan?, hitem, hplan, Except.toOption, Option.map_some]

/-- The generated code carries a value of the item. -/
theorem Schema.Made.carries (hitem : Γ.item? name = some item)
    (haccepted : (∃ code, item.writerCode = .ok code) ∧ ∃ code, item.readerCode = .ok code)
    (hcompiles : Γ.Compiles name item args) (hv : Γ.Made (Γ.RoundTrips c R S) item args v)
    (depth : Nat) :
    Carries c R (depth + 1) (Γ.writePart (.whole (.named name args)) v)
      (decodeStep Γ (decodeWithin Γ depth) (.named name args)) (Γ.AlikeIn S item args v) := by
  obtain ⟨plan, hok, hplan⟩ := exists_plan? hitem haccepted
  cases hv with
  | struct hdata hmarked hlen hparts =>
      obtain ⟨hfields, asMap, rfl⟩ := Item.plan_of_struct hok hdata hmarked
      have hcarries := carries_struct hplan (hcompiles.bases _ hdata)
        (fun hmap => hcompiles.keys (hmap ▸ hok)) hlen hparts depth
      refine hcarries.imp ?_
      rintro w ⟨ws, rfl, hws⟩
      exact .struct (hfields ▸ hmarked) hlen hws
  | @variant variants index variant marked vs hdata hvariant hmarked hlen hparts =>
      have hlt := (List.getElem?_eq_some_iff.1 hvariant).1
      obtain ⟨rfl, ⟨hbare, rfl, rfl⟩ | ⟨fieldss, hfieldss, hfields, rfl⟩⟩ :=
        Item.plan_of_enum hok hdata hvariant hmarked
      · obtain rfl : vs = [] := List.eq_nil_of_length_eq_zero hlen
        exact Carries.conveys (Conveys.bare _ hplan (hcompiles.discriminants hbare) hlt)
          (.variant hvariant hmarked rfl PartByPart.nil)
      · have hcarries := carries_variant hplan hfields
          (Nat.lt_of_lt_of_le hlt hcompiles.places) hlen hparts depth
        refine hcarries.imp ?_
        rintro w ⟨ws, rfl, hws⟩
        exact .variant hvariant hmarked hlen hws

end Carrying

/-- A value of an item is read back from what the generated code writes for it, with any bytes
behind, if each of its fields is. What comes back is in every field related to what was written,
so it is the same if the fields are. -/
theorem Schema.Made.exists_alike {Γ : Schema} {c : Context} {R : TableRelation}
    {S : Part → Value → Value → Prop} {name : String} {args : List Ty} {item : Item Ty} {v : Value}
    (hitem : Γ.item? name = some item)
    (haccepted : (∃ code, item.writerCode = .ok code) ∧ ∃ code, item.readerCode = .ok code)
    (hcompiles : Γ.Compiles name item args) (hv : Γ.Made (Γ.RoundTrips c R S) item args v)
    {s s' : OutStream} (hs : s.context = c) (hx : encode Γ (.named name args) v s = .ok () s') :
    ∃ bytes, s'.sink = s.sink.append (packed bytes) ∧
      ∀ (r : InStream) (suffix : List UInt8), r.context = c → r.rest = bytes ++ suffix →
        R s.shared r.shared r.nextObject →
        ∃ w r', decode Γ (.named name args) r = .ok w r' ∧ r'.rest = suffix ∧ r'.context = c ∧
          R s'.shared r'.shared r'.nextObject ∧ Γ.AlikeIn S item args v w ∧
          ((∀ p a b, S p a b → b = a) → w = v) := by
  have hcarries := hv.carries hitem haccepted hcompiles
  obtain ⟨-, bytes, hsink, -⟩ := hcarries 0 s s' hs hx
  refine ⟨bytes, hsink, fun r suffix hr hrest hR => ?_⟩
  obtain ⟨-, bytes', hsink', hread⟩ := hcarries (2 * r.rest.length + 1) s s' hs hx
  obtain rfl : bytes' = bytes := ByteSink.append_injective (hsink'.symm.trans hsink)
  obtain ⟨w, r', hstep, hw, hr', hcursor, hR'⟩ := hread r suffix hr hrest (Nat.le_refl _) hR
  refine ⟨w, r', ?_, ?_, hr', hR', hw, fun hS => hw.eq hS⟩
  · rw [r.length_rest] at hstep
    exact hstep
  · rw [InStream.rest, hcursor]
    exact InStream.rest_skip_append hrest

/-! ## Parcels -/

section Fields

variable {Γ : Schema} {c : Context} {R : TableRelation} {S : Part → Value → Value → Prop}

/-- A step that is conveyed with whatever is read inside makes a field that comes back. -/
theorem Schema.roundTrips_of_conveys {t : Ty} {v : Value}
    (h : ∀ value, Conveys c (encode Γ t v) StartsValue (decodeStep Γ value t) v)
    (hS : S (.whole t) v v) : Γ.RoundTrips c R S (.whole t) v := by
  have hdecode : Conveys c (encode Γ t v) StartsValue (decode Γ t) v := by
    intro s s' hs hx
    obtain ⟨bytes, happend, hlead, -⟩ := h (decodeWithin Γ 0) s s' hs hx
    refine ⟨bytes, happend, hlead, fun r tail hr hrest => ?_⟩
    obtain ⟨bytes', happend', -, htakes⟩ :=
      h (decodeWithin Γ (2 * r.cursor.remaining + 1)) s s' hs hx
    have hsink : s.sink.append (packed bytes') = s.sink.append (packed bytes) :=
      congrArg OutStream.sink (happend'.symm.trans happend)
    obtain rfl := ByteSink.append_injective hsink
    exact htakes r tail hr hrest
  exact fun depth => .conveys hdecode hS

theorem Schema.roundTrips_scalar {s : Scalar} (hs : s.Readable) (d : Datum)
    (hS : S (.whole (.scalar s)) (.scalar d) (.scalar d)) :
    Γ.RoundTrips c R S (.whole (.scalar s)) (.scalar d) := by
  refine roundTrips_of_conveys (fun value => ?_) hS
  have hwrite := Γ.writePart_scalar s d
  rw [writePart] at hwrite
  rw [hwrite]
  exact (Conveys.scalar hs d).settle fun r _ => rfl

/-- Raw bytes come back. -/
theorem Codec.keeps_blob (c : Context) (bytes : List UInt8) :
    Codec.blob.Keeps c (Value.ofBytes bytes) StartsValue := by
  have hblob : Conveys c (Writer.blob (packed bytes)) StartsValue Reader.blob (packed bytes) := by
    intro s s' hs hx
    obtain ⟨hsize, hspell⟩ := Writer.blob_ok hx
    exact Conveys.spell (Form.startsValue_blob _) (Reader.Takes.blob hsize) s s' hs hspell
  simp only [Codec.Keeps, Codec.blob, Value.bytes?_ofBytes]
  refine hblob.settle fun r _ => ?_
  rw [unpacked_packed]
  rfl

end Fields

namespace Sample

def untracked : TableRelation := fun _ _ _ => True

def asWritten : Part → Value → Value → Prop := fun _ v w => w = v

/-- The last parcel is made of fields that come back: the numbers of its header, its content under a
rule, and the link that is not there. -/
theorem made_lastParcel {item : Item Ty} (hitem : parcels.item? (home ++ "::Parcel") = some item) :
    parcels.Made (parcels.RoundTrips .standard untracked asWritten) item [] lastParcel := by
  have hscalar (s : Scalar) (d : Datum) (hs : s.Readable) :
      parcels.Built (parcels.RoundTrips .standard untracked asWritten) (.whole (.scalar s))
        (.scalar d) :=
    .whole (Schema.roundTrips_scalar hs d rfl)
  have hcontent : parcels.RoundTrips .standard untracked asWritten
      (.rule Codec.blobPath (.vec .u8)) (.ofBytes [0xca, 0xfe]) := by
    intro depth
    exact Carries.conveys (Codec.keeps_blob .standard [0xca, 0xfe]) rfl
  have hnext : parcels.RoundTrips .standard untracked asWritten
      (.whole (.option (.shared parcel))) .absent := by
    refine Schema.roundTrips_of_conveys (fun value => ?_) rfl
    have hpointer : Reader.pointer? value (.shared parcel) =
        some (Reader.sharedValue parcel value) := rfl
    exact Conveys.absentPointer hpointer
  cases hitem
  refine .struct rfl rfl rfl ?_
  change ∀ q ∈ [(Part.fields (type "Header"), Value.list [.scalar (.int 2), .scalar (.int 0)]),
    (.rule Codec.blobPath (.vec .u8), .ofBytes [0xca, 0xfe]),
    (.whole (.option (.shared parcel)), .absent)], parcels.Built _ q.1 q.2
  simp only [List.forall_mem_cons]
  refine ⟨.base rfl rfl ?_, .rule hcontent, .whole hnext, by simp⟩
  change ∀ q ∈ [(Part.whole .u32, Value.scalar (.int 2)), (.whole .u8, .scalar (.int 0))],
    parcels.Built _ q.1 q.2
  simp only [List.forall_mem_cons]
  exact ⟨hscalar _ _ nofun, hscalar _ _ nofun, by simp⟩

theorem compiles_parcel {item : Item Ty} (hitem : parcels.item? (home ++ "::Parcel") = some item) :
    parcels.Compiles (home ++ "::Parcel") item [] := by
  obtain ⟨plan, hplan⟩ : ∃ plan, parcels.plan? (home ++ "::Parcel") = some plan := ⟨_, rfl⟩
  cases hitem
  constructor
  · intro declared hdata
    cases hdata
    decide +kernel
  · intro fields _
    exact nests_parcels hplan (2 ^ 32 - 2)
  · exact fun _ => ⟨List.nodup_nil, .inl nofun⟩
  · exact Nat.zero_le _

end Sample

/-- The last parcel comes back from its bytes, with a byte behind them. -/
theorem exists_alike_lastParcel :
    ∃ s' bytes, encode Sample.parcels Sample.parcel Sample.lastParcel
        (.ofSink .standard .growable none) = .ok () s' ∧
      s'.sink = ByteSink.growable.append (packed bytes) ∧
      ∃ r', decode Sample.parcels Sample.parcel
          (.ofBytes .standard (packed (bytes ++ [5])) 0 none) = .ok Sample.lastParcel r' ∧
        r'.rest = [5] := by
  obtain ⟨_, hs⟩ := ok_of_succeeds
    (x := encode Sample.parcels Sample.parcel Sample.lastParcel)
    (s := .ofSink .standard .growable none) (by decide +kernel)
  obtain ⟨item, hitem, hwriter, hreader⟩ : ∃ item,
      Sample.parcels.item? (Sample.home ++ "::Parcel") = some item ∧
        (∃ code, item.writerCode = .ok code) ∧ ∃ code, item.readerCode = .ok code :=
    ⟨_, rfl, ⟨_, rfl⟩, ⟨_, rfl⟩⟩
  obtain ⟨bytes, hsink, hread⟩ := Schema.Made.exists_alike hitem ⟨hwriter, hreader⟩
    (Sample.compiles_parcel hitem) (Sample.made_lastParcel hitem) rfl hs
  obtain ⟨w, r', hr, hrest, -, -, -, hsame⟩ :=
    hread (.ofBytes .standard (packed (bytes ++ [5])) 0 none) [5] rfl rfl trivial
  rw [hsame fun _ _ _ h => h] at hr
  exact ⟨_, bytes, hs, hsink, r', hr, hrest⟩

end ObjectStream
