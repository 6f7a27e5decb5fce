import ObjectStream.Proofs.Reading

/-!
# Round trip

The reader mirrors the writer on every value of every type, against any heap: by
induction on how the value fits its type, one case for each construction of
types. A value of at most `size` bytes is read within `2 * size + 1` levels of
nesting, and an option within one more, so the bound on the depth is never met.
-/

namespace ObjectStream

variable {Γ : Schema} {c : Context} {H : Heap}

/-- A value of a part is read back within the levels that its bytes allow. A pointer is read back
as one that may be missing as well. -/
structure ReadsBack (Γ : Schema) (c : Context) (H : Heap) (p : Part) (v : Value) : Prop where
  part : ∀ size depth fuel, 2 * size + Schema.levels p ≤ depth → Γ.PartNests fuel p →
    Mirrors Γ c H size (fun seen => v.sightings seen) (Γ.writePart p v)
      (Γ.readPart (decodeWithin Γ depth) fuel p) fun ρ w => Same Γ ρ p v w
  pointer : ∀ t, p = .whole t → ∀ size depth read, 2 * size ≤ depth →
    Reader.pointer? (decodeWithin Γ depth) t = some read →
    Mirrors Γ c H size (fun seen => v.sightings seen) (Γ.writePart p v) read
      fun ρ w? => ∃ w, w? = some w ∧ Same Γ ρ p v w

namespace ReadsBack

variable {p : Part} {t : Ty} {v : Value}

theorem of_step (ht : t.isPointer = false)
    (h : ∀ size depth, 2 * size + Schema.levels (.whole t) ≤ depth + 1 →
      Mirrors Γ c H size (fun seen => v.sightings seen) (Γ.writePart (.whole t) v)
        (decodeStep Γ (decodeWithin Γ depth) t) fun ρ w => Same Γ ρ (.whole t) v w) :
    ReadsBack Γ c H (.whole t) v where
  part size depth fuel hdepth _ := by
    cases depth with
    | zero =>
        have hpos : 0 < Schema.levels (.whole t) := by
          unfold Schema.levels
          split <;> decide
        omega
    | succ depth => exact h size depth hdepth
  pointer t' ht' size depth read _ hread := by
    cases ht'
    cases t with
    | shared pointee | unique pointee => cases ht
    | _ => cases hread

/-- A part behind a header has fewer bytes, and so enough levels one level further down. -/
theorem behind (h : ReadsBack Γ c H p v) {n size depth fuel : Nat} (hn : n < size)
    (hdepth : 2 * size ≤ depth) (hfuel : Γ.PartNests fuel p) :
    Mirrors Γ c H n (fun seen => v.sightings seen) (Γ.writePart p v)
      (Γ.readPart (decodeWithin Γ depth) fuel p) fun ρ w => Same Γ ρ p v w :=
  h.part n depth fuel (by have := Schema.levels_le p; omega) hfuel

theorem whole_behind (h : ReadsBack Γ c H (.whole t) v) {n size depth : Nat} (hn : n < size)
    (hdepth : 2 * size ≤ depth) :
    Mirrors Γ c H n (fun seen => v.sightings seen) (Γ.writePart (.whole t) v)
      (decodeWithin Γ depth t) fun ρ w => Same Γ ρ (.whole t) v w :=
  h.part n depth 0 (by have := Schema.levels_le (.whole t); omega) trivial

theorem list {ps : List Part} {vs : List Value} (hparts : Γ.parts (.whole t) vs.length = some ps)
    (hw : ∀ q ∈ ps.zip vs, WritesOut Γ c H q.1 q.2)
    (h : ∀ q ∈ ps.zip vs, ReadsBack Γ c H q.1 q.2) : ReadsBack Γ c H (.whole t) (.list vs) := by
  have hlen := Schema.length_parts hparts
  obtain ⟨hlevel, hpointer, hnests⟩ := Schema.parts_whole hparts
  refine of_step hpointer fun size depth hdepth => ?_
  rw [hlevel] at hdepth
  have hread (depth : Nat) (hdepth : 2 * size ≤ depth) (n : Nat) (hn : n < size)
      (q : Part × Value) (hq : q ∈ ps.zip vs) :
      Mirrors Γ c H n (fun seen => q.2.sightings seen) (Γ.writePart q.1 q.2)
        (Γ.readPart (decodeWithin Γ depth) 0 q.1) fun ρ w => Same Γ ρ q.1 q.2 w :=
    (h q hq).behind hn hdepth (hnests 0 q.1 (List.of_mem_zip hq).1)
  have hsame (ρ : Renaming) (ws : List Value) (hall : SameAll Γ ρ ps vs ws) :
      Same Γ ρ (.whole t) (.list vs) (.list ws) := .list hparts hall.1 hall.2
  simp only [Value.sightings]
  rw [Schema.writePart_list hparts]
  cases t with
  | tuple ts =>
      simp only [Schema.parts] at hparts
      split at hparts
      · next hcount =>
          cases hparts
          rw [decodeStep_tuple, ← hcount]
          -- the parts of a tuple are read where the tuple is
          refine Mirrors.headed (Conveys.arrayHeaderOf _) _ hlen hw (hread (depth + 1) (by omega))
            Value.list ?_ hsame
          rw [Reader.each_map]
          rfl
      · cases hparts
  | array e n =>
      simp only [Schema.parts] at hparts
      split at hparts
      · next hcount =>
          subst hcount
          cases hparts
          rw [decodeStep_array]
          refine Mirrors.headed (Conveys.arrayHeaderOf _) _ hlen hw (hread depth (by omega))
            Value.list ?_ hsame
          rw [Reader.times_eq Γ _ 0]
      · cases hparts
  | seq kind e =>
      have hslice : kind ≠ .slice := by
        rintro rfl
        cases hparts
      have hreplicate : ps = List.replicate vs.length (.whole e) := by
        cases kind <;> cases hparts <;> rfl
      subst hreplicate
      rw [decodeStep_seq _ hslice, Reader.decodeVec, map_bind]
      refine Mirrors.headed (Conveys.arrayHeader _) _ hlen hw (hread depth (by omega))
        Value.list ?_ hsame
      rw [Reader.times_eq Γ _ 0]
  | _ => cases hparts

section Structs

variable {name : String} {args : List Ty} {item : Item Ty} {asMap : Bool}
  {fields : List (MarkedField Ty)} {vs : List Value}

theorem fieldList (hplan : Γ.plan? name = some (item, .struct asMap fields))
    (hlen : vs.length = fields.length)
    (hw : ∀ q ∈ (fields.map (MarkedField.part (Schema.arguments item args))).zip vs,
      WritesOut Γ c H q.1 q.2)
    (h : ∀ q ∈ (fields.map (MarkedField.part (Schema.arguments item args))).zip vs,
      ReadsBack Γ c H q.1 q.2) :
    ReadsBack Γ c H (.fields (.named name args)) (.list vs) where
  pointer := nofun
  part size depth fuel hdepth hfuel := by
    have hparts : Γ.parts (.fields (.named name args)) vs.length =
        some (fields.map (MarkedField.part (Schema.arguments item args))) := by
      simp only [Schema.parts, hplan, hlen, if_true]
    cases fuel with
    | zero => cases hfuel
    | succ fuel =>
        simp only [Value.sightings]
        rw [Schema.writePart_fields hplan, Schema.readPart, Schema.decodeFieldList_struct _ _ hplan]
        refine (Mirrors.parts _ (by simp [hlen])
          (fun q hq => (hw q hq).imp fun _ _ => trivial) fun q hq => ?_).map Value.list
          fun ρ ws hall => .list hparts hall.1 hall.2
        have hlevels := Schema.levels_le q.1
        exact (h q hq).part size depth fuel (by simp only [Schema.levels] at hdepth; omega)
          (Schema.partNests_of_nests hplan hfuel (List.of_mem_zip hq).1)

/-- A struct framed as an array is its header and its fields. -/
theorem arrayStruct (hΓ : Γ.WellFormed) (hplan : Γ.plan? name = some (item, .struct false fields))
    (hlen : vs.length = fields.length)
    (hw : ∀ q ∈ (fields.map (MarkedField.part (Schema.arguments item args))).zip vs,
      WritesOut Γ c H q.1 q.2)
    (h : ∀ q ∈ (fields.map (MarkedField.part (Schema.arguments item args))).zip vs,
      ReadsBack Γ c H q.1 q.2) :
    ReadsBack Γ c H (.whole (.named name args)) (.list vs) := by
  refine of_step rfl fun size depth hdepth => ?_
  simp only [Schema.levels] at hdepth
  obtain ⟨fuel, hfuel⟩ := Schema.exists_baseDepth
  have hnests := hΓ.bases name args item false fields hplan
  simp only [Value.sightings]
  rw [Schema.writePart_struct hplan, Schema.decodeStep_struct _ hplan, if_neg Bool.false_ne_true,
    if_neg Bool.false_ne_true, Schema.writtenFieldCount_eq]
  rw [hfuel] at hnests ⊢
  refine Mirrors.headed (Conveys.arrayHeader _) (Γ.readPart (decodeWithin Γ depth) fuel)
    (by simp [hlen]) hw (fun n hn q hq => ?_) Value.list ?_
    fun ρ ws hall => .struct hplan hall.1 hall.2
  · exact (h q hq).behind hn (by omega)
      (Schema.partNests_of_nests hplan hnests (List.of_mem_zip hq).1)
  · rw [if_pos rfl, Schema.decodeFieldList_struct _ _ hplan]

/-- A struct framed as a map is its header and an entry for each field. -/
theorem mapStruct (hΓ : Γ.WellFormed) (hplan : Γ.plan? name = some (item, .struct true fields))
    (hlen : vs.length = fields.length)
    (hw : ∀ q ∈ (fields.map (MarkedField.part (Schema.arguments item args))).zip vs,
      WritesOut Γ c H q.1 q.2)
    (h : ∀ q ∈ (fields.map (MarkedField.part (Schema.arguments item args))).zip vs,
      ReadsBack Γ c H q.1 q.2) :
    ReadsBack Γ c H (.whole (.named name args)) (.list vs) := by
  refine of_step rfl fun size depth hdepth => ?_
  simp only [Schema.levels] at hdepth
  have hbase := Item.hasBase_of_plan (Schema.plan_of_plan? hplan)
  have hw' (q : Part × Value)
      (hq : q ∈ (fields.map (MarkedField.part (Schema.arguments item args))).zip vs) :
      Writes c H (fun seen => q.2.sightings seen) (fun _ => True) (Γ.writePart q.1 q.2) :=
    (hw q hq).imp fun _ _ => trivial
  have hentries : Writes c H (fun seen => Value.sightingsIn seen vs) (fun _ => True)
      (Γ.writeEntries (fields.map (Schema.entry (Schema.arguments item args))) vs) :=
    Writes.entries (by simp [hlen]) (by rw [List.map_map]; exact hw')
  simp only [Value.sightings]
  rw [Schema.writePart_struct hplan, Schema.decodeStep_struct _ hplan, if_pos rfl, if_pos rfl]
  refine Mirrors.behind (Conveys.mapHeader _) hentries fun n hn => ?_
  rw [if_pos rfl]
  have hkeys : (([] ++ fields).map MarkedField.key).Nodup := hΓ.keys name item fields hplan
  have hdone : ([] : List Value).length = ([] : List (MarkedField Ty)).length := rfl
  have hslots := Mirrors.entries item.name.name (decodeWithin Γ depth) Schema.baseDepth
    (Schema.arguments item args) hkeys hdone hlen hw' fun q hq =>
      (h q hq).behind hn (by omega) (Schema.partNests_of_hasBase hbase _ (List.of_mem_zip hq).1)
  refine Mirrors.settle hslots (fun slots r => ?_) fun ρ slots hfull => ?_
  · rcases takeSlots_stays item.name.name (fields.map MarkedField.held) slots r with
      ⟨ws, hws⟩ | ⟨e, he⟩
    · refine .inl ⟨.list ws, ?_⟩
      simp only [Functor.map, EStateM.map, hws]
    · refine .inr ⟨e, ?_⟩
      simp only [Functor.map, EStateM.map, he]
  · obtain ⟨ws, rfl, hall⟩ := hfull
    refine ⟨.list ws, fun r => ?_, .struct hplan hall.1 hall.2⟩
    have hslots : (fields.map MarkedField.held).length = ws.length := by
      rw [List.length_map, hall.1, hlen]
    have htake := takeSlots_some item.name.name hslots r
    simp only [List.nil_append, Functor.map, EStateM.map, htake]

end Structs

section Tables

variable {kind : TableKind} {vs : List Value} {entries : List (Value × Value)}

theorem set (hlists : kind.Lists (Γ.order t) vs) (hv : ∀ v ∈ vs, Fits Γ c H true (.whole t) v)
    (hw : ∀ v ∈ vs, WritesOut Γ c H (.whole t) v) (h : ∀ v ∈ vs, ReadsBack Γ c H (.whole t) v) :
    ReadsBack Γ c H (.whole (.set kind t)) (.list vs) := by
  refine of_step rfl fun size depth hdepth => ?_
  simp only [Schema.levels] at hdepth
  simp only [Value.sightings]
  rw [Schema.writePart_set, decodeStep_set, Reader.decodeVec, map_bind]
  refine Mirrors.headed (Conveys.arrayHeader _) (Γ.readPart (decodeWithin Γ depth) 0) (by simp)
    (fun q hq => ?_) (fun n hn q hq => ?_)
    (fun us => .list ((Collector.set kind (Γ.order t)).ofList us)) ?_ fun ρ us hall => ?_
  · obtain ⟨hp, hmem⟩ := mem_zip_replicate hq
    rw [hp]
    exact hw q.2 hmem
  · obtain ⟨hp, hmem⟩ := mem_zip_replicate hq
    rw [hp]
    exact (h q.2 hmem).whole_behind hn (by omega)
  · rw [Reader.times_eq Γ _ 0]
  · obtain ⟨hlen, hsame⟩ := hall.of_replicate
    have hkeys : us.map Value.erase = vs.map Value.erase :=
      map_eq_of_zip _ vs rfl hlen fun q hq =>
        Same.erase (hv q.2.1 (List.of_mem_zip (List.of_mem_zip hq).2).1)
          (hsame q.2 (List.of_mem_zip hq).2)
    have hlists' := TableKind.lists_of_erase hlists hkeys
    obtain ⟨hperm, heq⟩ := Table.ofList_of_lists (R := .ofSet kind (Γ.order t)) kind id
      (fun _ _ => rfl) (by rwa [List.map_id])
    exact .set hlen hsame hperm heq

theorem pair {u : Ty} {e : Value × Value} (hwkey : WritesOut Γ c H (.whole t) e.1)
    (hwvalue : WritesOut Γ c H (.whole u) e.2) (hk : ReadsBack Γ c H (.whole t) e.1)
    (hv : ReadsBack Γ c H (.whole u) e.2) :
    ReadsBack Γ c H (.whole (.tuple [t, u])) (.ofPair e) := by
  have hparts : Γ.parts (.whole (.tuple [t, u])) 2 = some [.whole t, .whole u] := rfl
  refine list hparts ?_ ?_ <;>
    simp only [List.zip_cons_cons, List.zip_nil_right, List.forall_mem_cons]
  · exact ⟨hwkey, hwvalue, by simp⟩
  · exact ⟨hk, hv, by simp⟩

/-- Entries that are read back are pairs, with keys that are read back. -/
theorem entries_of_same {ρ : Renaming} {u : Ty} {us : List Value}
    (hkey : ∀ e ∈ entries, Fits Γ c H true (.whole t) e.1) (hlen : us.length = entries.length)
    (hsame : ∀ q ∈ (entries.map Value.ofPair).zip us,
      Same Γ ρ (.whole (.tuple [t, u])) q.1 q.2) :
    (us.map Value.toPair).map .ofPair = us ∧
      ((us.map Value.toPair).map Prod.fst).map Value.erase =
        (entries.map Prod.fst).map Value.erase := by
  induction entries generalizing us with
  | nil =>
      obtain rfl := List.eq_nil_of_length_eq_zero hlen
      exact ⟨rfl, rfl⟩
  | cons e es ih =>
      obtain ⟨w, ws, rfl⟩ := List.exists_cons_of_length_eq_add_one hlen
      rw [List.forall_mem_cons] at hkey
      rw [List.map_cons, List.zip_cons_cons, List.forall_mem_cons] at hsame
      obtain ⟨hentries, hkeys⟩ := ih hkey.2 (Nat.succ.inj hlen) hsame.2
      obtain ⟨p, rfl, hk, -⟩ := hsame.1.exists_pair
      exact ⟨congrArg (_ :: ·) hentries, List.cons_eq_cons.2 ⟨Same.erase hkey.1 hk, hkeys⟩⟩

theorem map {u : Ty}
    (hlists : kind.Lists (Γ.order t) (entries.map Prod.fst))
    (hkey : ∀ e ∈ entries, Fits Γ c H true (.whole t) e.1)
    (hwkey : ∀ e ∈ entries, WritesOut Γ c H (.whole t) e.1)
    (hwvalue : ∀ e ∈ entries, WritesOut Γ c H (.whole u) e.2)
    (hk : ∀ e ∈ entries, ReadsBack Γ c H (.whole t) e.1)
    (hv : ∀ e ∈ entries, ReadsBack Γ c H (.whole u) e.2) :
    ReadsBack Γ c H (.whole (.map kind t u)) (.list (entries.map .ofPair)) := by
  refine of_step rfl fun size depth hdepth => ?_
  simp only [Schema.levels] at hdepth
  simp only [Value.sightings]
  rw [Schema.writePart_map, decodeStep_map, Reader.decodeVec, map_bind]
  refine Mirrors.headed (Conveys.arrayHeader _)
    (fun _ => Value.ofPair <$> Reader.pair (decodeWithin Γ depth t) (decodeWithin Γ depth u))
    (by simp) (fun q hq => ?_) (fun n hn q hq => ?_)
    (fun us =>
      .list (((Collector.map kind (Γ.order t)).ofList (us.map Value.toPair)).map .ofPair)) ?_
    fun ρ us hall => ?_
  · obtain ⟨hp, hmem⟩ := mem_zip_replicate hq
    obtain ⟨e, he, heq⟩ := List.mem_map.1 hmem
    rw [hp, ← heq]
    exact WritesOut.pair (hwkey e he) (hwvalue e he)
  · obtain ⟨hp, hmem⟩ := mem_zip_replicate hq
    obtain ⟨e, he, heq⟩ := List.mem_map.1 hmem
    obtain ⟨d, rfl⟩ : ∃ d, depth = d + 1 := ⟨depth - 1, by omega⟩
    have hread : decodeWithin Γ (d + 1) (.tuple [t, u]) = _ :=
      decodeStep_pair (decodeWithin Γ d) t u
    rw [hp, ← heq]
    have hdepth : 2 * size ≤ d + 1 := by omega
    have hback := (pair (hwkey e he) (hwvalue e he) (hk e he) (hv e he)).whole_behind hn hdepth
    rwa [hread] at hback
  · have hpairs (ps : List (Value × Value)) : (ps.map Value.ofPair).map Value.toPair = ps := by
      rw [List.map_map]
      exact List.map_id _
    have htimes := Reader.times_map Value.ofPair
      (Reader.pair (decodeWithin Γ depth t) (decodeWithin Γ depth u)) entries.length
    rw [List.length_map, Reader.each_const, htimes, Functor.map_map]
    simp only [hpairs]
  · obtain ⟨hlen, hsame⟩ := hall.of_replicate
    obtain ⟨hentries, hkeys⟩ := entries_of_same hkey (by simpa using hlen) hsame
    obtain ⟨hperm, heq⟩ := Table.ofList_of_lists (R := .ofMap kind (Γ.order t)) kind
      Prod.fst (fun _ _ => rfl) (TableKind.lists_of_erase hlists hkeys)
    refine .map hlen hsame ?_ fun hhashed => ?_
    · have hmapped := hperm.map Value.ofPair
      rwa [hentries] at hmapped
    · have hmapped := congrArg (List.map Value.ofPair) (heq hhashed)
      rwa [hentries] at hmapped

end Tables

section Options

theorem absent (hcodec : Γ.codec? (.option t) = none) :
    ReadsBack Γ c H (.whole (.option t)) .absent := by
  refine of_step rfl fun size depth _ => ?_
  simp only [Value.sightings]
  rw [Schema.writePart_absent hcodec, encodeAbsent, decodeStep_option _ hcodec]
  cases hpointer : Reader.pointer? (decodeWithin Γ depth) t with
  | some read =>
      have hisPointer : t.isPointer = true := by cases t <;> first | rfl | cases hpointer
      rw [decodeOptional_pointer hpointer, hisPointer]
      exact Mirrors.conveys (Conveys.absentPointer hpointer) fun _ => .absent
  | none =>
      have hisPointer : t.isPointer = false := by cases t <;> first | rfl | cases hpointer
      rw [hisPointer]
      cases t with
      | shared pointee | unique pointee => cases hpointer
      | _ => exact Mirrors.conveys (Conveys.absentOther _) fun _ => .absent

/-- A value that is not written like nil can be told from nil. -/
theorem writes_startsValue (hoption : t.isOption = false)
    (hcodec : Γ.codec? (.option t) = none) (hw : WritesOut Γ c H (.whole t) v) :
    Writes c H (fun seen => v.sightings seen) StartsValue (Γ.writePart (.whole t) v) :=
  hw.imp fun _ h => h.2 (Schema.codec?_of_option hcodec hoption) hoption

theorem present {key : Bool} (hcodec : Γ.codec? (.option t) = none)
    (hv : Fits Γ c H key (.whole t) v) (hw : WritesOut Γ c H (.whole t) v)
    (h : ReadsBack Γ c H (.whole t) v) : ReadsBack Γ c H (.whole (.option t)) (.present v) := by
  refine of_step rfl fun size depth hdepth => ?_
  simp only [Schema.levels] at hdepth
  have hpresent (ρ : Renaming) (w : Value)
      (hw : ∃ w', w = .present w' ∧ Same Γ ρ (.whole t) v w') :
      Same Γ ρ (.whole (.option t)) (.present v) w := by
    obtain ⟨w', rfl, hsame⟩ := hw
    exact .present hcodec hsame
  simp only [Value.sightings]
  rw [Schema.writePart_present v hcodec hv.deref, decodeStep_option _ hcodec]
  cases hoption : t.isOption with
  | true =>
      -- an option within an option has a frame of its own
      cases t with
      | option t =>
          refine (Mirrors.nilOr (Writes.behind (Conveys.arrayHeader 1) hw) ?_).imp hpresent
          exact Mirrors.behind (Conveys.arrayHeaderOf 1) hw fun n hn =>
            h.whole_behind hn (by omega)
      | _ => cases hoption
  | false =>
      cases hpointer : Reader.pointer? (decodeWithin Γ depth) t with
      | some read =>
          rw [decodeOptional_pointer hpointer]
          refine (Mirrors.optionOf (h.pointer t rfl size depth read (by omega) hpointer)).imp
            fun ρ w hw => hpresent ρ w hw
      | none =>
          have hisPointer : t.isPointer = false := by cases t <;> first | rfl | cases hpointer
          rw [decodeOptional_other hisPointer hoption]
          refine (Mirrors.nilOr (writes_startsValue hoption hcodec hw) ?_).imp hpresent
          have hlevels : Schema.levels (.whole t) = 1 := by
            cases t <;> first | rfl | cases hoption
          exact h.part size depth 0 (by omega) trivial

end Options

section Enums

variable {name : String} {args : List Ty} {item : Item Ty} {index : Nat}

theorem bare (hΓ : Γ.WellFormed) (hplan : Γ.plan? name = some (item, .bare))
    (hindex : index < item.variants.length) :
    ReadsBack Γ c H (.whole (.named name args)) (.variant index []) := by
  refine of_step rfl fun size depth _ => ?_
  simp only [Value.sightings, Value.sightingsIn]
  exact Mirrors.conveys (Conveys.bare _ hplan (hΓ.discriminants name item hplan) hindex)
    fun _ => .bare hplan

theorem variant (hΓ : Γ.WellFormed) {fieldss : List (List (MarkedField Ty))}
    {fields : List (MarkedField Ty)} {vs : List Value}
    (hplan : Γ.plan? name = some (item, .variants fieldss))
    (hfields : fieldss[index]? = some fields)
    (hlen : vs.length = fields.length)
    (hw : ∀ q ∈ (fields.map (MarkedField.part (Schema.arguments item args))).zip vs,
      WritesOut Γ c H q.1 q.2)
    (h : ∀ q ∈ (fields.map (MarkedField.part (Schema.arguments item args))).zip vs,
      ReadsBack Γ c H q.1 q.2) :
    ReadsBack Γ c H (.whole (.named name args)) (.variant index vs) := by
  refine of_step rfl fun size depth hdepth => ?_
  simp only [Schema.levels] at hdepth
  have hlt := (List.getElem?_eq_some_iff.1 hfields).1
  have hindex : index < 2 ^ 32 := Nat.lt_of_lt_of_le hlt (hΓ.places _ _ _ hplan)
  obtain ⟨v, hv, hmarked⟩ := Schema.exists_variantFields hplan hfields
  obtain ⟨hassembled, hbase⟩ := Item.marked_of_variant hmarked
  have hparts := Writes.headed (Γ := Γ) (H := H)
    (Conveys.unsigned (c := c) (IntWidth.holdsUnsigned_of_lt hindex)) (by simp [hlen]) hw
  simp only [Value.sightings]
  rw [Schema.writePart_variant rfl hplan hfields, Schema.decodeStep_variants _ hplan]
  refine Mirrors.behind (Conveys.arrayHeader _) hparts fun n hn => ?_
  rw [if_neg (by omega)]
  refine Mirrors.headed (Conveys.unsigned (IntWidth.holdsUnsigned_of_lt hindex))
    (Γ.readPart (decodeWithin Γ depth) Schema.baseDepth) (by simp [hlen]) hw
    (fun m hm q hq => (h q hq).behind (by omega : m < size) (by omega)
      (Schema.partNests_of_hasBase hbase _ (List.of_mem_zip hq).1))
    (Value.variant index) ?_ fun ρ ws hws => .variant hplan hfields hws.1 hws.2
  have hresult := Item.parts_assemble hassembled MarkedField.reader
  simp only [Item.find?_arms hv hfields, Item.readArmOf, hresult, Reader.each_fields]
  rw [if_neg (by omega)]

end Enums

section Pointers

variable {id : Identity} {pointee type : Ty} {body : Value}

theorem of_pointer (hlevels : Schema.levels (.whole t) = 1)
    (hpointer : ∀ value, (Reader.pointer? value t).isSome = true)
    (h : ∀ size depth read, 2 * size ≤ depth →
      Reader.pointer? (decodeWithin Γ depth) t = some read →
      Mirrors Γ c H size (fun seen => v.sightings seen) (Γ.writePart (.whole t) v) read
        fun ρ w? => ∃ w, w? = some w ∧ Same Γ ρ (.whole t) v w) :
    ReadsBack Γ c H (.whole t) v where
  part size depth fuel hdepth _ := by
    rw [hlevels] at hdepth
    cases depth with
    | zero => omega
    | succ depth =>
        obtain ⟨read, hread⟩ := Option.isSome_iff_exists.1 (hpointer (decodeWithin Γ depth))
        obtain ⟨fault, hstep⟩ := decodeStep_pointer (Γ := Γ) hread
        rw [Schema.readPart_whole, hstep]
        exact Mirrors.required fault (h size depth read (by omega) hread)
  pointer t' ht' size depth read hdepth hread := by
    cases ht'
    exact h size depth read hdepth hread

theorem shared (hc : c.WellFormed) (hheap : H id = ⟨pointee, type, body⟩)
    (hmakes : c.registry.Makes type pointee)
    (hfree : ∀ seen, id ∉ body.sightings seen)
    (hw : WritesOut Γ c H (.whole type) body) (h : ReadsBack Γ c H (.whole type) body) :
    ReadsBack Γ c H (.whole (.shared pointee)) (.shared id type body) := by
  refine of_pointer rfl (fun _ => rfl) fun size depth read hdepth hread => ?_
  cases hread
  have hshared := Mirrors.sharedValue hc hheap hmakes (fun _ hb => hb.1) hw hfree
    fun n (hn : n < size) => h.whole_behind hn hdepth
  simp only [Value.sightings]
  rw [Schema.writePart_shared]
  refine hshared.of_ok fun s s' _ hx => ?_
  split at hx
  · exact hx
  · cases hx

theorem unique (hc : c.WellFormed) (hmakes : c.registry.Makes type pointee)
    (hw : WritesOut Γ c H (.whole type) body) (h : ReadsBack Γ c H (.whole type) body) :
    ReadsBack Γ c H (.whole (.unique pointee)) (.unique type body) := by
  refine of_pointer rfl (fun _ => rfl) fun size depth read hdepth hread => ?_
  cases hread
  have hunique := Mirrors.uniqueValue hc hmakes hw
    fun n (hn : n < size) => h.whole_behind hn hdepth
  simp only [Value.sightings]
  rw [Schema.writePart_unique]
  refine hunique.of_ok fun s s' _ hx => ?_
  split at hx
  · exact hx
  · cases hx

end Pointers

end ReadsBack

/-- A typed value is read back. -/
theorem Fits.readsBack (hc : c.WellFormed) (hΓ : Γ.WellFormed) {key : Bool} {p : Part} {v : Value}
    (h : Fits Γ c H key p v) : ReadsBack Γ c H p v := by
  induction h with
  | @scalar key s d hs hholds =>
      refine .of_step rfl fun size depth _ => ?_
      simp only [Value.sightings, decodeStep, Schema.codec?]
      rw [Schema.writePart_scalar]
      exact (Mirrors.conveys (Q := fun _ e => e = d) (Conveys.scalar hs d) fun _ => rfl).map
        Value.scalar fun ρ e he => he ▸ .scalar
  | @errorCode key code hvalue =>
      refine .of_step rfl fun size depth _ => ?_
      obtain ⟨code', hsame, hconveys⟩ := Conveys.errorCode hc.places hvalue
      simp only [Value.sightings, decodeStep, Schema.codec?]
      rw [Schema.writePart_errorCode]
      exact (Mirrors.conveys (Q := fun _ e => e = code') hconveys fun _ => rfl).map
        Value.errorCode fun ρ e he => he ▸ .errorCode hsame
  | @list key p ps vs hparts hfits ih =>
      have hw (q : Part × Value) (hq : q ∈ ps.zip vs) := (hfits q hq).writes hc hΓ
      cases p with
      | whole t => exact .list hparts hw ih
      | fields t =>
          obtain ⟨name, args, item, asMap, fields, rfl, hplan, rfl⟩ :=
            Schema.plan_of_parts_fields hparts
          have hlen := Schema.length_parts hparts
          exact .fieldList hplan (by rw [← hlen, List.length_map]) hw ih
      | rule path t => cases hparts
  | @struct key name args item asMap fields vs hplan hlen hfits ih =>
      have hw (q : Part × Value)
          (hq : q ∈ (fields.map (MarkedField.part (Schema.arguments item args))).zip vs) :=
        (hfits q hq).writes hc hΓ
      cases asMap with
      | true => exact .mapStruct hΓ hplan hlen hw ih
      | false => exact .arrayStruct hΓ hplan hlen hw ih
  | set _ hlists hfits ih =>
      exact .set hlists hfits (fun v hv => (hfits v hv).writes hc hΓ) ih
  | map _ hlists hkeys hvalues ihk ihv =>
      exact .map hlists hkeys (fun e he => (hkeys e he).writes hc hΓ)
        (fun e he => (hvalues e he).writes hc hΓ) ihk ihv
  | absent hcodec => exact .absent hcodec
  | present hcodec hfits ih => exact .present hcodec hfits (hfits.writes hc hΓ) ih
  | bare hplan hindex => exact .bare hΓ hplan hindex
  | variant hplan hfields hlen hfits ih =>
      exact .variant hΓ hplan hfields hlen (fun q hq => (hfits q hq).writes hc hΓ) ih
  | shared hheap hmakes hfits ih =>
      exact .shared hc hheap hmakes (hfits.not_sighted hheap) (hfits.writes hc hΓ) ih
  | unique hmakes hfits ih => exact .unique hc hmakes (hfits.writes hc hΓ) ih
  | @custom key t codec v hcodec hkeeps hplain =>
      have hpointer : t.isPointer = false := by cases t <;> first | rfl | cases hcodec
      refine .of_step hpointer fun size depth _ => ?_
      simp only [hplain]
      rw [Schema.writePart_custom hcodec, decodeStep_custom _ hcodec]
      exact Mirrors.conveys hkeeps fun _ => .custom hcodec
  | @rule key path t codec v hrule hkeeps hplain =>
      constructor
      · intro size depth fuel _ _
        simp only [hplain]
        rw [Schema.writePart_rule hrule]
        simp only [Schema.readPart, hrule]
        exact Mirrors.conveys hkeeps fun _ => .rule
      · rintro t ⟨⟩

end ObjectStream
