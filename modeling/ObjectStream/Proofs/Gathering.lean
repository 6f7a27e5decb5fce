import ObjectStream.Proofs.Composed
import ObjectStream.Proofs.ReadPointer
import ObjectStream.Proofs.Shape
import Mathlib.Data.List.Flatten
import Mathlib.Data.List.Perm.Subperm

/-!
# What a reader gathers

The shared objects that stand in a value are its nodes. A reader makes nodes of
its own only where it completes an object; otherwise it hands over those that it
has read, or found in the table. So whatever relation between two states of a
stream and some nodes the completed objects keep, the reading of every type
keeps. The nodes of a value are a list, so that such a relation may count how
often a node is handed over.
-/

namespace ObjectStream

/-- A pointer to a shared object: the identity, the concrete type and the value of the object. -/
structure Node where
  id : Identity
  type : Ty
  body : Value

namespace Value

mutual

/-- The pointers to shared objects that stand in a value, those in the objects included. -/
def nodes : Value → List Node
  | .list vs => nodesIn vs
  | .present v => nodes v
  | .variant _ vs => nodesIn vs
  | .shared id type body => ⟨id, type, body⟩ :: nodes body
  | .unique _ body => nodes body
  | _ => []

def nodesIn : List Value → List Node
  | [] => []
  | v :: vs => nodes v ++ nodesIn vs

end

theorem nodesIn_eq (vs : List Value) : nodesIn vs = vs.flatMap nodes := by
  induction vs with
  | nil => rfl
  | cons v vs ih => rw [nodesIn, ih, List.flatMap_cons]

theorem nodesIn_append (vs ws : List Value) : nodesIn (vs ++ ws) = nodesIn vs ++ nodesIn ws := by
  simp only [nodesIn_eq, List.flatMap_append]

def nodesOf (v? : Option Value) : List Node := v?.elim [] nodes

end Value

/-- The nodes of an object, itself included. -/
def Shared.nodes (object : Shared) : List Node :=
  (Value.shared object.id object.type object.body).nodes

/-! ## Tables -/

/-- What comes out of the elements of a table is among what comes out of the elements that it was
made of, if that is so where two elements are merged. -/
theorem Table.flatMap_subperm {α β : Type} {R : TableRule α} (kind : TableKind)
    {view : α → List β}
    (hmerge : ∀ old new, (view (R.merge old new)).Subperm (view old ++ view new)) (xs : List α) :
    (((collector R kind).ofList xs).flatMap view).Subperm (xs.flatMap view) := by
  refine closed_ofList R kind (P := fun ys => (ys.flatMap view).Subperm (xs.flatMap view))
    (fun hperm hys => (hperm.symm.flatMap_right view).subperm.trans hys) (fun h => ?_)
    (List.Subperm.refl _)
  rw [List.flatMap_cons, List.flatMap_cons, ← List.append_assoc] at h
  rw [List.flatMap_cons]
  exact ((List.subperm_append_right _).2 (hmerge _ _)).trans h

theorem Value.nodes_keep (kind : TableKind) (old new : Value) :
    (kind.keep old new).nodes.Subperm (old.nodes ++ new.nodes) := by
  cases kind with
  | ordered => exact (List.sublist_append_right _ _).subperm
  | hashed | fastHashed | indexed => exact (List.sublist_append_left _ _).subperm

/-- The nodes of a set are among those of the elements that it was made of. -/
theorem Value.nodes_set (kind : TableKind) (o : KeyOrder) (vs : List Value) :
    (Value.list ((Collector.set kind o).ofList vs)).nodes.Subperm (vs.flatMap nodes) := by
  rw [nodes, nodesIn_eq]
  exact Table.flatMap_subperm kind (nodes_keep kind) vs

/-- The nodes of a map are among those of the entries that it was made of. -/
theorem Value.nodes_map (kind : TableKind) (o : KeyOrder) (ps : List (Value × Value)) :
    (Value.list (((Collector.map kind o).ofList ps).map ofPair)).nodes.Subperm
      (ps.flatMap fun p => (ofPair p).nodes) := by
  rw [nodes, nodesIn_eq, List.flatMap_map]
  refine Table.flatMap_subperm kind (fun old new => ?_) ps
  simp only [ofPair, nodes, nodesIn, List.append_nil]
  have hkept := (nodes_keep kind old.1 new.1).append (List.Subperm.refl new.2.nodes)
  refine hkept.trans ?_
  rw [List.append_assoc, List.append_assoc]
  exact ((List.sublist_append_right _ _).append_left _).subperm

/-- The nodes of some of the values of a list are some of its nodes. -/
theorem Value.nodesIn_subperm {vs ws : List Value} (h : vs.Subperm ws) :
    (nodesIn vs).Subperm (nodesIn ws) := by
  rw [nodesIn_eq, nodesIn_eq]
  obtain ⟨us, hperm, hsub⟩ := h
  exact (hperm.symm.flatMap_right nodes).subperm.trans (List.Sublist.flatMap hsub nodes).subperm

/-- What comes out of a list after an element was set is among what came out of it before and what
comes out of the element. -/
theorem List.flatMap_set_subperm {α β : Type} (f : α → List β) (as : List α) (i : Nat) (a : α) :
    ((as.set i a).flatMap f).Subperm (as.flatMap f ++ f a) := by
  induction as generalizing i with
  | nil => exact List.nil_subperm
  | cons b bs ih =>
      cases i with
      | zero =>
          simp only [List.set_cons_zero, List.flatMap_cons, List.append_assoc]
          refine List.Subperm.trans ?_ (List.sublist_append_right _ _).subperm
          exact List.perm_append_comm.subperm
      | succ i =>
          simp only [List.set_cons_succ, List.flatMap_cons, List.append_assoc]
          exact (List.subperm_append_left _).2 (ih i)

/-! ## Relations that gather nodes -/

/-- A relation between two states of a stream and the nodes at hand in the second that reading
keeps: nodes may be dropped, they may be found in the table or made, and put in the table. -/
structure Gathers (K : InStream → InStream → List Node → Prop) : Prop where
  refl : ∀ r, K r r []
  trans : ∀ {r₀ r r' ns ns'}, K r₀ r ns → K r r' ns' → K r₀ r' (ns ++ ns')
  drop : ∀ {r r' ns ns'}, K r r' ns → ns'.Subperm ns → K r r' ns'
  cursor : ∀ r cursor, K r { r with cursor } []
  noted : ∀ (r : InStream) event, K r (r.noted event) []
  opened : ∀ (r : InStream) tag, K r (r.opened tag) []
  made : ∀ {r r' : InStream} {body : Value} (type : Ty), K r r' body.nodes →
    K r { r' with nextObject := r'.nextObject + 1 } (⟨r'.nextObject, type, body⟩ :: body.nodes)
  put : ∀ {r r'} {object : Shared} tag serial, K r r' object.nodes →
    K r (r'.put tag serial object) object.nodes
  held : ∀ {r : InStream} {serial object}, r.held? serial = some object → K r r object.nodes
  converted : ∀ {r r' : InStream} {tag target upcast} {v : Value},
    r.context.registry.upcast? tag target = some upcast → K r r' v.nodes →
    K r r' (upcast.convert v).nodes

namespace Reader

variable {K : InStream → InStream → List Node → Prop} {α β : Type} {ns ns' : List Node}
  {x : Reader α} {view view' : α → List Node}

/-- How a reader comes out that gathers the nodes in view. -/
def Gathered (K : InStream → InStream → List Node → Prop) (view : α → List Node) (r : InStream) :
    EStateM.Result StreamError InStream α → Prop
  | .ok a r' => K r r' (view a)
  | .error _ r' => K r r' []

/-- With some nodes at hand the reader gathers those in view of what it returns. -/
def Gives (K : InStream → InStream → List Node → Prop) (ns : List Node) (x : Reader α)
    (view : α → List Node) : Prop :=
  ∀ r₀ r, K r₀ r ns → Gathered K view r₀ (x r)

namespace Gives

theorem pure (hK : Gathers K) {a : α} (h : (view a).Subperm ns) :
    Gives K ns (Pure.pure a) view := fun _ _ hr => hK.drop hr h

theorem throw (hK : Gathers K) (e : StreamError) : Gives K ns (MonadExcept.throw e) view :=
  fun _ _ hr => hK.drop hr (List.nil_subperm)

theorem bind {f : α → Reader β} {view' : β → List Node} (hx : Gives K ns x view)
    (hf : ∀ a, Gives K (view a) (f a) view') : Gives K ns (x >>= f) view' := by
  intro r₀ r hr
  have hx := hx r₀ r hr
  simp only [Bind.bind, EStateM.bind]
  cases hres : x r with
  | error e r' =>
      rw [hres] at hx
      exact hx
  | ok a r' =>
      rw [hres] at hx
      exact hf a r₀ r' hx

theorem map {f : α → β} {view' : β → List Node} (hK : Gathers K) (hx : Gives K ns x view)
    (h : ∀ a, (view' (f a)).Subperm (view a)) : Gives K ns (f <$> x) view' := by
  rw [map_eq_pure_bind]
  exact hx.bind fun a => pure hK (h a)

/-- The nodes that were at hand before stay at hand. -/
theorem behind (hK : Gathers K) (hx : Gives K [] x view) :
    Gives K ns x fun a => ns ++ view a := by
  intro r₀ r hr
  have hx := hx r r (hK.refl r)
  cases hres : x r with
  | error e r' =>
      rw [hres] at hx
      exact hK.drop (hK.trans hr hx) (List.nil_subperm)
  | ok a r' =>
      rw [hres] at hx
      exact hK.trans hr hx

theorem of_still (hK : Gathers K) (hx : Still x) : Gives K ns x fun _ => ns := by
  intro r₀ r hr
  obtain ⟨pos, hpos⟩ := hx r
  unfold stateAfter at hpos
  cases hres : x r with
  | error e r' =>
      rw [hres] at hpos
      obtain rfl : r' = _ := hpos
      exact hK.drop (hK.trans hr (hK.cursor r _)) (List.nil_subperm)
  | ok a r' =>
      rw [hres] at hpos
      obtain rfl : r' = _ := hpos
      have hmoved := hK.trans hr (hK.cursor r ⟨r.cursor.data, pos⟩)
      rwa [List.append_nil] at hmoved

theorem head (hK : Gathers K) (hx : Head x) : Gives K ns x fun _ => ns := of_still hK hx.still

theorem context : Gives K ns Reader.context fun _ => ns := fun _ _ hr => hr

theorem ite {P : Prop} [Decidable P] {y : Reader α} (hx : Gives K ns x view)
    (hy : Gives K ns y view) : Gives K ns (if P then x else y) view := by
  split
  · exact hx
  · exact hy

theorem scalar (hK : Gathers K) (s : Scalar) : Gives K [] (Reader.scalar s) fun _ => [] := by
  rcases Head.scalar_cases s with ⟨α, x, f, hx, hread⟩ | ⟨e, hrefused⟩
  · rw [hread]
    exact map hK (head hK hx) fun _ => List.Subperm.refl _
  · rw [hrefused]
    exact throw hK e

theorem errorCode (hK : Gathers K) : Gives K [] Reader.errorCode fun _ => [] := by
  refine (head hK (.arrayHeaderOf 2)).bind fun _ => (head hK (.unsigned .w32)).bind fun place =>
    (head hK (.signed .w32)).bind fun value => context.bind fun c => ?_
  split
  · exact pure hK (List.Subperm.refl _)
  · exact throw hK _

/-! ### Lists -/

theorem each (hK : Gathers K) {read : α → Reader Value} {as : List α}
    (h : ∀ a ∈ as, Gives K [] (read a) Value.nodes) :
    Gives K [] (Reader.each read as) Value.nodesIn := by
  induction as with
  | nil => exact pure hK (List.Subperm.refl _)
  | cons a as ih =>
      rw [List.forall_mem_cons] at h
      refine h.1.bind fun v => (behind hK (ih h.2)).bind fun vs => ?_
      exact pure hK (List.Subperm.refl _)

theorem times (hK : Gathers K) (h : Gives K [] x view) (n : Nat) :
    Gives K [] (Reader.times n x) fun as => as.flatMap view := by
  have honto (n : Nat) (done : List α) :
      Gives K (done.flatMap view) (repeatOnto x n done) fun as => as.flatMap view := by
    induction n generalizing done with
    | zero => exact pure hK ((List.reverse_perm done).flatMap_right view).subperm
    | succ n ih =>
        refine (behind hK h).bind fun v => ?_
        intro r₀ r hr
        exact ih (v :: done) r₀ r (hK.drop hr List.perm_append_comm.subperm)
  exact honto n []

theorem decodeVec (hK : Gathers K) (h : Gives K [] x view) :
    Gives K [] (Reader.decodeVec x) fun as => as.flatMap view :=
  (head hK .arrayHeader).bind fun n => times hK h n

theorem pair (hK : Gathers K) {y z : Reader Value} (hy : Gives K [] y Value.nodes)
    (hz : Gives K [] z Value.nodes) :
    Gives K [] (Reader.pair y z) fun p => (Value.ofPair p).nodes := by
  refine (head hK (.arrayHeaderOf 2)).bind fun _ => hy.bind fun v => (behind hK hz).bind fun w =>
    pure hK ?_
  rw [Value.ofPair, Value.nodes, Value.nodesIn, Value.nodesIn, Value.nodesIn, List.append_nil]

/-! ### Pointers -/

theorem required (hK : Gathers K) (fault : TypeFault) {x : Reader (Option Value)}
    (h : Gives K [] x Value.nodesOf) :
    Gives K [] (Reader.required fault x) Value.nodes := by
  refine h.bind fun v? => ?_
  cases v? with
  | none => exact throw hK _
  | some v => exact pure hK (List.Subperm.refl _)

theorem optionOf (hK : Gathers K) {x : Reader (Option Value)}
    (h : Gives K [] x Value.nodesOf) :
    Gives K [] (Reader.optionOf x) Value.nodes := by
  refine h.bind fun v? => ?_
  cases v? with
  | none => exact pure hK (List.Subperm.refl _)
  | some v => exact pure hK (List.Subperm.refl _)

theorem nilOr (hK : Gathers K) {x : Reader Value} (h : Gives K [] x Value.nodes) :
    Gives K [] (Reader.nilOr x) Value.nodes := by
  refine (of_still hK .peek).bind fun code => ite ?_ ?_
  · exact (head hK .nil).bind fun _ => pure hK (List.Subperm.refl _)
  · exact h.bind fun v => pure hK (List.Subperm.refl _)

variable {read : Ty → Reader Value}

/-- An object of a tag, read with the registry of the stream. -/
theorem build (hK : Gathers K) (h : ∀ t, Gives K [] (read t) Value.nodes) (tag : TypeTag)
    (target : Ty) :
    Gives K ns (Reader.context >>= fun c => Reader.build c.registry tag target read) fun p =>
      ns ++ p.2.nodes := by
  have hbuild (r : InStream) : Gathered K (fun p => p.2.nodes) r
      (Reader.build r.context.registry tag target read r) := by
    cases hupcast : r.context.registry.upcast? tag target with
    | none =>
        unfold Reader.build
        rw [hupcast]
        exact hK.refl r
    | some upcast =>
        rw [build_eq hupcast]
        have hread := (h upcast.source) r _ (hK.noted r (.constructing tag target))
        simp only [Functor.map, EStateM.map]
        cases hres : read upcast.source (r.noted (.constructing tag target)) with
        | error e r' =>
            rw [hres] at hread
            exact hread
        | ok v r' =>
            rw [hres] at hread
            exact hK.converted hupcast hread
  refine behind hK fun r₀ r hr => ?_
  have hbuild := hbuild r
  simp only [Bind.bind, EStateM.bind, Reader.context]
  cases hres : Reader.build r.context.registry tag target read r with
  | error e r' =>
      rw [hres] at hbuild
      exact hK.trans hr hbuild
  | ok p r' =>
      rw [hres] at hbuild
      exact hK.drop (hK.trans hr hbuild) (List.sublist_append_right _ _).subperm

theorem makeShared (hK : Gathers K) (h : ∀ t, Gives K [] (read t) Value.nodes) (tag : TypeTag)
    (target : Ty) : Gives K [] (Reader.makeShared tag target read) Shared.nodes := by
  unfold Reader.makeShared
  rw [← bind_assoc]
  exact (build hK h tag target).bind fun p r₀ r hr => hK.made p.1 hr

theorem fillSlot (hK : Gathers K) (tag : TypeTag) (serial : Nat) (object : Shared) :
    Gives K object.nodes (Reader.fillSlot tag serial object) fun _ => object.nodes := by
  intro r₀ r hr
  rcases fillSlot_cases tag serial object r with ⟨-, hres⟩ | ⟨slot, -, hres⟩ | ⟨-, -, hres⟩
  · rw [hres]
    exact hr
  · have hnoted := hK.trans (hK.put slot.tag serial hr) (hK.noted _ (.decodedObject tag serial))
    rw [List.append_nil] at hnoted
    rw [hres]
    exact hnoted
  · rw [hres]
    exact hK.drop (hK.trans hr (hK.noted r _)) List.nil_subperm

theorem makeTracked (hK : Gathers K) (h : ∀ t, Gives K [] (read t) Value.nodes) (tag : TypeTag)
    (target : Ty) : Gives K [] (Reader.makeTracked tag target read) Shared.nodes := by
  have hopen : Gives K [] (Reader.openSlot tag) fun _ => [] := fun r₀ r hr => by
    rw [openSlot_eq]
    exact hK.trans hr (hK.opened r tag)
  refine hopen.bind fun serial => (makeShared hK h tag target).bind fun object => ?_
  exact (fillSlot hK tag serial object).bind fun _ => pure hK (List.Subperm.refl _)

theorem follow (hK : Gathers K) (tag : TypeTag) (serial : Nat) (target : Ty) :
    Gives K [] (Reader.follow tag serial target) Shared.nodes := by
  intro r₀ r hr
  have hnoted := hK.trans hr (hK.noted r (.resolvedObject tag serial))
  rw [follow_eq]
  cases hslot : r.slots[serial]? with
  | none => exact hr
  | some slot =>
      dsimp only
      split
      · cases hobject : slot.object with
        | none => exact hr
        | some object =>
            dsimp only
            split
            · have hheld := hK.held (InStream.held?_eq_some.2 ⟨slot, hslot, hobject⟩)
              have hnodes := hK.trans (hK.trans hr hheld)
                (hK.noted r (.resolvedObject tag serial))
              rwa [List.append_nil] at hnodes
            · exact hnoted
      · exact hr

theorem sharedBehind (hK : Gathers K) (h : ∀ t, Gives K [] (read t) Value.nodes) (tag : TypeTag)
    (target : Ty) : Gives K [] (Reader.sharedBehind tag target read) Shared.nodes := by
  have htracking : Gives K [] Reader.tracking fun _ => [] := fun _ _ hr => hr
  refine htracking.bind fun _ => ite ((of_still hK .peek).bind fun code => ite ?_ ?_) ?_
  · exact (head hK (.unsigned .w32)).bind fun serial => follow hK tag serial target
  · exact makeTracked hK h tag target
  · exact makeShared hK h tag target

/-- What is behind the tag of a pointer, or nothing if it is the null pointer. -/
theorem behindTag (hK : Gathers K) {X : TypeTag → Reader α} (h : ∀ tag, Gives K [] (X tag) view) :
    Gives K [] (do
      match ← Reader.pointerTag with
      | none => Pure.pure none
      | some tag => some <$> X tag) fun a? => a?.elim [] view := by
  have htag : Gives K [] Reader.pointerTag fun _ => [] := by
    refine (head hK (.arrayHeaderOf 2)).bind fun _ =>
      (head hK (.unsigned .w32)).bind fun tag => ite ?_ ?_
    · exact (head hK .nil).bind fun _ => pure hK (List.Subperm.refl _)
    · exact pure hK (List.Subperm.refl _)
  refine htag.bind fun tag? => ?_
  cases tag? with
  | none => exact pure hK (List.Subperm.refl _)
  | some tag => exact map hK (h tag) fun a => List.Subperm.refl _

theorem sharedValue (hK : Gathers K) (h : ∀ t, Gives K [] (read t) Value.nodes) (target : Ty) :
    Gives K [] (Reader.sharedValue target read) Value.nodesOf := by
  refine (behindTag hK fun tag => sharedBehind hK h tag target).bind fun object? => pure hK ?_
  cases object? with
  | none => exact List.Subperm.refl _
  | some object => exact List.Subperm.refl _

theorem uniqueValue (hK : Gathers K) (h : ∀ t, Gives K [] (read t) Value.nodes) (target : Ty) :
    Gives K [] (Reader.uniqueValue target read) Value.nodesOf := by
  refine (behindTag hK fun tag => build hK h tag target).bind fun p? => pure hK ?_
  cases p? with
  | none => exact List.Subperm.refl _
  | some p => exact List.Subperm.refl _

/-! ### Derived types -/

variable {Γ : Schema} {value fields : Ty → Reader Value}

theorem decodeField (hK : Gathers K) (hforeign : ∀ x, Γ.Foreign x → Gives K [] x Value.nodes)
    (hvalue : ∀ t, Gives K [] (value t) Value.nodes)
    (hfields : ∀ t, Gives K [] (fields t) Value.nodes) (σ : List (String × Ty))
    (field : FieldReader Ty) :
    Gives K [] (ObjectStream.decodeField Γ value fields σ field) Value.nodes := by
  cases field with
  | value t => exact hvalue _
  | fields t => exact hfields _
  | rule path t =>
      simp only [ObjectStream.decodeField]
      cases hrule : Γ.rule? path with
      | some codec => exact hforeign _ (.rule hrule)
      | none => exact throw hK _

theorem decodeFieldList (hK : Gathers K) (hforeign : ∀ x, Γ.Foreign x → Gives K [] x Value.nodes)
    (hvalue : ∀ t, Gives K [] (value t) Value.nodes) (fuel : Nat) (t : Ty) :
    Gives K [] (ObjectStream.decodeFieldList Γ value fuel t) Value.nodes := by
  induction fuel generalizing t with
  | zero => exact throw hK _
  | succ fuel ih =>
      cases t with
      | named name args =>
          simp only [ObjectStream.decodeFieldList]
          split
          · exact map hK (each hK fun field _ => decodeField hK hforeign hvalue ih _ field)
              fun vs => List.Subperm.refl _
          · exact throw hK _
      | _ => exact throw hK _

theorem decodeEntries (hK : Gathers K) {read : FieldReader Ty → Reader Value}
    (h : ∀ field, Gives K [] (read field) Value.nodes) (struct : String)
    (holders : List (Holder Ty)) (n : Nat) (slots : List (Option Value)) :
    Gives K (slots.flatMap Value.nodesOf) (ObjectStream.decodeEntries struct holders read n slots)
      fun slots => slots.flatMap Value.nodesOf := by
  induction n generalizing slots with
  | zero => exact pure hK (List.Subperm.refl _)
  | succ n ih =>
      refine (head hK .str).bind fun key => ?_
      split
      · next i holder _ _ =>
          refine (behind hK (h holder.reader)).bind fun v r₀ r hr => ?_
          exact ih _ r₀ r (hK.drop hr (List.flatMap_set_subperm Value.nodesOf slots i (some v)))
      · exact throw hK _

theorem takeSlots (hK : Gathers K) (ns : List Node) (struct : String) (helds : List Held)
    (slots : List (Option Value)) :
    Gives K (ns ++ slots.flatMap Value.nodesOf) (ObjectStream.takeSlots struct helds slots)
      fun vs => ns ++ Value.nodesIn vs := by
  induction helds generalizing slots ns with
  | nil => exact pure hK ((List.subperm_append_left ns).2 List.nil_subperm)
  | cons held helds ih =>
      cases slots with
      | nil => exact pure hK (List.Subperm.refl _)
      | cons slot slots =>
          cases slot with
          | none => exact throw hK _
          | some v =>
              rw [List.flatMap_cons, ← List.append_assoc]
              refine (ih _ slots).bind fun vs => pure hK ?_
              rw [Value.nodesIn, List.append_assoc]
              exact List.Subperm.refl _

theorem decodeDerived (hK : Gathers K) (hforeign : ∀ x, Γ.Foreign x → Gives K [] x Value.nodes)
    (hvalue : ∀ t, Gives K [] (value t) Value.nodes) (fuel : Nat) (t : Ty)
    (σ : List (String × Ty)) (item : Item Ty) (body : ReaderBody Ty) :
    Gives K [] (ObjectStream.decodeDerived Γ value (ObjectStream.decodeFieldList Γ value fuel) t σ
      item body) Value.nodes := by
  have hfields := decodeFieldList hK hforeign hvalue fuel
  have hfield := decodeField hK hforeign hvalue hfields σ
  cases body with
  | fieldArray struct =>
      exact (head hK .arrayHeader).bind fun count => ite (throw hK _) (hfields t)
  | fieldMap struct n holders result =>
      refine (head hK .mapHeader).bind fun count => ite (throw hK _) ?_
      have hempty : (holders.map fun _ => (none : Option Value)).flatMap Value.nodesOf = [] := by
        rw [List.flatMap_map]
        exact List.flatMap_eq_nil_iff.2 fun _ _ => rfl
      have hentries := decodeEntries hK hfield struct holders count (holders.map fun _ => none)
      rw [hempty] at hentries
      exact hentries.bind fun slots =>
        map hK (takeSlots hK [] struct result.parts slots) fun vs => List.Subperm.refl _
  | discriminant enum names =>
      refine (head hK (.signed .w64)).bind fun number => ?_
      split
      · split
        · exact pure hK (List.Subperm.refl _)
        · exact throw hK _
      · exact throw hK _
  | variantArray enum arms =>
      refine (head hK .arrayHeader).bind fun len => ite (throw hK _) <|
        (head hK (.unsigned .w32)).bind fun index => ?_
      split
      · exact ite (throw hK _) <|
          map hK (each hK fun field _ => hfield field) fun vs => List.Subperm.refl _
      · exact throw hK _

theorem decodeOptional (hK : Gathers K) (hvalue : ∀ t, Gives K [] (value t) Value.nodes)
    (t : Ty) : Gives K [] (ObjectStream.decodeOptional value t) Value.nodes := by
  cases t with
  | option t => exact nilOr hK ((head hK (.arrayHeaderOf 1)).bind fun _ => hvalue _)
  | shared pointee => exact optionOf hK (sharedValue hK hvalue pointee)
  | unique pointee => exact optionOf hK (uniqueValue hK hvalue pointee)
  | _ => exact nilOr hK (hvalue _)

/-- A step of the reading of values gathers nodes if the reading of the values inside does. -/
theorem decodeStep (hK : Gathers K) (hforeign : ∀ x, Γ.Foreign x → Gives K [] x Value.nodes)
    (hvalue : ∀ t, Gives K [] (value t) Value.nodes) (t : Ty) :
    Gives K [] (ObjectStream.decodeStep Γ value t) Value.nodes := by
  have hlist (vs : List Value) : (Value.list vs).nodes.Subperm (vs.flatMap Value.nodes) := by
    rw [Value.nodes, Value.nodesIn_eq]
  induction t using Ty.tuple_induction with
  | tuple ts ih =>
      rw [decodeStep_tuple]
      exact (head hK (.arrayHeaderOf _)).bind fun _ =>
        map hK (each hK ih) fun vs => List.Subperm.refl _
  | other t htuple =>
      cases hcodec : Γ.codec? t with
      | some codec =>
          rw [decodeStep_custom _ hcodec]
          exact hforeign _ (.type hcodec)
      | none =>
          cases t with
          | scalar s => exact map hK (scalar hK s) fun d => List.Subperm.refl _
          | errorCode => exact map hK (errorCode hK) fun code => List.Subperm.refl _
          | tuple ts => exact absurd rfl (htuple ts)
          | array e n =>
              rw [decodeStep_array]
              exact (head hK (.arrayHeaderOf n)).bind fun _ => map hK (times hK (hvalue e) n) hlist
          | seq kind e =>
              by_cases hslice : kind = .slice
              · subst hslice
                exact throw hK _
              · rw [decodeStep_seq _ hslice]
                exact map hK (decodeVec hK (hvalue e)) hlist
          | set kind e =>
              rw [decodeStep_set]
              exact map hK (decodeVec hK (hvalue e)) (Value.nodes_set kind _)
          | map kind k u =>
              rw [decodeStep_map]
              exact map hK (decodeVec hK (pair hK (hvalue k) (hvalue u))) (Value.nodes_map kind _)
          | option inner =>
              rw [decodeStep_option _ hcodec]
              exact decodeOptional hK hvalue inner
          | shared pointee => exact required hK _ (sharedValue hK hvalue pointee)
          | unique pointee => exact required hK _ (uniqueValue hK hvalue pointee)
          | named name args =>
              simp only [ObjectStream.decodeStep, hcodec]
              split
              · exact decodeDerived hK hforeign hvalue _ _ _ _ _
              · exact throw hK _
          | ref target | dyn name | param name => exact throw hK _

/-- The reading of every type gathers nodes, whatever the bound on the depth. -/
theorem decodeWithin (hK : Gathers K) (hforeign : ∀ x, Γ.Foreign x → Gives K [] x Value.nodes)
    (depth : Nat) (t : Ty) : Gives K [] (ObjectStream.decodeWithin Γ depth t) Value.nodes := by
  induction depth generalizing t with
  | zero => exact throw hK _
  | succ depth ih => exact decodeStep hK hforeign ih t

end Gives

end Reader

namespace Schema

/-- Derived types come with no readers. -/
theorem not_foreign_of_derived {types : List (String × Declaration)}
    {order : Ty → KeyOrder}
    (h : ∀ q ∈ types, ∃ item, q.2 = .derived item) (x : Reader Value) :
    ¬ Foreign ⟨types, [], order⟩ x := by
  intro hx
  cases hx with
  | type hcodec =>
      rw [codec?_of_derived h] at hcodec
      cases hcodec
  | rule hrule => cases hrule

/-- Where all types are derived and there is one rule alone, there is no reader but that of the
rule. -/
theorem eq_of_foreign {Γ : Schema} (h : ∀ q ∈ Γ.types, ∃ item, q.2 = .derived item) {only : String}
    {known : Codec} (hrules : Γ.rules = [(only, known)]) {x : Reader Value} (hx : Γ.Foreign x) :
    x = known.read := by
  cases hx with
  | type hcodec =>
      rw [codec?_of_derived h] at hcodec
      cases hcodec
  | rule hrule => rw [eq_of_rule? hrules hrule]

end Schema

end ObjectStream
