import ObjectStream.Proofs.Gathering
import Mathlib.Data.List.Nodup
import Mathlib.Logic.Relation

/-!
# The objects that a stream has made

An object is made from what was read before it, and gets the next identity. So
the objects that a stream hands over are those of a heap in which every identity
stands for one object and every object leads to older ones only, and what is
handed over has no cycles.
-/

namespace ObjectStream

/-- Objects of which each has an identity of its own, below the next one of the stream, and refers
to older ones among them only. The table of the stream holds none but them. -/
structure InStream.Backed (r : InStream) (heap : List Node) : Prop where
  distinct : (heap.map Node.id).Nodup
  fresh : ∀ n ∈ heap, n.id < r.nextObject
  older : ∀ n ∈ heap, ∀ m ∈ n.body.nodes, m ∈ heap ∧ m.id < n.id
  table : ∀ serial object, r.held? serial = some object → object.nodes ⊆ heap

/-- A conversion makes no pointers: those of what it returns are pointers of what it is given. -/
def Registry.Converts (r : Registry) : Prop :=
  ∀ tag target upcast, r.upcast? tag target = some upcast →
    ∀ v, (upcast.convert v).nodes ⊆ v.nodes

/-- Whatever objects backed the first of two states of a stream, they back the second after some
were added, and the nodes at hand are among them. -/
def Backs (c : Context) (r r' : InStream) (ns : List Node) : Prop :=
  r.context = c → r'.context = c ∧ ∀ heap, r.Backed heap →
    ∃ heap', heap ⊆ heap' ∧ r'.Backed heap' ∧ ns ⊆ heap'

namespace InStream.Backed

variable {r r' : InStream} {heap : List Node}

/-- A state with no other table and no smaller next identity is backed as well. -/
theorem of_held (h : r.Backed heap)
    (hheld : ∀ serial object, r'.held? serial = some object → r.held? serial = some object)
    (hnext : r.nextObject ≤ r'.nextObject) : r'.Backed heap where
  distinct := h.distinct
  fresh n hn := Nat.lt_of_lt_of_le (h.fresh n hn) hnext
  older := h.older
  table serial object hobject := h.table serial object (hheld serial object hobject)

/-- An object made from nodes of the heap joins it. -/
theorem made (h : r.Backed heap) {type : Ty} {body : Value} (hbody : body.nodes ⊆ heap) :
    Backed { r with nextObject := r.nextObject + 1 } (⟨r.nextObject, type, body⟩ :: heap) where
  distinct := by
    refine List.nodup_cons.2 ⟨fun hmem => ?_, h.distinct⟩
    obtain ⟨n, hn, hid⟩ := List.mem_map.1 hmem
    exact Nat.lt_irrefl _ (hid ▸ h.fresh n hn)
  fresh n hn := by
    rcases List.mem_cons.1 hn with rfl | hn
    · exact Nat.lt_succ_self _
    · exact Nat.lt_succ_of_lt (h.fresh n hn)
  older n hn m hm := by
    rcases List.mem_cons.1 hn with rfl | hn
    · exact ⟨List.mem_cons_of_mem _ (hbody hm), h.fresh m (hbody hm)⟩
    · obtain ⟨hmem, hlt⟩ := h.older n hn m hm
      exact ⟨List.mem_cons_of_mem _ hmem, hlt⟩
  table serial object hobject := fun n hn =>
    List.mem_cons_of_mem _ (h.table serial object hobject hn)

/-- An object of the heap may be put in the table. -/
theorem put (h : r.Backed heap) {object : Shared} (hobject : object.nodes ⊆ heap) (tag : TypeTag)
    (serial : Nat) : (r.put tag serial object).Backed heap where
  distinct := h.distinct
  fresh := h.fresh
  older := h.older
  table k found hfound := by
    obtain ⟨slot, hslot, hheld⟩ := held?_eq_some.1 hfound
    rw [slots_put, List.getElem?_set] at hslot
    split at hslot
    · split at hslot
      · cases hslot
        cases hheld
        exact hobject
      · cases hslot
    · exact h.table k found (held?_eq_some.2 ⟨slot, hslot, hheld⟩)

end InStream.Backed

theorem backs_of_held {c : Context} {r r' : InStream} (hcontext : r'.context = r.context)
    (hheld : ∀ serial object, r'.held? serial = some object → r.held? serial = some object)
    (hnext : r.nextObject ≤ r'.nextObject) : Backs c r r' [] := fun hr =>
  ⟨hcontext.trans hr, fun heap hheap =>
    ⟨heap, List.Subset.refl _, hheap.of_held hheld hnext, List.nil_subset _⟩⟩

/-- Reading only adds objects to those that back a stream. -/
theorem gathers_backs {c : Context} (hc : c.registry.Converts) : Gathers (Backs c) where
  refl r := backs_of_held rfl (fun _ _ => id) (Nat.le_refl _)
  trans h h' hr := by
    obtain ⟨hr, h⟩ := h hr
    obtain ⟨hr', h'⟩ := h' hr
    refine ⟨hr', fun heap hheap => ?_⟩
    obtain ⟨heap₁, hsub₁, hheap₁, hns₁⟩ := h heap hheap
    obtain ⟨heap₂, hsub₂, hheap₂, hns₂⟩ := h' heap₁ hheap₁
    exact ⟨heap₂, List.Subset.trans hsub₁ hsub₂, hheap₂,
      List.append_subset.2 ⟨List.Subset.trans hns₁ hsub₂, hns₂⟩⟩
  drop h hsub hr := by
    obtain ⟨hr', h⟩ := h hr
    refine ⟨hr', fun heap hheap => ?_⟩
    obtain ⟨heap', hsub', hheap', hns⟩ := h heap hheap
    exact ⟨heap', hsub', hheap', List.Subset.trans hsub.subset hns⟩
  cursor r cursor := backs_of_held rfl (fun _ _ => id) (Nat.le_refl _)
  noted r event := backs_of_held rfl (fun _ _ => id) (Nat.le_refl _)
  opened r tag := by
    refine backs_of_held rfl (fun serial object hobject => ?_) (Nat.le_refl _)
    rwa [InStream.held?_opened] at hobject
  made type h hr := by
    obtain ⟨hr', h⟩ := h hr
    refine ⟨hr', fun heap hheap => ?_⟩
    obtain ⟨heap', hsub, hheap', hns⟩ := h heap hheap
    exact ⟨_, List.Subset.trans hsub (List.subset_cons_self _ _), hheap'.made hns,
      List.cons_subset_cons _ hns⟩
  put tag serial h hr := by
    obtain ⟨hr', h⟩ := h hr
    refine ⟨hr', fun heap hheap => ?_⟩
    obtain ⟨heap', hsub, hheap', hns⟩ := h heap hheap
    exact ⟨heap', hsub, hheap'.put hns tag serial, hns⟩
  held hobject hr := ⟨hr, fun heap hheap =>
    ⟨heap, List.Subset.refl _, hheap, hheap.table _ _ hobject⟩⟩
  converted hupcast h hr := by
    subst hr
    obtain ⟨hr', h⟩ := h rfl
    refine ⟨hr', fun heap hheap => ?_⟩
    obtain ⟨heap', hsub, hheap', hns⟩ := h heap hheap
    exact ⟨heap', hsub, hheap', List.Subset.trans (hc _ _ _ hupcast _) hns⟩

/-! ## Graphs -/

/-- Among some values an object refers to another: somewhere the second stands in the first. -/
def Refers (vs : List Value) (id id' : Identity) : Prop :=
  ∃ v ∈ vs, ∃ n ∈ v.nodes, n.id = id ∧ ∃ m ∈ n.body.nodes, m.id = id'

namespace InStream.Backed

variable {r : InStream} {heap : List Node} {vs : List Value}

/-- What objects of a heap refer to are older objects. -/
theorem lt_of_refers (h : r.Backed heap) (hvs : Value.nodesIn vs ⊆ heap) {id id' : Identity}
    (hrefers : Refers vs id id') : id' < id := by
  obtain ⟨v, hv, n, hn, rfl, m, hm, rfl⟩ := hrefers
  refine (h.older n (hvs ?_) m hm).2
  rw [Value.nodesIn_eq]
  exact List.mem_flatMap.2 ⟨v, hv, hn⟩

theorem acyclic (h : r.Backed heap) (hvs : Value.nodesIn vs ⊆ heap) (id : Identity) :
    ¬ Relation.TransGen (Refers vs) id id := by
  have hlt {a b : Identity} (hab : Relation.TransGen (Refers vs) a b) : b < a := by
    induction hab with
    | single hab => exact h.lt_of_refers hvs hab
    | tail _ hbc ih => exact Nat.lt_trans (h.lt_of_refers hvs hbc) ih
  exact fun hcycle => Nat.lt_irrefl id (hlt hcycle)

/-- Pointers with one identity are pointers to one object. -/
theorem eq_of_id (h : r.Backed heap) {n m : Node} (hn : n ∈ heap) (hm : m ∈ heap)
    (hid : n.id = m.id) : n = m := List.inj_on_of_nodup_map h.distinct hn hm hid

end InStream.Backed

end ObjectStream
