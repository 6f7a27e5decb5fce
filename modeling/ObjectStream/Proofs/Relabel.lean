import ObjectStream.Proofs.Gathering
import ObjectStream.Proofs.Key

/-!
# Values with other identities

The identities of shared objects are names: all that matters is which pointers
have the same one. A value with its identities exchanged is the same value under
other names. It has the same nodes under their new names, no order of keys sees the
difference, and it is the same value if and only if all of its own names stay.
-/

namespace ObjectStream

namespace Value

mutual

/-- A value with other identities for its shared objects. -/
def relabel (ρ : Identity → Identity) : Value → Value
  | .scalar d => .scalar d
  | .errorCode code => .errorCode code
  | .list vs => .list (relabelIn ρ vs)
  | .absent => .absent
  | .present v => .present (relabel ρ v)
  | .variant index vs => .variant index (relabelIn ρ vs)
  | .shared id type body => .shared (ρ id) type (relabel ρ body)
  | .unique type body => .unique type (relabel ρ body)

def relabelIn (ρ : Identity → Identity) : List Value → List Value
  | [] => []
  | v :: vs => relabel ρ v :: relabelIn ρ vs

end

variable {ρ : Identity → Identity}

theorem relabelIn_eq (vs : List Value) : relabelIn ρ vs = vs.map (relabel ρ) := by
  induction vs with
  | nil => rfl
  | cons v vs ih => rw [relabelIn, ih, List.map_cons]

theorem relabel_list (vs : List Value) : relabel ρ (.list vs) = .list (vs.map (relabel ρ)) := by
  rw [relabel, relabelIn_eq]

theorem relabel_variant (index : Nat) (vs : List Value) :
    relabel ρ (.variant index vs) = .variant index (vs.map (relabel ρ)) := by
  rw [relabel, relabelIn_eq]

end Value

def Node.relabel (ρ : Identity → Identity) (n : Node) : Node :=
  ⟨ρ n.id, n.type, n.body.relabel ρ⟩

namespace Value

variable {ρ : Identity → Identity}

/-! ## Nodes -/

mutual

theorem nodes_relabel (v : Value) : (v.relabel ρ).nodes = v.nodes.map (Node.relabel ρ) := by
  cases v with
  | list vs => exact nodesIn_relabel vs
  | present v => exact nodes_relabel v
  | variant index vs => exact nodesIn_relabel vs
  | shared id type body => exact congrArg _ (nodes_relabel body)
  | unique type body => exact nodes_relabel body
  | scalar | errorCode | absent => rfl

theorem nodesIn_relabel (vs : List Value) :
    nodesIn (relabelIn ρ vs) = (nodesIn vs).map (Node.relabel ρ) := by
  cases vs with
  | nil => rfl
  | cons v vs =>
      rw [relabelIn, nodesIn, nodesIn, List.map_append, nodes_relabel v, nodesIn_relabel vs]

end

mutual

/-- A value whose identities stay is the same. -/
theorem relabel_of_fixed (v : Value) (h : ∀ n ∈ v.nodes, ρ n.id = n.id) : v.relabel ρ = v := by
  cases v with
  | list vs => rw [relabel, relabelIn_of_fixed vs h]
  | present v => rw [relabel, relabel_of_fixed v h]
  | variant index vs => rw [relabel, relabelIn_of_fixed vs h]
  | shared id type body =>
      obtain ⟨hid, hbody⟩ := List.forall_mem_cons.1 h
      rw [relabel, hid, relabel_of_fixed body hbody]
  | unique type body => rw [relabel, relabel_of_fixed body h]
  | scalar | errorCode | absent => rfl

theorem relabelIn_of_fixed (vs : List Value) (h : ∀ n ∈ nodesIn vs, ρ n.id = n.id) :
    relabelIn ρ vs = vs := by
  cases vs with
  | nil => rfl
  | cons v vs =>
      obtain ⟨hv, hvs⟩ := List.forall_mem_append.1 h
      rw [relabelIn, relabel_of_fixed v hv, relabelIn_of_fixed vs hvs]

end

/-- A value is the same under other names if and only if its own names stay. -/
theorem relabel_eq_self_iff (v : Value) : v.relabel ρ = v ↔ ∀ n ∈ v.nodes, ρ n.id = n.id := by
  refine ⟨fun h n hn => ?_, v.relabel_of_fixed⟩
  have hnodes : v.nodes.map (Node.relabel ρ) = v.nodes.map id := by
    rw [← nodes_relabel, h, List.map_id]
  exact congrArg Node.id (List.map_inj_left.1 hnodes n hn)

/-! ## Tables -/

mutual

/-- The order of keys does not see identities. -/
theorem erase_relabel (v : Value) : (v.relabel ρ).erase = v.erase := by
  cases v with
  | list vs => rw [relabel, erase, erase, eraseList_relabelIn vs]
  | present v => rw [relabel, erase, erase, erase_relabel v]
  | variant index vs => rw [relabel, erase, erase, eraseList_relabelIn vs]
  | shared id type body => rw [relabel, erase, erase, erase_relabel body]
  | unique type body => rw [relabel, erase, erase, erase_relabel body]
  | scalar | errorCode | absent => rfl

theorem eraseList_relabelIn (vs : List Value) : eraseList (relabelIn ρ vs) = eraseList vs := by
  cases vs with
  | nil => rfl
  | cons v vs => rw [relabelIn, eraseList, eraseList, erase_relabel v, eraseList_relabelIn vs]

end

end Value

theorem KeyOrder.compare_relabel (o : KeyOrder) {ρ : Identity → Identity} (v w : Value) :
    o.compare (v.relabel ρ) (w.relabel ρ) = o.compare v w := by
  rw [← o.blind, Value.erase_relabel, Value.erase_relabel, o.blind]

theorem TableKind.keep_relabel (kind : TableKind) {ρ : Identity → Identity} (old new : Value) :
    kind.keep (old.relabel ρ) (new.relabel ρ) = (kind.keep old new).relabel ρ := by
  cases kind <;> rfl

namespace Value

variable {ρ : Identity → Identity}

/-- A set of values under other names is the set under other names. -/
theorem relabel_set (kind : TableKind) (o : KeyOrder) (vs : List Value) :
    .list ((Collector.set kind o).ofList (vs.map (relabel ρ))) =
      (Value.list ((Collector.set kind o).ofList vs)).relabel ρ := by
  rw [relabel_list]
  exact congrArg _ <| Table.ofList_map (R := .ofSet kind o) (S := .ofSet kind o) kind
    o.compare_relabel kind.keep_relabel vs

theorem relabel_ofPair (p : Value × Value) :
    ofPair (Prod.map (relabel ρ) (relabel ρ) p) = (ofPair p).relabel ρ := by
  rw [ofPair, ofPair, relabel_list]
  rfl

/-- A map of values under other names is the map under other names. -/
theorem relabel_map (kind : TableKind) (o : KeyOrder) (ps : List (Value × Value)) :
    .list (((Collector.map kind o).ofList (ps.map (Prod.map (relabel ρ) (relabel ρ)))).map ofPair) =
      (Value.list (((Collector.map kind o).ofList ps).map ofPair)).relabel ρ := by
  have htable := Table.ofList_map (R := .ofMap kind o) (S := .ofMap kind o) kind
    (f := Prod.map (relabel ρ) (relabel ρ)) (fun p q => o.compare_relabel p.1 q.1)
    (fun p q => Prod.ext (kind.keep_relabel p.1 q.1) rfl) ps
  rw [relabel_list, Collector.map, htable, List.map_map, List.map_map]
  refine congrArg _ (List.map_congr_left fun p _ => ?_)
  exact relabel_ofPair p

end Value

/-! ## Conversions -/

namespace Registry

/-- A conversion does not look at identities. -/
def Natural (r : Registry) : Prop :=
  ∀ tag target upcast, r.upcast? tag target = some upcast →
    ∀ (ρ : Identity → Identity) v, upcast.convert (v.relabel ρ) = (upcast.convert v).relabel ρ

/-- What does not look at identities brings in none of its own. -/
theorem Natural.below {r : Registry} (h : r.Natural) {tag : TypeTag} {target : Ty}
    {upcast : Upcast} (hupcast : r.upcast? tag target = some upcast) {v : Value} {next : Identity}
    (hv : ∀ n ∈ v.nodes, n.id < next) : ∀ n ∈ (upcast.convert v).nodes, n.id < next := by
  -- Under other names for all that is not below the bound, the value is the same.
  let ρ : Identity → Identity := fun id => if id < next then id else id + 1
  have hsame : v.relabel ρ = v := v.relabel_of_fixed fun n hn => if_pos (hv n hn)
  have hconverted := h tag target upcast hupcast ρ v
  rw [hsame, eq_comm, Value.relabel_eq_self_iff] at hconverted
  intro n hn
  by_contra hle
  have hfixed := hconverted n hn
  rw [show ρ n.id = n.id + 1 from if_neg hle] at hfixed
  exact Nat.succ_ne_self _ hfixed

end Registry

end ObjectStream
