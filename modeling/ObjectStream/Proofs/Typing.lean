import ObjectStream.Proofs.Part
import ObjectStream.Proofs.Conveys

/-!
# Values of a type

When a value is one of a type, and when two values of a type are the same up to
what is not written: the identities of shared objects, the wording of an error
category, and the order of a hashed table. Pointers are typed against a heap,
which says what the pointers with one identity point to, so a graph of shared
objects is a value with the shared parts repeated.
-/

namespace ObjectStream

/-- What all pointers with one identity have in common: the type of their target, the concrete
type of their object, and its value. -/
structure HeapObject where
  pointee : Ty
  type : Ty
  body : Value

abbrev Heap := Identity → HeapObject

/-- A codec keeps a value if it conveys it to itself. -/
def Codec.Keeps (codec : Codec) (c : Context) (v : Value) (lead : List UInt8 → Prop) : Prop :=
  Conveys c (codec.write v) lead codec.read v

/-- Whether objects of a type travel behind pointers to a target and come back as they are. -/
def Registry.Makes (r : Registry) (type pointee : Ty) : Prop :=
  ∃ tag, r.tag? type = some tag ∧ r.upcast? tag pointee = some (.plain type)

/-- What holds of every context: tags are numbers of 32 bits other than that of the null pointer,
and places in the category index are numbers of 32 bits. -/
structure Context.WellFormed (c : Context) : Prop where
  tags : ∀ t tag, c.registry.tag? t = some tag → tag ≠ nullTag ∧ tag < 2 ^ 32
  places : c.categories.size ≤ 2 ^ 32

theorem Context.wellFormed_standard : Context.standard.WellFormed where
  tags := nofun
  places := by decide

namespace TableKind

def isHashed : TableKind → Bool
  | .hashed | .fastHashed => true
  | _ => false

/-- Whether a list runs through a table of this kind, by the keys of its elements. -/
def Lists (kind : TableKind) (o : KeyOrder) (keys : List Value) : Prop :=
  match kind with
  | .ordered => keys.Pairwise fun v w => o.compare v w = .lt
  | _ => keys.Pairwise fun v w => o.compare v w ≠ .eq

end TableKind

namespace Schema

/-- The parts of a value that is a list of `n` parts in a fixed order. -/
def parts (Γ : Schema) (p : Part) (n : Nat) : Option (List Part) :=
  match p with
  | .whole (.tuple ts) => if n = ts.length then some (ts.map .whole) else none
  | .whole (.array e count) => if n = count then some (List.replicate n (.whole e)) else none
  | .whole (.seq .slice _) => none
  | .whole (.seq _ e) => some (List.replicate n (.whole e))
  | .fields (.named name args) =>
      match Γ.plan? name with
      | some (item, .struct _ fields) =>
          if n = fields.length then some (fields.map (MarkedField.part (arguments item args)))
          else none
      | _ => none
  | _ => none

def Nests (Γ : Schema) : Nat → Ty → Prop
  | fuel + 1, .named name args =>
      match Γ.plan? name with
      | some (item, .struct _ fields) =>
          ∀ f ∈ fields, f.marks.base = true → Γ.Nests fuel (f.type.subst (arguments item args))
      | _ => False
  | _, _ => False

/-- The discriminants of an enum are values of one type of 64 bits. -/
def FitWord (ds : List Int) : Prop :=
  (∀ d ∈ ds, IntWidth.w64.holdsSigned d = true) ∨ (∀ d ∈ ds, IntWidth.w64.holdsUnsigned d = true)

/-- What the compiler makes sure of: no struct is a base of itself, the fields of a struct have
different names, the variants of an enum have different discriminants, which fit 64 bits, and the
place of a variant fits 32 bits. -/
structure WellFormed (Γ : Schema) : Prop where
  bases : ∀ name args item asMap fields, Γ.plan? name = some (item, .struct asMap fields) →
    Γ.Nests baseDepth (.named name args)
  keys : ∀ name item fields, Γ.plan? name = some (item, .struct true fields) →
    (fields.map MarkedField.key).Nodup
  discriminants : ∀ name item, Γ.plan? name = some (item, .bare) →
    (ObjectStream.discriminants item.variants).Nodup ∧
      FitWord (ObjectStream.discriminants item.variants)
  places : ∀ name item fields, Γ.plan? name = some (item, .variants fields) →
    fields.length ≤ 2 ^ 32

def empty : Schema where
  types := []
  rules := []

theorem wellFormed_empty : empty.WellFormed where
  bases := nofun
  keys := nofun
  discriminants := nofun
  places := nofun

theorem length_parts {Γ : Schema} {p : Part} {n : Nat} {ps : List Part}
    (h : Γ.parts p n = some ps) : ps.length = n := by
  unfold parts at h
  split at h
  case h_1 =>
      split at h
      · next hn =>
          cases h
          simp [hn]
      · cases h
  case h_2 =>
      split at h
      · cases h
        simp
      · cases h
  case h_3 => cases h
  case h_4 =>
      cases h
      simp
  case h_5 =>
      split at h
      · split at h
        · next hn =>
            cases h
            simp [hn]
        · cases h
      · cases h
  case h_6 => cases h

end Schema

/-! ## Sightings -/

/-- The objects seen so far after some more sightings: each new one at the end. -/
def enterAll (seen : List Identity) (ids : List Identity) : List Identity :=
  ids.foldl (fun seen id => if id ∈ seen then seen else seen ++ [id]) seen

namespace Value

mutual

/-- The pointers to shared objects in the order in which they are written, given the objects that
were seen before. Behind a pointer to an object seen before nothing is written. -/
def sightings (seen : List Identity) : Value → List Identity
  | .list vs => sightingsIn seen vs
  | .present v => sightings seen v
  | .variant _ vs => sightingsIn seen vs
  | .shared id _ body =>
      if id ∈ seen then [id] else id :: sightings (seen ++ [id]) body
  | .unique _ body => sightings seen body
  | _ => []

def sightingsIn (seen : List Identity) : List Value → List Identity
  | [] => []
  | v :: vs =>
      let ids := sightings seen v
      ids ++ sightingsIn (enterAll seen ids) vs

end

end Value

/-! ## Typing -/

/-- The values of a part, against a heap. What stands in a key holds no hashed tables, which have
no order to compare. A writer that comes with a type writes something. -/
inductive Fits (Γ : Schema) (c : Context) (H : Heap) : Bool → Part → Value → Prop
  | scalar {key s d} : s.Readable → s.holds d = true →
      Fits Γ c H key (.whole (.scalar s)) (.scalar d)
  | errorCode {key code} : IntWidth.w32.holdsSigned code.value = true →
      Fits Γ c H key (.whole .errorCode) (.errorCode code)
  | list {key p ps vs} : Γ.parts p vs.length = some ps →
      (∀ q ∈ ps.zip vs, Fits Γ c H key q.1 q.2) → Fits Γ c H key p (.list vs)
  | struct {key name args item asMap fields vs} :
      Γ.plan? name = some (item, .struct asMap fields) → vs.length = fields.length →
      (∀ q ∈ (fields.map (MarkedField.part (Schema.arguments item args))).zip vs,
        Fits Γ c H key q.1 q.2) →
      Fits Γ c H key (.whole (.named name args)) (.list vs)
  | set {key kind t vs} : (key = true → kind.isHashed = false) → kind.Lists (Γ.order t) vs →
      (∀ v ∈ vs, Fits Γ c H true (.whole t) v) → Fits Γ c H key (.whole (.set kind t)) (.list vs)
  | map {key kind t u} {entries : List (Value × Value)} :
      (key = true → kind.isHashed = false) →
      kind.Lists (Γ.order t) (entries.map Prod.fst) →
      (∀ e ∈ entries, Fits Γ c H true (.whole t) e.1) →
      (∀ e ∈ entries, Fits Γ c H key (.whole u) e.2) →
      Fits Γ c H key (.whole (.map kind t u)) (.list (entries.map .ofPair))
  | absent {key t} : Γ.codec? (.option t) = none → Fits Γ c H key (.whole (.option t)) .absent
  | present {key t v} : Γ.codec? (.option t) = none → Fits Γ c H key (.whole t) v →
      Fits Γ c H key (.whole (.option t)) (.present v)
  | bare {key name args item index} : Γ.plan? name = some (item, .bare) →
      index < item.variants.length → Fits Γ c H key (.whole (.named name args)) (.variant index [])
  | variant {key name args item fieldss index fields vs} :
      Γ.plan? name = some (item, .variants fieldss) → fieldss[index]? = some fields →
      vs.length = fields.length →
      (∀ q ∈ (fields.map (MarkedField.part (Schema.arguments item args))).zip vs,
        Fits Γ c H key q.1 q.2) →
      Fits Γ c H key (.whole (.named name args)) (.variant index vs)
  | shared {key id pointee type body} : H id = ⟨pointee, type, body⟩ →
      c.registry.Makes type pointee → Fits Γ c H key (.whole type) body →
      Fits Γ c H key (.whole (.shared pointee)) (.shared id type body)
  | unique {key pointee type body} : c.registry.Makes type pointee →
      Fits Γ c H key (.whole type) body →
      Fits Γ c H key (.whole (.unique pointee)) (.unique type body)
  | custom {key t codec v} : Γ.codec? t = some codec →
      codec.Keeps c v (· ≠ []) → (∀ seen, v.sightings seen = []) →
      Fits Γ c H key (.whole t) v
  | rule {key path t codec v} : Γ.rule? path = some codec →
      codec.Keeps c v (fun _ => True) → (∀ seen, v.sightings seen = []) →
      Fits Γ c H key (.rule path t) v

/-- Which identities of written objects stand for which of the objects read. -/
abbrev Renaming := Identity → Shared → Prop

/-- Two values of a part are the same up to what is not written. A shared object of the second
value is as a whole related to the identity that it stands for. -/
inductive Same (Γ : Schema) (ρ : Renaming) : Part → Value → Value → Prop
  | scalar {s d} : Same Γ ρ (.whole (.scalar s)) (.scalar d) (.scalar d)
  | errorCode {a b} : a.same b = true →
      Same Γ ρ (.whole .errorCode) (.errorCode a) (.errorCode b)
  | list {p ps vs ws} : Γ.parts p vs.length = some ps → ws.length = vs.length →
      (∀ q ∈ ps.zip (vs.zip ws), Same Γ ρ q.1 q.2.1 q.2.2) → Same Γ ρ p (.list vs) (.list ws)
  | struct {name args item asMap fields vs ws} :
      Γ.plan? name = some (item, .struct asMap fields) → ws.length = vs.length →
      (∀ q ∈ (fields.map (MarkedField.part (Schema.arguments item args))).zip (vs.zip ws),
        Same Γ ρ q.1 q.2.1 q.2.2) →
      Same Γ ρ (.whole (.named name args)) (.list vs) (.list ws)
  | set {kind t vs us ws} : us.length = vs.length →
      (∀ q ∈ vs.zip us, Same Γ ρ (.whole t) q.1 q.2) → us.Perm ws →
      (kind.isHashed = false → us = ws) →
      Same Γ ρ (.whole (.set kind t)) (.list vs) (.list ws)
  | map {kind t u vs us ws} : us.length = vs.length →
      (∀ q ∈ vs.zip us, Same Γ ρ (.whole (.tuple [t, u])) q.1 q.2) → us.Perm ws →
      (kind.isHashed = false → us = ws) →
      Same Γ ρ (.whole (.map kind t u)) (.list vs) (.list ws)
  | absent {t} : Same Γ ρ (.whole (.option t)) .absent .absent
  | present {t v w} : Γ.codec? (.option t) = none → Same Γ ρ (.whole t) v w →
      Same Γ ρ (.whole (.option t)) (.present v) (.present w)
  | bare {name args item index} : Γ.plan? name = some (item, .bare) →
      Same Γ ρ (.whole (.named name args)) (.variant index []) (.variant index [])
  | variant {name args item fieldss index fields vs ws} :
      Γ.plan? name = some (item, .variants fieldss) → fieldss[index]? = some fields →
      ws.length = vs.length →
      (∀ q ∈ (fields.map (MarkedField.part (Schema.arguments item args))).zip (vs.zip ws),
        Same Γ ρ q.1 q.2.1 q.2.2) →
      Same Γ ρ (.whole (.named name args)) (.variant index vs) (.variant index ws)
  | shared {pointee id id' type v w} : ρ id ⟨id', pointee, type, w⟩ → Same Γ ρ (.whole type) v w →
      Same Γ ρ (.whole (.shared pointee)) (.shared id type v) (.shared id' type w)
  | unique {pointee type v w} : Same Γ ρ (.whole type) v w →
      Same Γ ρ (.whole (.unique pointee)) (.unique type v) (.unique type w)
  | custom {t codec v} : Γ.codec? t = some codec → Same Γ ρ (.whole t) v v
  | rule {path t v} : Same Γ ρ (.rule path t) v v

theorem Same.mono {Γ : Schema} {ρ ρ' : Renaming}
    (hρ : ∀ id object, ρ id object → ρ' id object) {p : Part} {v w : Value} (h : Same Γ ρ p v w) :
    Same Γ ρ' p v w := by
  induction h with
  | scalar => exact .scalar
  | errorCode hsame => exact .errorCode hsame
  | list hparts hlen _ ih => exact .list hparts hlen ih
  | struct hplan hlen _ ih => exact .struct hplan hlen ih
  | set hlen _ hperm heq ih => exact .set hlen ih hperm heq
  | map hlen _ hperm heq ih => exact .map hlen ih hperm heq
  | absent => exact .absent
  | present hcodec _ ih => exact .present hcodec ih
  | bare hplan => exact .bare hplan
  | variant hplan hfields hlen _ ih => exact .variant hplan hfields hlen ih
  | shared hid _ ih => exact .shared (hρ _ _ hid) ih
  | unique _ ih => exact .unique ih
  | custom hcodec => exact .custom hcodec
  | rule => exact .rule

end ObjectStream
