import ObjectStream.Proofs.Aloof
import ObjectStream.Proofs.Anonymous

/-!
# Round trip without sharing

A stream that does not track shared objects writes an object out behind every
pointer to it, and reads another object from each of these copies. So a value
comes back as it was but for the identities of its objects, which are all
different. A value that has no pointers but such as own their objects needs no
tracking, and comes back whether the streams track objects or not.
-/

namespace ObjectStream

open InStream

variable {Γ : Schema} {c : Context}

/-! ## Objects of their own -/

/-- A conversion hands over pointers of what it is given, none of them twice. -/
def Registry.Linear (r : Registry) : Prop :=
  ∀ tag target upcast, r.upcast? tag target = some upcast →
    ∀ v, (upcast.convert v).nodes.Subperm v.nodes

theorem nodup_of_subperm {ns ns' : List Node} (hsub : ns'.Subperm ns)
    (h : (ns.map Node.id).Nodup) : (ns'.map Node.id).Nodup := by
  obtain ⟨us, hperm, hsublist⟩ := hsub
  exact (hperm.map Node.id).nodup_iff.1 (h.sublist (hsublist.map Node.id))

/-- Without a table, the nodes at hand are of objects made between the two states of the stream,
each of its own. -/
def Distinct (c : Context) (r r' : InStream) (ns : List Node) : Prop :=
  r.context = c → r.tracks = false → r'.context = c ∧ r'.tracks = false ∧
    r.nextObject ≤ r'.nextObject ∧ (ns.map Node.id).Nodup ∧
      ∀ n ∈ ns, r.nextObject ≤ n.id ∧ n.id < r'.nextObject

theorem distinct_of_next {r r' : InStream} (hcontext : r'.context = r.context)
    (htracks : r'.tracks = r.tracks) (hnext : r'.nextObject = r.nextObject) :
    Distinct c r r' [] := fun hr hfalse =>
  ⟨hcontext.trans hr, htracks.trans hfalse, Nat.le_of_eq hnext.symm, List.nodup_nil, nofun⟩

/-- No object is handed over twice. -/
theorem gathers_distinct (hc : c.registry.Linear) : Gathers (Distinct c) where
  refl r := distinct_of_next rfl rfl rfl
  trans {r₀ r r' ns ns'} h h' hr htracks := by
    obtain ⟨hr, htracks, hle, hnodup, hfresh⟩ := h hr htracks
    obtain ⟨hr', htracks', hle', hnodup', hfresh'⟩ := h' hr htracks
    refine ⟨hr', htracks', Nat.le_trans hle hle', ?_, fun n hn => ?_⟩
    · rw [List.map_append, List.nodup_append]
      refine ⟨hnodup, hnodup', fun a ha b hb hab => ?_⟩
      obtain ⟨n, hn, rfl⟩ := List.mem_map.1 ha
      obtain ⟨m, hm, rfl⟩ := List.mem_map.1 hb
      have hlt := (hfresh n hn).2
      have hge := (hfresh' m hm).1
      rw [← hab] at hge
      exact Nat.lt_irrefl _ (Nat.lt_of_lt_of_le hlt hge)
    · rcases List.mem_append.1 hn with hn | hn
      · exact ⟨(hfresh n hn).1, Nat.lt_of_lt_of_le (hfresh n hn).2 hle'⟩
      · exact ⟨Nat.le_trans hle (hfresh' n hn).1, (hfresh' n hn).2⟩
  drop h hsub hr htracks := by
    obtain ⟨hr', htracks', hle, hnodup, hfresh⟩ := h hr htracks
    exact ⟨hr', htracks', hle, nodup_of_subperm hsub hnodup,
      fun n hn => hfresh n (hsub.subset hn)⟩
  cursor r cursor := distinct_of_next rfl rfl rfl
  noted r event := distinct_of_next rfl rfl rfl
  opened r tag := distinct_of_next rfl (tracks_opened r tag) rfl
  made {r r' body} type h hr htracks := by
    obtain ⟨hr', htracks', hle, hnodup, hfresh⟩ := h hr htracks
    refine ⟨hr', htracks', Nat.le_succ_of_le hle, ?_, fun n hn => ?_⟩
    · refine List.nodup_cons.2 ⟨fun hmem => ?_, hnodup⟩
      obtain ⟨n, hn, hid⟩ := List.mem_map.1 hmem
      exact Nat.lt_irrefl _ (hid ▸ (hfresh n hn).2)
    · rcases List.mem_cons.1 hn with rfl | hn
      · exact ⟨hle, Nat.lt_succ_self _⟩
      · exact ⟨(hfresh n hn).1, Nat.lt_succ_of_lt (hfresh n hn).2⟩
  put tag serial h hr htracks := by
    obtain ⟨hr', htracks', hrest⟩ := h hr htracks
    refine ⟨hr', ?_, hrest⟩
    rw [← htracks', InStream.tracks, InStream.tracks, InStream.put, Option.isSome_map]
  held {r serial object} hobject _ htracks := by
    rw [held?, slots_of_not_tracks htracks] at hobject
    cases hobject
  converted {r r' tag target upcast v} hupcast h hr htracks := by
    subst hr
    obtain ⟨hr', htracks', hle, hnodup, hfresh⟩ := h rfl htracks
    have hsub := hc tag target upcast hupcast v
    exact ⟨hr', htracks', hle, nodup_of_subperm hsub hnodup,
      fun n hn => hfresh n (hsub.subset hn)⟩

/-! ## Round trip -/

namespace Schema

/-- The readers that come with types and fields hand over no object twice. -/
def Linear (Γ : Schema) (c : Context) : Prop :=
  ∀ x, Γ.Foreign x → Reader.Gives (Distinct c) [] x Value.nodes

theorem Linear.of_derived {types : List (String × Declaration)}
    {order : Ty → KeyOrder}
    (h : ∀ q ∈ types, ∃ item, q.2 = .derived item) : Linear ⟨types, [], order⟩ c :=
  fun x hx => absurd hx (not_foreign_of_derived h x)

/-- The objects of a value that is read without a table are all different. -/
theorem Linear.nodup (hΓ : Γ.Linear c) (hc : c.registry.Linear) {t : Ty} {r r' : InStream}
    {w : Value} (hr : r.context = c) (htracks : r.tracks = false)
    (h : decode Γ t r = .ok w r') : (w.nodes.map Node.id).Nodup := by
  have hgives := Reader.Gives.decodeWithin (gathers_distinct hc) hΓ
    (depthBound r.cursor.remaining) t r r (distinct_of_next rfl rfl rfl)
  have hread : decodeWithin Γ (depthBound r.cursor.remaining) t r = .ok w r' := h
  rw [hread] at hgives
  exact (hgives hr htracks).2.2.2.1

/-- The value is one of the type against some heap, once its objects have the right identities. -/
def Admits (Γ : Schema) (c : Context) (t : Ty) (v : Value) : Prop :=
  ∃ H u, v.anonymous = u.anonymous ∧ Fits Γ c H false (.whole t) u

/-- The second value is the same as the first but for the identities of shared objects. -/
def Resembles (Γ : Schema) (t : Ty) (v w : Value) : Prop :=
  ∃ u, v.anonymous = u.anonymous ∧ Same Γ (fun _ _ => True) (.whole t) u w

end Schema

variable {t : Ty} {v : Value} {s s' : OutStream}

/-- Without tables a value is written and read back. -/
theorem Schema.Admits.untracked (hc : c.WellFormed) (hΓ : Γ.WellFormed) (hv : Γ.Admits c t v)
    (hs : s.context = c) (htracks : s.tracks = false) (h : encode Γ t v s = .ok () s') :
    ∃ bytes, s'.sink = s.sink.append (packed bytes) ∧
      ∀ r suffix, r.context = c → r.tracks = false → r.rest = bytes ++ suffix →
        ∃ w r', decode Γ t r = .ok w r' ∧ r'.rest = suffix ∧ Γ.Resembles t v w := by
  obtain ⟨H, u, hvu, hfits⟩ := hv
  have hu : encode Γ t u s = .ok () s' := (hfits.indifferent hc hΓ v hvu s hs htracks).trans h
  have hcoherent : s.Coherent c H := OutStream.coherent_of_not_tracks hs htracks
  obtain ⟨bytes, -, hwrote⟩ := hfits.writes hc hΓ s s' hcoherent hu
  have hentered : s'.entered = [] :=
    OutStream.entered_of_not_tracks (hwrote.tracks.trans htracks)
  refine ⟨bytes, hwrote.sink, fun r suffix hr hnone hrest => ?_⟩
  have hslots : r.slots = [] := InStream.slots_of_not_tracks hnone
  obtain ⟨w, r', hread, hcursor, -, -, -, hsame⟩ :=
    (hfits.mirrors hc hΓ bytes.length s s' bytes hcoherent hu hwrote (Nat.le_refl _) s'.entered
      List.prefix_rfl (by rw [hentered]; decide) r suffix hr (hnone.trans htracks.symm)
      hrest).ok_of (aligned_of_slots hslots)
      (.inl (by rw [hslots, OutStream.entered_of_not_tracks htracks]; rfl)) fun id _ k hk => by
        rw [OutStream.entered_of_not_tracks htracks] at hk
        cases hk
  exact ⟨w, r', hread, rest_of_cursor hcursor hrest, u, hvu, hsame.mono fun _ _ _ => trivial⟩

/-- A stream with an empty table is coherent with every heap. -/
theorem OutStream.coherent_of_empty {H : Heap} (hs : s.context = c) :
    (s.withTable (some .empty)).Coherent c H where
  context := hs
  nodup := List.nodup_nil
  found table id tag serial hshared hfind := by
    cases hshared
    simp [WrittenTable.find?, WrittenTable.empty] at hfind
  known table id _ _ := List.not_mem_nil

/-- A value without shared objects is written and read back past all tables. -/
theorem Schema.Admits.owned (hc : c.WellFormed) (hΓ : Γ.WellFormed) (hv : Γ.Admits c t v)
    (hnodes : v.nodes = []) (hdrawn : Γ.Drawn c) (haloof : Γ.Aloof) (hs : s.context = c)
    (h : encode Γ t v s = .ok () s') :
    s'.shared = s.shared ∧ ∃ bytes, s'.sink = s.sink.append (packed bytes) ∧
      ∀ r suffix, r.context = c → r.rest = bytes ++ suffix →
        ∃ w r', decode Γ t r = .ok w r' ∧ r'.rest = suffix ∧ r'.shared = r.shared ∧
          Γ.Resembles t v w := by
  obtain ⟨H, u, hvu, hfits⟩ := hv
  obtain rfl : u = v := Value.eq_of_anonymous hnodes hvu.symm
  have hwriter : Writer.Aloof c (encode Γ t u) :=
    Schema.aloof_writePart (p := .whole t) hdrawn hnodes
  have hlike : s.context.untracked = c.untracked := by rw [hs]
  have hempty := hwriter s s' hlike h (some .empty)
  have hcoherent := OutStream.coherent_of_empty (s := s) (H := H) hs
  obtain ⟨bytes, -, hwrote⟩ := hfits.writes hc hΓ _ _ hcoherent hempty
  refine ⟨hwriter.shared hlike h, bytes, hwrote.sink, fun r suffix hr hrest => ?_⟩
  obtain ⟨w, r', hread, hcursor, hmoved, -, -, hsame⟩ :=
    (hfits.mirrors hc hΓ bytes.length _ _ bytes hcoherent hempty hwrote (Nat.le_refl _) []
      List.prefix_rfl (by decide) (r.withTable (some #[])) suffix hr rfl hrest).ok_of
      (aligned_of_slots rfl) (.inl rfl) nofun
  have htracks : r'.tracks = true := hmoved.tracks
  have hslots : r'.slots = [] := by
    have hcount := hmoved.count
    exact List.eq_nil_of_length_eq_zero hcount
  have hany := (haloof.decode t).passes _ w r' hread rfl (shared_of_slots htracks hslots) r.shared
  exact ⟨w, r'.withTable r.shared, hany, rest_of_cursor hcursor hrest, rfl, u, rfl,
    hsame.mono fun _ _ _ => trivial⟩

/-- A value that is written without a table is read back without one, whatever stands behind it, and
all its objects come back as objects of their own. A value that has no shared objects is read back
past all tables, and the tables stay as they are. -/
theorem Schema.Admits.copied (hc : c.WellFormed) (hΓ : Γ.WellFormed) (hv : Γ.Admits c t v)
    (hs : s.context = c) (h : encode Γ t v s = .ok () s') :
    (s.tracks = false → ∃ bytes, s'.sink = s.sink.append (packed bytes) ∧
      ∀ r suffix, r.context = c → r.tracks = false → r.rest = bytes ++ suffix →
        ∃ w r', decode Γ t r = .ok w r' ∧ r'.rest = suffix ∧ Γ.Resembles t v w ∧
          (Γ.Linear c → c.registry.Linear → (w.nodes.map Node.id).Nodup)) ∧
    (v.nodes = [] → Γ.Drawn c → Γ.Aloof →
      s'.shared = s.shared ∧ ∃ bytes, s'.sink = s.sink.append (packed bytes) ∧
        ∀ r suffix, r.context = c → r.rest = bytes ++ suffix →
          ∃ w r', decode Γ t r = .ok w r' ∧ r'.rest = suffix ∧ r'.shared = r.shared ∧
            Γ.Resembles t v w) := by
  refine ⟨fun htracks => ?_, fun hnodes hdrawn haloof => hv.owned hc hΓ hnodes hdrawn haloof hs h⟩
  obtain ⟨bytes, hsink, hback⟩ := hv.untracked hc hΓ hs htracks h
  refine ⟨bytes, hsink, fun r suffix hr hnone hrest => ?_⟩
  obtain ⟨w, r', hread, hsuffix, hresembles⟩ := hback r suffix hr hnone hrest
  exact ⟨w, r', hread, hsuffix, hresembles, fun hΓ hlinear => hΓ.nodup hlinear hr hnone hread⟩

namespace Sample

/-- The recursive types are structs without bases, framed as arrays. -/
theorem plan_of_links {name : String} {item : Item Ty} {plan : Plan Ty}
    (h : links.plan? name = some (item, plan)) :
    ∃ fields, plan = .struct false fields ∧ ∀ f ∈ fields, f.marks.base = false := by
  have hname : ∃ q ∈ graphs, q.1 = name := by
    unfold Schema.plan? Schema.item? at h
    cases hlookup : links.types.lookup name with
    | none => simp [hlookup] at h
    | some declaration =>
        obtain ⟨before, after, hsplit, -⟩ := List.lookup_eq_some_iff.1 hlookup
        refine ⟨(name, declaration), ?_, rfl⟩
        rw [show graphs = links.types from rfl, hsplit]
        simp
  have hplans : ∀ q ∈ graphs, ∃ item fields, links.plan? q.1 = some (item, .struct false fields) ∧
      ∀ f ∈ fields, f.marks.base = false := by
    simp only [graphs, List.forall_mem_cons]
    refine ⟨⟨_, _, rfl, ?_⟩, ⟨_, _, rfl, ?_⟩, ⟨_, _, rfl, ?_⟩, ⟨_, _, rfl, ?_⟩, by simp⟩ <;> decide
  obtain ⟨q, hq, rfl⟩ := hname
  obtain ⟨item', fields, hplan, hbase⟩ := hplans q hq
  rw [hplan] at h
  cases h
  exact ⟨fields, rfl, hbase⟩

theorem wellFormed_links : links.WellFormed where
  bases name args item asMap fields hplan := by
    obtain ⟨fields', hfields, hbase⟩ := plan_of_links hplan
    cases hfields
    obtain ⟨fuel, hfuel⟩ := Schema.exists_baseDepth
    rw [hfuel]
    simp only [Schema.Nests, hplan]
    intro f hf htrue
    rw [hbase f hf] at htrue
    cases htrue
  keys name item fields hplan := by
    obtain ⟨fields', hfields, -⟩ := plan_of_links hplan
    cases hfields
  discriminants name item hplan := by
    obtain ⟨fields', hfields, -⟩ := plan_of_links hplan
    cases hfields
  places name item fields hplan := by
    obtain ⟨fields', hfields, -⟩ := plan_of_links hplan
    cases hfields

def registered (dedup : Bool) : Context :=
  { Context.standard with
    dedup
    registry := (Registry.empty.enter node 7).enter .u8 8 }

theorem wellFormed_registered (dedup : Bool) : (registered dedup).WellFormed where
  tags t tag h := by
    simp only [registered, Registry.tag?_enter] at h
    split at h
    · cases h
      decide
    · split at h
      · cases h
        decide
      · cases h
  places := Context.wellFormed_standard.places

theorem linear_registered (dedup : Bool) : (registered dedup).registry.Linear := by
  intro tag target upcast hupcast v
  simp only [registered, Registry.upcast?_enter] at hupcast
  split at hupcast
  · cases hupcast
    exact List.Subperm.refl _
  · split at hupcast
    · cases hupcast
      exact List.Subperm.refl _
    · cases hupcast

def lonelyNode (id : Identity) : Value := .shared id node (.list [.scalar (.int 2), .absent])

def sharedNodes : Value := .list [.present (lonelyNode 5), .absent, .present (lonelyNode 5)]

/-- A boxed byte, and what is missing at two levels of options. -/
def boxedByte : Value :=
  .list [.present (.present (.unique .u8 (.scalar (.int 5)))), .present .absent, .absent]

/-- A pointer to the lonely node stands for the node. -/
theorem fits_lonelyNode (tracks : Bool) {H : Heap}
    (hH : H 5 = ⟨node, node, .list [.scalar (.int 2), .absent]⟩) :
    Fits links (registered tracks) H false (.whole (.option (.shared node)))
      (.present (lonelyNode 5)) := by
  obtain ⟨item, fields, hplan, hparts⟩ : ∃ item fields,
      links.plan? (home ++ "::Node") = some (item, .struct false fields) ∧
      fields.map (MarkedField.part (Schema.arguments item [])) =
        [.whole .i32, .whole (.option (.shared node))] := ⟨_, _, rfl, rfl⟩
  have hlength : fields.length = 2 := by simpa using congrArg List.length hparts
  have hbody : Fits links (registered tracks) H false (.whole node)
      (.list [.scalar (.int 2), .absent]) := by
    refine .struct hplan hlength.symm fun q hq => ?_
    rw [hparts] at hq
    simp only [List.zip_cons_cons, List.zip_nil_right, List.mem_cons, List.not_mem_nil,
      or_false] at hq
    rcases hq with rfl | rfl
    · exact .scalar nofun rfl
    · exact .absent rfl
  exact .present rfl (.shared hH ⟨7, rfl, rfl⟩ hbody)

theorem admits_sharedNodes :
    links.Admits (registered false) (.vec (.option (.shared node))) sharedNodes := by
  let H : Heap := fun _ => ⟨node, node, .list [.scalar (.int 2), .absent]⟩
  refine ⟨H, sharedNodes, rfl, .list rfl fun q hq => ?_⟩
  simp only [List.replicate, List.length_cons, List.length_nil, List.zip_cons_cons,
    List.zip_nil_right, List.mem_cons, List.not_mem_nil, or_false] at hq
  rcases hq with rfl | rfl | rfl
  · exact fits_lonelyNode false rfl
  · exact .absent rfl
  · exact fits_lonelyNode false rfl

theorem admits_boxedByte :
    links.Admits (registered true) (.vec (.option (.option (.unique .u8)))) boxedByte := by
  let H : Heap := fun _ => ⟨.unit, .unit, .absent⟩
  refine ⟨H, boxedByte, rfl, .list rfl fun q hq => ?_⟩
  simp only [List.replicate, List.length_cons, List.length_nil, List.zip_cons_cons,
    List.zip_nil_right, List.mem_cons, List.not_mem_nil, or_false] at hq
  rcases hq with rfl | rfl | rfl
  · exact .present rfl (.present rfl (.unique ⟨8, rfl, rfl⟩ (.scalar nofun rfl)))
  · exact .present rfl (.absent rfl)
  · exact .absent rfl

end Sample

/-- Without tracking two pointers to one node come back as pointers to two nodes. With tracking
boxes come back, and the tables stay empty. -/
theorem copied_pointers :
    (∃ s' bytes, encode Sample.links (.vec (.option (.shared Sample.node))) Sample.sharedNodes
        (.ofSink (Sample.registered false) .growable none) = .ok () s' ∧
      s'.sink = ByteSink.growable.append (packed bytes) ∧
      ∃ w r', decode Sample.links (.vec (.option (.shared Sample.node)))
          (.ofBytes (Sample.registered false) (packed (bytes ++ [5])) 0 none) = .ok w r' ∧
        r'.rest = [5] ∧ (w.nodes.map Node.id).Nodup) ∧
    ∃ s' bytes, encode Sample.links (.vec (.option (.option (.unique .u8)))) Sample.boxedByte
        (.ofSink (Sample.registered true) .growable none) = .ok () s' ∧
      s'.sink = ByteSink.growable.append (packed bytes) ∧ s'.shared = some .empty ∧
      ∃ w r', decode Sample.links (.vec (.option (.option (.unique .u8))))
          (.ofBytes (Sample.registered true) (packed (bytes ++ [5])) 0 none) = .ok w r' ∧
        r'.rest = [5] ∧ r'.shared = some #[] := by
  constructor
  · obtain ⟨_, hs⟩ := ok_of_succeeds
      (x := encode Sample.links (.vec (.option (.shared Sample.node))) Sample.sharedNodes)
      (s := .ofSink (Sample.registered false) .growable none) (by decide +kernel)
    generalize stateAfter _ _ = s' at hs
    obtain ⟨bytes, hsink, hback⟩ := (Schema.Admits.copied (Sample.wellFormed_registered false)
      Sample.wellFormed_links Sample.admits_sharedNodes rfl hs).1 rfl
    obtain ⟨w, r', hread, hrest, -, hdistinct⟩ :=
      hback (.ofBytes (Sample.registered false) (packed (bytes ++ [5])) 0 none) [5] rfl rfl rfl
    exact ⟨s', bytes, hs, hsink, w, r', hread, hrest,
      hdistinct (.of_derived Sample.derived_graphs) (Sample.linear_registered false)⟩
  · obtain ⟨_, hs⟩ := ok_of_succeeds
      (x := encode Sample.links (.vec (.option (.option (.unique .u8)))) Sample.boxedByte)
      (s := .ofSink (Sample.registered true) .growable none) (by decide +kernel)
    generalize stateAfter _ _ = s' at hs
    obtain ⟨hshared, bytes, hsink, hback⟩ :=
      (Schema.Admits.copied (Sample.wellFormed_registered true) Sample.wellFormed_links
        Sample.admits_boxedByte rfl hs).2 rfl (.of_derived Sample.derived_graphs)
        (.of_derived Sample.derived_graphs)
    obtain ⟨w, r', hread, hrest, hsame, -⟩ :=
      hback (.ofBytes (Sample.registered true) (packed (bytes ++ [5])) 0 none) [5] rfl rfl
    exact ⟨s', bytes, hs, hsink, hshared, w, r', hread, hrest, hsame⟩

end ObjectStream
