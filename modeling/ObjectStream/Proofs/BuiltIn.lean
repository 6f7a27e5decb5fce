import ObjectStream.Proofs.Stream

/-!
# Built-in types

Values of the built-in types hold no pointers, so they are read back wherever
they stand, up to the order of hashed tables and the wording of error
categories. Types without these are exact: what is read is what was written.
-/

namespace ObjectStream

/-- The types that are built from scalars and error codes without pointers, references and declared
types. The exact ones have neither error codes nor hashed tables in them. -/
inductive Ty.BuiltIn (exact : Bool) : Ty → Prop
  | scalar {s} : s.Readable → BuiltIn exact (.scalar s)
  | errorCode : exact = false → BuiltIn exact .errorCode
  | tuple {ts} : (∀ t ∈ ts, BuiltIn exact t) → BuiltIn exact (.tuple ts)
  | array {e n} : BuiltIn exact e → BuiltIn exact (.array e n)
  | seq {kind e} : kind ≠ .slice → BuiltIn exact e → BuiltIn exact (.seq kind e)
  | set {kind e} : (exact = true → kind.isHashed = false) → BuiltIn exact e →
      BuiltIn exact (.set kind e)
  | map {kind t u} : (exact = true → kind.isHashed = false) → BuiltIn exact t →
      BuiltIn exact u → BuiltIn exact (.map kind t u)
  | option {t} : BuiltIn exact t → BuiltIn exact (.option t)

variable {Γ : Schema} {c : Context} {H : Heap} {exact : Bool}

/-- A built-in type comes without a writer and reader of its own. -/
theorem Ty.BuiltIn.codec?_eq {t : Ty} (ht : t.BuiltIn exact) : Γ.codec? t = none := by
  cases ht with
  | option ht => cases ht <;> rfl
  | _ => rfl

/-- The parts of a built-in type are built in. -/
theorem Schema.parts_builtIn {t : Ty} (ht : t.BuiltIn exact) {n : Nat} {ps : List Part}
    (hparts : Γ.parts (.whole t) n = some ps) : ∀ p ∈ ps, ∃ u, p = .whole u ∧ u.BuiltIn exact := by
  intro p hp
  cases ht with
  | tuple hts =>
      simp only [parts] at hparts
      split at hparts
      · cases hparts
        obtain ⟨u, hu, rfl⟩ := List.mem_map.1 hp
        exact ⟨u, rfl, hts u hu⟩
      · cases hparts
  | array he =>
      simp only [parts] at hparts
      split at hparts
      · cases hparts
        exact ⟨_, List.eq_of_mem_replicate hp, he⟩
      · cases hparts
  | @seq kind e hkind he =>
      cases kind with
      | slice => exact absurd rfl hkind
      | _ =>
          cases hparts
          exact ⟨_, List.eq_of_mem_replicate hp, he⟩
  | _ => cases hparts

/-- A pair of built-in types is built in. -/
theorem Ty.BuiltIn.pair {t u : Ty} (ht : t.BuiltIn exact) (hu : u.BuiltIn exact) :
    (Ty.tuple [t, u]).BuiltIn exact :=
  .tuple (by
    simp only [List.forall_mem_cons, List.not_mem_nil, false_implies, implies_true, and_true]
    exact ⟨ht, hu⟩)

theorem Value.sightingsIn_nil {vs : List Value} (h : ∀ v ∈ vs, ∀ seen, v.sightings seen = [])
    (seen : List Identity) : Value.sightingsIn seen vs = [] := by
  induction vs generalizing seen with
  | nil => rfl
  | cons v vs ih =>
      rw [List.forall_mem_cons] at h
      rw [sightingsIn, h.1 seen, List.nil_append]
      exact ih h.2 _

/-- There are no pointers in a built-in value. -/
theorem Fits.sightings_builtIn {key : Bool} {p : Part} {v : Value} (h : Fits Γ c H key p v) :
    ∀ t, p = .whole t → t.BuiltIn exact → ∀ seen, v.sightings seen = [] := by
  induction h with
  | scalar _ _ | errorCode _ | absent => exact fun _ _ _ _ => rfl
  | @list key p ps vs hparts _ ih =>
      rintro t rfl ht seen
      refine Value.sightingsIn_nil (fun v hv => ?_) seen
      obtain ⟨q, hq⟩ := exists_mem_zip (Schema.length_parts hparts) hv
      obtain ⟨u, rfl, hu⟩ := Schema.parts_builtIn ht hparts q (List.of_mem_zip hq).1
      exact ih _ hq u rfl hu
  | set _ _ _ ih =>
      rintro t ⟨⟩ ht seen
      cases ht with
      | set _ he => exact Value.sightingsIn_nil (fun v hv => ih v hv _ rfl he) seen
  | map _ _ _ _ ihk ihv =>
      rintro t ⟨⟩ ht seen
      cases ht with
      | map _ hk hu =>
          refine Value.sightingsIn_nil (fun v hv seen => ?_) seen
          obtain ⟨e, he, rfl⟩ := List.mem_map.1 hv
          rw [Value.ofPair, Value.sightings, Value.sightingsIn, ihk e he _ rfl hk,
            Value.sightingsIn, ihv e he _ rfl hu]
          rfl
  | present _ _ ih =>
      rintro t ⟨⟩ ht seen
      cases ht with
      | option ht => exact ih _ rfl ht seen
  | custom hcodec _ _ =>
      rintro t ⟨⟩ ht
      rw [ht.codec?_eq] at hcodec
      cases hcodec
  | struct | bare | variant | shared | unique =>
      rintro t ⟨⟩ ht
      cases ht
  | rule => rintro t ⟨⟩

/-- What two values of a built-in type have in common does not depend on pointers. -/
theorem Same.of_builtIn {ρ ρ' : Renaming} {p : Part} {v w : Value} (h : Same Γ ρ p v w) :
    ∀ t, p = .whole t → t.BuiltIn exact → Same Γ ρ' p v w := by
  induction h with
  | scalar => exact fun _ _ _ => .scalar
  | errorCode hsame => exact fun _ _ _ => .errorCode hsame
  | list hparts hlen _ ih =>
      rintro t rfl ht
      refine .list hparts hlen fun q hq => ?_
      obtain ⟨u, hu, hbuiltIn⟩ := Schema.parts_builtIn ht hparts q.1 (List.of_mem_zip hq).1
      exact ih q hq u hu hbuiltIn
  | set hlen _ hperm heq ih =>
      rintro t ⟨⟩ ht
      cases ht with
      | set _ he => exact .set hlen (fun q hq => ih q hq _ rfl he) hperm heq
  | map hlen _ hperm heq ih =>
      rintro t ⟨⟩ ht
      cases ht with
      | map _ hk hu => exact .map hlen (fun q hq => ih q hq _ rfl (hk.pair hu)) hperm heq
  | absent => exact fun _ _ _ => .absent
  | present hcodec _ ih =>
      rintro t ⟨⟩ ht
      cases ht with
      | option ht => exact .present hcodec (ih _ rfl ht)
  | custom hcodec => exact fun _ _ _ => .custom hcodec
  | struct | bare | variant | shared | unique =>
      rintro t ⟨⟩ ht
      cases ht
  | rule => rintro t ⟨⟩

theorem eq_of_zip {α : Type} (ps : List α) {vs ws : List Value} (hlen : ps.length = vs.length)
    (hws : ws.length = vs.length) (h : ∀ q ∈ ps.zip (vs.zip ws), q.2.2 = q.2.1) : ws = vs := by
  have hmap := map_eq_of_zip id ps hlen hws h
  rwa [List.map_id, List.map_id] at hmap

/-- Values of an exact type are the same only if they are equal. -/
theorem Same.eq_of_exact {ρ : Renaming} {p : Part} {v w : Value} (h : Same Γ ρ p v w) :
    ∀ t, p = .whole t → t.BuiltIn true → w = v := by
  induction h with
  | scalar | absent | custom | rule => exact fun _ _ _ => rfl
  | errorCode _ =>
      rintro t ⟨⟩ ht
      cases ht with
      | errorCode hexact => cases hexact
  | @list p ps vs ws hparts hlen _ ih =>
      rintro t rfl ht
      rw [eq_of_zip ps (Schema.length_parts hparts) hlen fun q hq => ?_]
      obtain ⟨u, hu, hbuiltIn⟩ := Schema.parts_builtIn ht hparts q.1 (List.of_mem_zip hq).1
      exact ih q hq u hu hbuiltIn
  | @set kind t vs us ws hlen _ hperm heq ih =>
      rintro t ⟨⟩ ht
      cases ht with
      | set hhashed he =>
          rw [← heq (hhashed rfl), eq_of_zip vs rfl hlen fun q hq => ?_]
          exact ih q.2 (List.of_mem_zip hq).2 _ rfl he
  | @map kind t u vs us ws hlen _ hperm heq ih =>
      rintro t ⟨⟩ ht
      cases ht with
      | map hhashed hk hu =>
          rw [← heq (hhashed rfl), eq_of_zip vs rfl hlen fun q hq => ?_]
          exact ih q.2 (List.of_mem_zip hq).2 _ rfl (hk.pair hu)
  | present _ _ ih =>
      rintro t ⟨⟩ ht
      cases ht with
      | option ht => rw [ih _ rfl ht]
  | struct | bare | variant | shared | unique =>
      rintro t ⟨⟩ ht
      cases ht

/-- Values of built-in types enter no objects. -/
theorem Wrote.entered_builtIn {values : List (Ty × Value)} {s s' : OutStream} {bytes : List UInt8}
    (hbuiltIn : ∀ q ∈ values, q.1.BuiltIn exact)
    (hfits : ∀ q ∈ values, Fits Γ c H false (.whole q.1) q.2)
    (h : Wrote c H (Value.sightingsIn [] (values.map Prod.snd)) bytes s s')
    (hs : s.entered = []) : s'.entered = [] := by
  have hplain : Value.sightingsIn [] (values.map Prod.snd) = [] := by
    refine Value.sightingsIn_nil (fun v hv => ?_) []
    obtain ⟨q, hq, rfl⟩ := List.mem_map.1 hv
    exact (hfits q hq).sightings_builtIn _ rfl (hbuiltIn q hq)
  rw [h.entered, hplain, OutStream.enteredWith, hs]
  split <;> rfl

/-- Values of built-in types are read back, whatever stands behind them, and the reader stops in
front of that. -/
theorem Recording.exists_same (hc : c.WellFormed) (hΓ : Γ.WellFormed) (R : Recording Γ c H)
    (hbuiltIn : ∀ q ∈ R.values, q.1.BuiltIn false) (tail : ByteArray) (next : Identity)
    (journal : Journal) :
    ∃ ws r, decodeAll Γ (R.values.map Prod.fst)
        (.ofBytes c (R.final.sink.data ++ tail) next journal) = .ok ws r ∧
      r.pos = R.final.size ∧ r.rest = unpacked tail ∧ ws.length = R.values.length ∧
      ∀ q ∈ R.values.zip ws, Same Γ (fun _ _ => False) (.whole q.1.1) q.1.2 q.2 ∧
        (q.1.1.BuiltIn true → q.2 = q.1.2) := by
  have hentered : R.final.entered = [] :=
    (R.wrote hc hΓ).entered_builtIn hbuiltIn R.fits
      (OutStream.entered_ofSink c R.sink R.journal)
  have hcount : R.final.entered.length ≤ 2 ^ 32 := by
    rw [hentered]
    exact Nat.zero_le _
  obtain ⟨ws, r, hread, hcursor, _, _, _, _, hlength, hsame⟩ :=
    R.exists_decodeAll hc hΓ hcount tail next journal
  refine ⟨ws, r, hread, ?_, ?_, by simpa using hlength, fun q hq => ?_⟩
  · rw [InStream.pos, hcursor]
  · rw [InStream.rest, hcursor, unpacked_append]
    exact List.drop_left
  · have hmem : (Part.whole q.1.1, q.1.2, q.2) ∈
        R.parts.zip ((R.values.map Prod.snd).zip ws) := by
      obtain ⟨i, hi⟩ := List.mem_iff_getElem?.1 hq
      obtain ⟨hvalue, hw⟩ := List.getElem?_zip_eq_some.1 hi
      refine List.mem_iff_getElem?.2 ⟨i, ?_⟩
      simp only [parts, List.getElem?_zip_eq_some, List.getElem?_map, hvalue, hw,
        Option.map_some, and_self]
    have hq' := hsame _ hmem
    exact ⟨hq'.of_builtIn _ rfl (hbuiltIn _ (List.of_mem_zip hq).1), hq'.eq_of_exact _ rfl⟩

def nestedRoots : List (Ty × Value) :=
  [(.option (.option .u8), .present .absent),
    (.map .ordered .i8 .bool, .list
      [.list [.scalar (.int (-7)), .scalar (.bool true)],
        .list [.scalar (.int 3), .scalar (.bool false)]])]

theorem builtIn_nestedRoots : ∀ q ∈ nestedRoots, q.1.BuiltIn exact := by
  simp only [nestedRoots, List.forall_mem_cons, List.not_mem_nil, false_implies, implies_true,
    and_true]
  exact ⟨.option (.option (.scalar nofun)),
    .map (fun _ => rfl) (.scalar nofun) (.scalar nofun)⟩

theorem fits_nestedRoots : ∀ q ∈ nestedRoots, Fits .empty c H false (.whole q.1) q.2 := by
  have hmap : Fits .empty c H false (.whole (.map .ordered .i8 .bool))
      (.list ([(.scalar (.int (-7)), .scalar (.bool true)),
        (.scalar (.int 3), .scalar (.bool false))].map .ofPair)) := by
    refine .map nofun (.cons (by decide) (List.pairwise_singleton _ _)) ?_ ?_
    all_goals
      simp only [List.forall_mem_cons, List.not_mem_nil, false_implies, implies_true, and_true]
      exact ⟨.scalar nofun rfl, .scalar nofun rfl⟩
  simp only [nestedRoots, List.forall_mem_cons, List.not_mem_nil, false_implies, implies_true,
    and_true]
  exact ⟨.present rfl (.absent rfl), hmap⟩

/-- Both are read back, and a byte that starts no value is left. -/
theorem exists_same_nestedRoots :
    ∃ s, encodeAll .empty nestedRoots (OutStream.ofSink .standard .growable none) = .ok () s ∧
      ∃ ws r, decodeAll .empty (nestedRoots.map Prod.fst)
          (.ofBytes .standard (s.sink.data ++ packed [0xc1]) 0 none) = .ok ws r ∧
        r.pos = s.size ∧ r.rest = [0xc1] ∧ ws.length = 2 ∧
        ∀ q ∈ nestedRoots.zip ws, q.2 = q.1.2 := by
  obtain ⟨⟨⟩, hs⟩ := ok_of_succeeds (x := encodeAll .empty nestedRoots)
    (s := OutStream.ofSink .standard .growable none) (by decide +kernel)
  generalize stateAfter _ _ = s at hs
  obtain ⟨ws, r, hread, hpos, hrest, hlength, hsame⟩ :=
    Recording.exists_same (H := fun _ => ⟨.unit, .unit, .absent⟩) Context.wellFormed_standard
      Schema.wellFormed_empty ⟨nestedRoots, .growable, none, _, fits_nestedRoots, rfl, hs⟩
      builtIn_nestedRoots (packed [0xc1]) 0 none
  refine ⟨_, hs, ws, r, hread, hpos, hrest, hlength, fun q hq => ?_⟩
  exact (hsame q hq).2 (builtIn_nestedRoots _ (List.of_mem_zip hq).1)

end ObjectStream
