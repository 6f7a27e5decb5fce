import ObjectStream.Proofs.RoundTrip
import ObjectStream.Proofs.Still

/-!
# Streams of values

Values that are written one after the other to a fresh stream are read one after
the other from a fresh stream over the bytes, whatever stands behind them. The
tables of both streams are empty at the start and aligned from then on.
-/

namespace ObjectStream

open InStream

def encodeAll (Γ : Schema) (values : List (Ty × Value)) : Writer Unit :=
  values.forM fun q => encode Γ q.1 q.2

def decodeAll (Γ : Schema) (types : List Ty) : Reader (List Value) := Reader.each (decode Γ) types

/-- The shared objects behind the pointers of some values in the order in which they are first
written. -/
def sharedObjects (values : List (Ty × Value)) : List Identity :=
  enterAll [] (Value.sightingsIn [] (values.map Prod.snd))

/-- Values that have been written one after the other to a fresh stream with an empty sink. -/
structure Recording (Γ : Schema) (c : Context) (H : Heap) where
  values : List (Ty × Value)
  sink : ByteSink
  journal : Journal
  final : OutStream
  fits : ∀ q ∈ values, Fits Γ c H false (.whole q.1) q.2
  empty : sink.data = .empty
  written : encodeAll Γ values (OutStream.ofSink c sink journal) = .ok () final

variable {Γ : Schema} {c : Context} {H : Heap}

theorem nodup_sharedObjects (values : List (Ty × Value)) : (sharedObjects values).Nodup :=
  nodup_enterAll List.nodup_nil _

/-- Values with their types as parts. -/
theorem encodeAll_eq (values : List (Ty × Value)) :
    encodeAll Γ values =
      Γ.writeParts (values.map fun q => .whole q.1) (values.map Prod.snd) := by
  induction values with
  | nil => rfl
  | cons q values ih =>
      rw [List.map_cons, List.map_cons, Schema.writeParts, ← ih]
      rfl

/-! ## Fresh streams -/

section Fresh

variable {sink : ByteSink} {journal : Journal}

theorem OutStream.tracks_ofSink :
    (OutStream.ofSink c sink journal).tracks = c.dedup := by
  unfold ofSink tracks
  cases c.dedup <;> rfl

theorem OutStream.entered_ofSink (c : Context) (sink : ByteSink) (journal : Journal) :
    (OutStream.ofSink c sink journal).entered = [] := by
  unfold ofSink entered
  cases c.dedup <;> rfl

theorem OutStream.coherent_ofSink : (OutStream.ofSink c sink journal).Coherent c H where
  context := rfl
  nodup := by
    rw [entered_ofSink]
    exact List.nodup_nil
  found := by
    intro table id tag serial hshared hfind
    unfold ofSink at hshared
    split at hshared <;> cases hshared
    simp [WrittenTable.find?, WrittenTable.empty] at hfind
  known := by
    intro table id _ _
    rw [entered_ofSink]
    exact List.not_mem_nil

theorem InStream.tracks_ofBytes (bytes : ByteArray) (next : Identity) :
    (InStream.ofBytes c bytes next journal).tracks = c.dedup := by
  unfold ofBytes tracks
  cases c.dedup <;> rfl

theorem InStream.slots_ofBytes (c : Context) (bytes : ByteArray) (next : Identity)
    (journal : Journal) : (InStream.ofBytes c bytes next journal).slots = [] := by
  unfold ofBytes slots
  cases c.dedup <;> rfl

/-- An empty table is aligned with every table. -/
theorem InStream.aligned_of_slots {W : List Identity} {r : InStream} (h : r.slots = []) :
    r.Aligned Γ c H W := by
  have hheld (k : Nat) : r.held? k = none := by
    rw [held?, h]
    rfl
  constructor
  · intro k slot object hk
    rw [h] at hk
    cases hk
  · intro k object hk
    rw [hheld] at hk
    cases hk
  · intro k l a b hk
    rw [hheld] at hk
    cases hk

end Fresh

/-! ## Reading back what was written -/

/-- The bound on the depth that a stream sets by itself is enough. -/
theorem Fits.mirrors (hc : c.WellFormed) (hΓ : Γ.WellFormed) {key : Bool} {t : Ty} {v : Value}
    (h : Fits Γ c H key (.whole t) v) (size : Nat) :
    Mirrors Γ c H size (fun seen => v.sightings seen) (encode Γ t v) (decode Γ t)
      fun ρ w => Same Γ ρ (.whole t) v w := by
  intro s s' bytes hs hx hwrote _ W hW hW32 r tail hcr htracks hrest
  have hbytes : bytes.length ≤ r.cursor.remaining := by
    rw [← r.length_rest, hrest, List.length_append]
    exact Nat.le_add_right _ _
  have hlevels := Schema.levels_le (.whole t)
  exact (h.readsBack hc hΓ).part bytes.length (depthBound r.cursor.remaining) 0
    (by unfold depthBound; omega) trivial s s' bytes hs hx hwrote (Nat.le_refl _) W hW hW32 r tail
    hcr htracks hrest

section Sequences

variable {values : List (Ty × Value)}

theorem Writes.sequence (hc : c.WellFormed) (hΓ : Γ.WellFormed)
    (hfits : ∀ q ∈ values, Fits Γ c H false (.whole q.1) q.2) :
    Writes c H (fun seen => Value.sightingsIn seen (values.map Prod.snd)) (fun _ => True)
      (encodeAll Γ values) := by
  rw [encodeAll_eq]
  refine Writes.parts (by simp) fun q hq => ?_
  rw [List.zip_map'] at hq
  obtain ⟨q', hq', rfl⟩ := List.mem_map.1 hq
  exact ((hfits q' hq').writes hc hΓ).imp fun _ _ => trivial

theorem Mirrors.sequence (hc : c.WellFormed) (hΓ : Γ.WellFormed)
    (hfits : ∀ q ∈ values, Fits Γ c H false (.whole q.1) q.2) (size : Nat) :
    Mirrors Γ c H size (fun seen => Value.sightingsIn seen (values.map Prod.snd))
      (encodeAll Γ values) (decodeAll Γ (values.map Prod.fst))
      fun ρ ws => SameAll Γ ρ (values.map fun q => .whole q.1) (values.map Prod.snd) ws := by
  have hread : decodeAll Γ (values.map Prod.fst) =
      Reader.each (Γ.readPart (decode Γ) 0) (values.map fun q => .whole q.1) := by
    rw [decodeAll, Reader.each_map, Reader.each_map]
    rfl
  rw [encodeAll_eq, hread]
  refine Mirrors.parts _ (by simp) (fun q hq => ?_) fun q hq => ?_
  all_goals
    rw [List.zip_map'] at hq
    obtain ⟨q', hq', rfl⟩ := List.mem_map.1 hq
  · exact ((hfits q' hq').writes hc hΓ).imp fun _ _ => trivial
  · exact (hfits q' hq').mirrors hc hΓ size

/-- A reader that is in step and has what is referred to does not fail. -/
theorem Outcome.ok_of {α : Type} {W : List Identity} {s s' : OutStream} {ids : List Identity}
    {bytes : List UInt8} {Q : Renaming → α → Prop} {r : InStream}
    {result : EStateM.Result StreamError InStream α}
    (h : Outcome Γ c H W s s' ids bytes Q r result) (ha : r.Aligned Γ c H W)
    (hstep : InStep s s' r) (hresolves : Resolves s ids r) :
    ∃ a r', result = .ok a r' ∧ r'.cursor = r.cursor.skip bytes.length ∧
      Moved r r' (s.newTags c H s') ∧ r'.Aligned Γ c H W ∧
      (∀ k, s.entered.length ≤ k → k < s'.entered.length → ∃ object, r'.held? k = some object) ∧
      Q (r'.bond W) a := by
  cases result with
  | error e r' => exact absurd hresolves (h.2 ha hstep).2
  | ok a r' =>
      obtain ⟨hcursor, hmoved, hright⟩ := h
      obtain ⟨ha', hfilled, hq⟩ := hright ha hstep
      exact ⟨a, r', rfl, hcursor, hmoved, ha', hfilled, hq⟩

end Sequences

namespace Recording

variable (R : Recording Γ c H)

def start : OutStream := .ofSink c R.sink R.journal

def parts : List Part := R.values.map fun q => .whole q.1

/-- What the stream holds in the end was written to it. -/
theorem wrote (hc : c.WellFormed) (hΓ : Γ.WellFormed) :
    Wrote c H (Value.sightingsIn [] (R.values.map Prod.snd)) (unpacked R.final.sink.data) R.start
      R.final := by
  obtain ⟨bytes, _, hwrote⟩ :=
    Writes.sequence hc hΓ R.fits _ R.final OutStream.coherent_ofSink R.written
  have hsink : R.final.sink.data = R.sink.data ++ packed bytes := by
    rw [hwrote.sink]
    rfl
  have hdata : unpacked R.final.sink.data = bytes := by
    rw [hsink, unpacked_append, R.empty, unpacked_packed]
    rfl
  rw [hdata]
  rwa [OutStream.entered_ofSink] at hwrote

/-- Reading goes over exactly what was written, and fills a place for each object. -/
theorem exists_decodeAll (hc : c.WellFormed) (hΓ : Γ.WellFormed)
    (hcount : R.final.entered.length ≤ 2 ^ 32) (tail : ByteArray) (next : Identity)
    (journal : Journal) :
    ∃ ws r, decodeAll Γ (R.values.map Prod.fst)
        (.ofBytes c (R.final.sink.data ++ tail) next journal) = .ok ws r ∧
      r.cursor = ⟨R.final.sink.data ++ tail, R.final.size⟩ ∧ r.tracks = c.dedup ∧
      r.Aligned Γ c H R.final.entered ∧ r.slots.length = R.final.entered.length ∧
      (∀ k, k < R.final.entered.length → ∃ object, r.held? k = some object) ∧
      SameAll Γ (r.bond R.final.entered) R.parts (R.values.map Prod.snd) ws := by
  have hwrote := R.wrote hc hΓ
  have hempty : R.start.entered = [] := OutStream.entered_ofSink c R.sink R.journal
  have hslots := InStream.slots_ofBytes c (R.final.sink.data ++ tail) next journal
  have hrest : (InStream.ofBytes c (R.final.sink.data ++ tail) next journal).rest =
      unpacked R.final.sink.data ++ unpacked tail := unpacked_append _ _
  have hread := Mirrors.sequence hc hΓ R.fits (unpacked R.final.sink.data).length R.start
    R.final _ OutStream.coherent_ofSink R.written (by rwa [hempty]) (Nat.le_refl _)
    R.final.entered List.prefix_rfl hcount _ _ rfl
    ((InStream.tracks_ofBytes _ _).trans OutStream.tracks_ofSink.symm) hrest
  obtain ⟨ws, r, hres, hcursor, hmoved, ha, hfilled, hsame⟩ :=
    hread.ok_of (aligned_of_slots hslots) (.inl (by rw [hslots, hempty]; rfl)) (by
      intro id _ k hk
      rw [hempty] at hk
      cases hk)
  have hlength := hmoved.count
  rw [hslots, OutStream.length_newTags, hempty] at hlength
  rw [hempty] at hfilled
  refine ⟨ws, r, hres, ?_, hmoved.tracks.trans (InStream.tracks_ofBytes _ _), ha,
    by simpa using hlength, fun k hk => hfilled k (Nat.zero_le k) hk, hsame⟩
  rw [hcursor, length_unpacked]
  simp [InStream.ofBytes, ByteCursor.ofBytes, ByteCursor.skip, OutStream.size, ByteSink.size]

end Recording

end ObjectStream
