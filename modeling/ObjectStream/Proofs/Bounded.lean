import ObjectStream.Proofs.Composed

/-!
# Bounded streams

A bounded stream does what a growing one does as long as there is room. Each
piece makes sure of room for exactly its own size before its first byte, so a
writer fails for want of room only where the growing stream would come to hold
more than the limit, and what it leaves is the whole pieces in front.

The comparison is of two runs from the same state, the limit apart. A failure of
the growing stream is one of the bounded stream too, but not always the same one:
the bounded stream may run out of room first.
-/

namespace ObjectStream

def ByteSink.boundedBy (sink : ByteSink) (cap : Nat) : ByteSink := { sink with limit := some cap }

def OutStream.boundedBy (s : OutStream) (cap : Nat) : OutStream :=
  { s with sink := s.sink.boundedBy cap }

theorem ByteSink.refusal?_boundedBy {sink : ByteSink} {cap n : Nat} (hsize : sink.size ≤ cap) :
    (sink.boundedBy cap).refusal? n =
      if sink.size + n ≤ cap then none else some (.overflow n (cap - sink.size)) := by
  have hroom : (sink.boundedBy cap).room? = some (cap - sink.size) := rfl
  rw [refusal?, hroom]
  dsimp only
  by_cases hfits : sink.size + n ≤ cap
  · rw [if_neg (by omega), if_pos hfits]
  · rw [if_pos (by omega), if_neg hfits]

namespace Writer

variable {α β : Type} {sink : ByteSink} {cap : Nat}

/-- How a run from a growing sink goes with a limit: the bytes fit, and all is the same; or they do
not, and some of them stay; or it fails in any case. -/
inductive Limited (cap : Nat) (sink : ByteSink) :
    EStateM.Result StreamError OutStream α → EStateM.Result StreamError OutStream α → Prop
  | fits {a : α} {t : OutStream} (bytes : List UInt8) : t.sink = sink.append (packed bytes) →
      sink.size + bytes.length ≤ cap → Limited cap sink (.ok a t) (.ok a (t.boundedBy cap))
  | overflows {a : α} {t u : OutStream} (bytes kept : List UInt8) (needed room : Nat) :
      t.sink = sink.append (packed bytes) → cap < sink.size + bytes.length → kept <+: bytes →
      u.sink = (sink.boundedBy cap).append (packed kept) →
      Limited cap sink (.ok a t) (.error (.overflow needed room) u)
  | fails {e e' : StreamError} {t u : OutStream} : Limited cap sink (.error e t) (.error e' u)

/-- The runs of a writer from a growing stream and from the same stream with a limit compare. -/
def Limits (x : Writer α) : Prop :=
  ∀ (s : OutStream) (cap : Nat), s.sink.limit = none → s.size ≤ cap →
    Limited cap s.sink (x s) (x (s.boundedBy cap))

namespace Limited

theorem same {a : α} {s : OutStream} (h : s.size ≤ cap) :
    Limited cap s.sink (.ok a s) (.ok a (s.boundedBy cap)) :=
  .fits [] s.sink.append_nil.symm h

/-- A run behind some bytes, as a run from in front of them. -/
theorem behind {bytes : List UInt8} {r r' : EStateM.Result StreamError OutStream α}
    (h : Limited cap (sink.append (packed bytes)) r r') : Limited cap sink r r' := by
  have hsize (more : List UInt8) : (sink.append (packed bytes)).size + more.length =
      sink.size + (bytes ++ more).length := by
    rw [ByteSink.size_append, size_packed, List.length_append, Nat.add_assoc]
  have hbounded (kept : List UInt8) : ((sink.append (packed bytes)).boundedBy cap).append
      (packed kept) = (sink.boundedBy cap).append (packed (bytes ++ kept)) :=
    (sink.boundedBy cap).append_packed bytes kept
  cases h with
  | fits more ht hfits =>
      rw [ByteSink.append_packed] at ht
      rw [hsize] at hfits
      exact .fits _ ht hfits
  | overflows more kept needed room ht hlong hkept hu =>
      rw [ByteSink.append_packed] at ht
      rw [hsize] at hlong
      rw [hbounded] at hu
      exact .overflows _ _ needed room ht hlong (List.prefix_append_right_inj bytes |>.2 hkept) hu
  | fails => exact .fails

end Limited

namespace Limits

theorem bind {x : Writer α} {f : α → Writer β} (hx : Limits x) (hf : ∀ a, Limits (f a)) :
    Limits (x >>= f) := by
  intro s cap hgrowing hsize
  have hfirst := hx s cap hgrowing hsize
  simp only [Bind.bind, EStateM.bind]
  generalize x s = r, x (s.boundedBy cap) = r' at hfirst
  cases hfirst with
  | fits bytes ht hfits =>
      next a t =>
      have hsecond := hf a t cap (by rw [ht]; exact hgrowing) (by
        rw [OutStream.size, ht, ByteSink.size_append, size_packed]
        exact hfits)
      rw [ht] at hsecond
      exact hsecond.behind
  | overflows bytes kept needed room ht hlong hkept hu =>
      next a t u =>
      -- What the growing stream appends next is in the way of nothing.
      have hsecond := hf a t t.size (by rw [ht]; exact hgrowing) (Nat.le_refl _)
      dsimp only
      generalize f a t = r, f a (t.boundedBy t.size) = r' at hsecond
      have hmore {b : β} {v : OutStream} {more : List UInt8}
          (hv : v.sink = t.sink.append (packed more)) :
          Limited cap s.sink (.ok b v) (.error (.overflow needed room) u) := by
        rw [ht, ByteSink.append_packed] at hv
        refine .overflows _ kept needed room hv ?_ (hkept.trans (List.prefix_append _ _)) hu
        rw [List.length_append]
        omega
      cases hsecond with
      | fits more hv _ => exact hmore hv
      | overflows more _ _ _ hv _ _ _ => exact hmore hv
      | fails => exact .fails
  | fails => exact .fails

theorem spell (f : Form) : Limits (Writer.spell f) := by
  intro s cap hgrowing hsize
  simp only [Writer.spell, Writer.raw, ByteSink.refusal?_growing hgrowing, size_packed]
  have hroom : (s.boundedBy cap).sink.refusal? (f s.context.byteOrder).length = _ :=
    ByteSink.refusal?_boundedBy hsize
  rw [show (s.boundedBy cap).context = s.context from rfl, hroom]
  by_cases hfits : s.sink.size + (f s.context.byteOrder).length ≤ cap
  · rw [if_pos hfits]
    exact .fits (f s.context.byteOrder) rfl hfits
  · rw [if_neg hfits]
    exact .overflows (f s.context.byteOrder) [] _ _ rfl (Nat.lt_of_not_le hfits)
      List.nil_prefix (ByteSink.append_nil _).symm

theorem checkBody (type : Ty) (start : Nat) : Limits (Writer.checkBody type start) := by
  intro s cap _ hsize
  have hbounded : (s.boundedBy cap).sink.data = s.sink.data := rfl
  simp only [Writer.checkBody, Bind.bind, EStateM.bind, byteAt?, hbounded]
  cases s.sink.data[start]? with
  | none => exact .same hsize
  | some code =>
      dsimp only
      by_cases hinteger : (Format.family code).isInteger = true
      · rw [if_pos hinteger]
        exact .fails
      · rw [if_neg hinteger]
        exact .same hsize

theorem shared {id : Identity} {type : Ty} {body : Writer Unit}
    (hpair : ∀ tag, Limits (taggedBody tag body))
    (hreference : ∀ tag serial, Limits (reference tag serial))
    (hfirst : ∀ tag, Limits (firstBody type tag body)) : Limits (Writer.shared id type body) := by
  intro s cap hgrowing hsize
  have hcontext : (s.boundedBy cap).context = s.context := rfl
  have htable : (s.boundedBy cap).shared = s.shared := rfl
  rw [shared_run, shared_run, hcontext, htable]
  cases s.context.registry.requireTag type with
  | error e => exact .fails
  | ok tag =>
      cases s.shared with
      | none => exact hpair tag s cap hgrowing hsize
      | some table =>
          cases hfind : table.find? id with
          | some found =>
              simp only [hfind]
              exact hreference _ _ (s.noted _) cap hgrowing hsize
          | none =>
              simp only [hfind]
              exact hfirst tag (s.enter table id tag) cap hgrowing hsize

end Limits

theorem Composed.limits {x : Writer α} (hx : x.Composed) : x.Limits := by
  refine of_pieces (M := Limits) ?_ hx
  constructor
  case pure => exact fun a s cap _ hsize => .same hsize
  case throw => exact fun e s cap _ _ => .fails
  case bind => exact Limits.bind
  case context | position => exact fun s cap _ hsize => .same hsize
  case spell => exact .spell
  case oversized =>
    intro n e s cap hgrowing hsize
    simp only [Bind.bind, EStateM.bind, ensureRoom, ByteSink.refusal?_growing hgrowing]
    cases (s.boundedBy cap).sink.refusal? n with
    | some e => exact .fails
    | none => exact .fails
  case checkBody => exact .checkBody
  case shared => exact fun id type _ _ => .shared

end Writer

/-! ## The limit -/

namespace OutStream

structure Capped (s : OutStream) (cap : Nat) : Prop where
  limit : s.sink.limit = some cap
  size_le : s.size ≤ cap

variable {s : OutStream} {cap : Nat}

theorem Capped.of_le {t : OutStream} (h : s.Capped cap) (hlimit : t.sink.limit = s.sink.limit)
    (hle : t.size ≤ s.size) : t.Capped cap :=
  ⟨hlimit.trans h.limit, Nat.le_trans hle h.size_le⟩

theorem kept_capped (cap : Nat) : Writer.Kept fun s => s.Capped cap := by
  constructor
  · intro s bytes hroom hs
    refine ⟨hs.limit, ?_⟩
    have hfits := (s.sink.refusal?_eq_none_iff _).1 hroom (cap - s.sink.size) (by
      rw [ByteSink.room?, hs.limit]
      rfl)
    have hsize := hs.size_le
    rw [OutStream.size] at hsize
    rw [OutStream.size, OutStream.append, ByteSink.size_append]
    omega
  · exact fun s event hs => hs.of_le rfl (Nat.le_refl _)
  · exact fun s table id tag _ _ hs => hs.of_le rfl (Nat.le_refl _)

end OutStream

namespace WriteOp

variable {Γ : Schema} {s : OutStream} {cap : Nat}

theorem capped_after (hΓ : Γ.Composed) (op : WriteOp) (hs : s.Capped cap) :
    (op.after Γ s).Capped cap := by
  rw [after_eq]
  have hempty : (ByteArray.empty).size ≤ s.size := Nat.zero_le _
  cases op with
  | backTo pos =>
      simp only [stateAfter, run, bind, EStateM.bind, Writer.backTo]
      by_cases hlt : s.size < pos
      · rw [if_pos hlt]
        exact hs
      · rw [if_neg hlt]
        have hle : (s.sink.truncate pos).size ≤ s.size := by
          rw [ByteSink.truncate, ByteSink.size, ByteArray.size_extract]
          exact Nat.le_trans (Nat.sub_le _ _) (Nat.min_le_right _ _)
        exact hs.of_le rfl hle
  | clear | handOver => exact hs.of_le rfl hempty
  | _ => exact (composed_run hΓ rfl).kept (OutStream.kept_capped cap) s hs

theorem capped_afterAll (hΓ : Γ.Composed) (ops : List WriteOp) (hs : s.Capped cap) :
    (afterAll Γ ops s).Capped cap := by
  induction ops generalizing s with
  | nil => exact hs
  | cons op ops ih => exact ih (capped_after hΓ op hs)

end WriteOp

theorem OutStream.capped_ofSink (c : Context) (cap : Nat) (journal : Journal) :
    (OutStream.ofSink c (.bounded cap) journal).Capped cap :=
  ⟨rfl, Nat.zero_le cap⟩

/-- Under a limit a value is written as on a growing stream if its bytes fit. If they do not, the
stream overflows and keeps some of the bytes in front. No stream ever holds more than its limit. -/
theorem Schema.Composed.bounded_refines {Γ : Schema} (hΓ : Γ.Composed) :
    (∀ (t : Ty) (v : Value) (s : OutStream) (cap : Nat), s.sink.limit = none → s.size ≤ cap →
      (∀ s', encode Γ t v s = .ok () s' → ∃ bytes, s'.sink = s.sink.append (packed bytes) ∧
        ((∃ u, encode Γ t v (s.boundedBy cap) = .ok () u) ↔ s.size + bytes.length ≤ cap) ∧
        (s.size + bytes.length ≤ cap →
          encode Γ t v (s.boundedBy cap) = .ok () (s'.boundedBy cap)) ∧
        (cap < s.size + bytes.length → ∃ needed room u kept,
          encode Γ t v (s.boundedBy cap) = .error (.overflow needed room) u ∧
          kept <+: bytes ∧ u.sink = (s.boundedBy cap).sink.append (packed kept))) ∧
      (∀ e s', encode Γ t v s = .error e s' →
        ∃ e' u, encode Γ t v (s.boundedBy cap) = .error e' u)) ∧
    ∀ (c : Context) (cap : Nat) (journal : Journal) (ops : List WriteOp),
      (WriteOp.afterAll Γ ops (.ofSink c (.bounded cap) journal)).size ≤ cap := by
  constructor
  · intro t v s cap hgrowing hsize
    have hlimits := (composed_writePart hΓ (.whole t) v).limits s cap hgrowing hsize
    rw [writePart] at hlimits
    generalize encode Γ t v s = r, encode Γ t v (s.boundedBy cap) = r' at hlimits ⊢
    constructor
    · rintro s' rfl
      cases hlimits with
      | fits bytes ht hfits =>
          refine ⟨bytes, ht, iff_of_true ⟨_, rfl⟩ hfits, fun _ => rfl, fun hlong => ?_⟩
          exact absurd hfits (Nat.not_le_of_lt hlong)
      | overflows bytes kept needed room ht hlong hkept hu =>
          have hnot := Nat.not_le_of_lt hlong
          refine ⟨bytes, ht, iff_of_false ?_ hnot, fun hfits => absurd hfits hnot,
            fun _ => ⟨needed, room, _, kept, rfl, hkept, hu⟩⟩
          rintro ⟨u, hu⟩
          cases hu
    · rintro e s' rfl
      cases hlimits
      exact ⟨_, _, rfl⟩
  · intro c cap journal ops
    exact (WriteOp.capped_afterAll hΓ ops (OutStream.capped_ofSink c cap journal)).size_le

/-- Two linked nodes take eleven bytes: they are written under a limit of eleven, and under a limit
of ten a part of them is. -/
theorem bounded_refines_firstNode :
    ∃ s' bytes, encode Sample.links (.shared Sample.node) Sample.firstNode
        (.ofSink Sample.tracked .growable none) = .ok () s' ∧
      s'.sink.data = packed bytes ∧ bytes.length = 11 ∧
      (∃ u, encode Sample.links (.shared Sample.node) Sample.firstNode
        (.ofSink Sample.tracked (.bounded 11) none) = .ok () u) ∧
      (∃ needed room u kept, encode Sample.links (.shared Sample.node) Sample.firstNode
          (.ofSink Sample.tracked (.bounded 10) none) = .error (.overflow needed room) u ∧
        kept <+: bytes ∧ u.sink.data = packed kept) ∧
      (WriteOp.afterAll Sample.links [.value (.shared Sample.node) Sample.firstNode]
        (.ofSink Sample.tracked (.bounded 10) none)).size ≤ 10 := by
  obtain ⟨_, hs⟩ := ok_of_succeeds
    (x := encode Sample.links (.shared Sample.node) Sample.firstNode)
    (s := .ofSink Sample.tracked .growable none) (by decide +kernel)
  have hrefines := Schema.Composed.bounded_refines Sample.composed_links
  have hgrowing := hrefines.1 (.shared Sample.node) Sample.firstNode
    (.ofSink Sample.tracked .growable none)
  have hdata (bytes : List UInt8) : ByteArray.empty ++ packed bytes = packed bytes := by
    simp
  obtain ⟨bytes, hsink, hfits, -, -⟩ := (hgrowing 11 rfl (by decide)).1 _ hs
  obtain ⟨bytes', hsink', -, -, hlong⟩ := (hgrowing 10 rfl (by decide)).1 _ hs
  have hbytes : _ = packed bytes := (congrArg ByteSink.data hsink).trans (hdata bytes)
  have hbytes' : _ = packed bytes' := (congrArg ByteSink.data hsink').trans (hdata bytes')
  obtain rfl : bytes = bytes' := congrArg unpacked (hbytes.symm.trans hbytes')
  have hlen : bytes.length = 11 := by
    rw [← size_packed, ← hbytes]
    decide +kernel
  obtain ⟨needed, room, u, kept, hrun, hkept, hu⟩ := hlong (by
    rw [hlen]
    decide)
  refine ⟨_, bytes, hs, hbytes, hlen, hfits.2 (by rw [hlen]; decide), ?_, hrefines.2 _ _ _ _⟩
  exact ⟨needed, room, u, kept, hrun, hkept, (congrArg ByteSink.data hu).trans (hdata kept)⟩

end ObjectStream
