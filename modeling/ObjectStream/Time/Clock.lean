import ObjectStream.Time

/-!
# The clock

A span is kept as whole seconds and the nanoseconds above them, and an instant of
the clock as the seconds since the epoch, rounded down, and the nanoseconds above.
Its ticks are the nanoseconds since the epoch, a signed number of 64 bits. A span has
no sign, so the ticks of an instant before the epoch are found from the span that is
left up to it, and an instant is found from its ticks by going on from the epoch or
back by a span.
-/

namespace ObjectStream

namespace Time

def signed? (bits : Nat) (n : Int) : Option Int :=
  if -2 ^ (bits - 1) ≤ n ∧ n < 2 ^ (bits - 1) then some n else none

/-- A span: whole seconds, and the nanoseconds above them. -/
structure Span where
  seconds : Nat
  nanos : Nat
  nanos_lt : nanos < nanosPerSecond
  deriving DecidableEq

namespace Span

def total (d : Span) : Nat := d.seconds * nanosPerSecond + d.nanos

def ofNanos (n : Nat) : Span :=
  ⟨n / nanosPerSecond, n % nanosPerSecond, Nat.mod_lt n (by decide)⟩

@[simp] theorem total_ofNanos (n : Nat) : (ofNanos n).total = n :=
  Nat.div_add_mod' n nanosPerSecond

theorem total_inj {d e : Span} : d.total = e.total ↔ d = e := by
  refine ⟨fun h => ?_, congrArg total⟩
  obtain ⟨seconds, nanos, hnanos⟩ := d
  obtain ⟨seconds', nanos', hnanos'⟩ := e
  have hlt : nanos < 10 ^ 9 := hnanos
  have hlt' : nanos' < 10 ^ 9 := hnanos'
  simp only [total, nanosPerSecond] at h
  rw [mk.injEq]
  omega

end Span

/-- An instant: the seconds since the epoch, rounded down, and the nanoseconds above. -/
structure Instant where
  seconds : Int
  nanos : Nat
  nanos_lt : nanos < nanosPerSecond
  deriving DecidableEq

/-- How an instant stands to another one: so much behind it, or so much in front of it. -/
inductive Offset
  | after (span : Span)
  | before (span : Span)
  deriving DecidableEq

namespace Instant

/-- The first of January 1970. -/
def epoch : Instant := ⟨0, 0, by decide⟩

/-- The nanoseconds from the epoch, negative in front of it. -/
def total (t : Instant) : Int := t.seconds * nanosPerSecond + t.nanos

def ofNanos (n : Int) : Instant :=
  ⟨n / nanosPerSecond, (n % nanosPerSecond).toNat, by
    have hlt := Int.emod_lt_of_pos n (show (0 : Int) < nanosPerSecond by decide)
    exact (Int.toNat_lt' (by decide)).2 hlt⟩

def isFrom (t u : Instant) : Bool :=
  u.seconds < t.seconds || u.seconds == t.seconds && u.nanos ≤ t.nanos

def spanTo (u t : Instant) : Span :=
  if h : u.nanos ≤ t.nanos then
    ⟨(t.seconds - u.seconds).toNat, t.nanos - u.nanos,
      Nat.lt_of_le_of_lt (Nat.sub_le _ _) t.nanos_lt⟩
  else
    ⟨(t.seconds - u.seconds - 1).toNat, t.nanos + nanosPerSecond - u.nanos, by
      have hu := u.nanos_lt
      omega⟩

def offsetFrom (t u : Instant) : Offset :=
  if t.isFrom u then .after (u.spanTo t) else .before (t.spanTo u)

/-- The instant a span later, if its seconds are a number of 64 bits. -/
def later? (t : Instant) (d : Span) : Option Instant := do
  let seconds ← signed? 64 (t.seconds + d.seconds)
  if h : t.nanos + d.nanos < nanosPerSecond then
    pure ⟨seconds, t.nanos + d.nanos, h⟩
  else do
    let seconds ← signed? 64 (seconds + 1)
    pure ⟨seconds, t.nanos + d.nanos - nanosPerSecond, by
      have ht := t.nanos_lt
      have hd := d.nanos_lt
      omega⟩

def earlier? (t : Instant) (d : Span) : Option Instant := do
  let seconds ← signed? 64 (t.seconds - d.seconds)
  if h : d.nanos ≤ t.nanos then
    pure ⟨seconds, t.nanos - d.nanos, Nat.lt_of_le_of_lt (Nat.sub_le _ _) t.nanos_lt⟩
  else do
    let seconds ← signed? 64 (seconds - 1)
    pure ⟨seconds, t.nanos + nanosPerSecond - d.nanos, by
      have hd := d.nanos_lt
      omega⟩

end Instant

/-- The nanoseconds of an offset. A span is a signed number of 128 bits before it gets its sign. -/
def Offset.nanos? : Offset → Option Int
  | .after d => signed? 128 d.total
  | .before d => (- ·) <$> signed? 128 d.total

/-- The ticks of an instant, if they are a number of 64 bits. -/
def Instant.ticks? (t : Instant) : Option Int := (t.offsetFrom epoch).nanos? >>= signed? 64

def Instant.ofTicks? (ticks : Int) : Option Instant :=
  let offset := Span.ofNanos ticks.natAbs
  if 0 ≤ ticks then epoch.later? offset else epoch.earlier? offset

/-! ## Ticks are nanoseconds -/

theorem signed?_of_range {bits : Nat} {n : Int} (hlow : -2 ^ (bits - 1) ≤ n)
    (hhigh : n < 2 ^ (bits - 1)) : signed? bits n = some n :=
  if_pos ⟨hlow, hhigh⟩

/-- What fits 64 bits fits 128 bits on the way. -/
theorem signed?_bind (n : Int) : (signed? 128 n >>= signed? 64) = signed? 64 n := by
  by_cases h : -2 ^ (128 - 1) ≤ n ∧ n < 2 ^ (128 - 1)
  · rw [signed?, if_pos h]
    rfl
  · have hout : ¬ (-2 ^ (64 - 1) ≤ n ∧ n < 2 ^ (64 - 1)) := by omega
    rw [signed?, if_neg h, signed?, if_neg hout]
    rfl

/-- The bound of 128 bits is not the same on both sides, but far from the one of 64 bits. -/
theorem signed?_neg_bind (n : Int) :
    (((- ·) <$> signed? 128 n : Option Int) >>= signed? 64) = signed? 64 (-n) := by
  by_cases h : -2 ^ (128 - 1) ≤ n ∧ n < 2 ^ (128 - 1)
  · rw [signed?, if_pos h]
    rfl
  · have hout : ¬ (-2 ^ (64 - 1) ≤ -n ∧ -n < 2 ^ (64 - 1)) := by omega
    rw [signed?, if_neg h, signed?, if_neg hout]
    rfl

namespace Instant

@[simp] theorem total_ofNanos (n : Int) : (ofNanos n).total = n := by
  have hnonneg := Int.emod_nonneg n (show (nanosPerSecond : Int) ≠ 0 by decide)
  rw [total, ofNanos, Int.toNat_of_nonneg hnonneg]
  exact Int.mul_comm _ _ ▸ Int.mul_ediv_add_emod n nanosPerSecond

theorem total_inj {t u : Instant} : t.total = u.total ↔ t = u := by
  refine ⟨fun h => ?_, congrArg total⟩
  obtain ⟨seconds, nanos, hnanos⟩ := t
  obtain ⟨seconds', nanos', hnanos'⟩ := u
  have hlt : nanos < 10 ^ 9 := hnanos
  have hlt' : nanos' < 10 ^ 9 := hnanos'
  simp only [total, nanosPerSecond] at h
  rw [mk.injEq]
  omega

theorem isFrom_iff (t u : Instant) : t.isFrom u = true ↔ u.total ≤ t.total := by
  have ht := t.nanos_lt
  have hu := u.nanos_lt
  simp only [isFrom, total, nanosPerSecond, Bool.or_eq_true, Bool.and_eq_true, decide_eq_true_eq,
    beq_iff_eq] at ht hu ⊢
  omega

theorem total_spanTo {t u : Instant} (h : u.total ≤ t.total) :
    ((u.spanTo t).total : Int) = t.total - u.total := by
  have ht := t.nanos_lt
  have hu := u.nanos_lt
  rw [spanTo]
  split
  all_goals
    simp only [total, Span.total, nanosPerSecond] at ht hu h ⊢
    omega

/-- Whichever side of the epoch an instant is on, its ticks are its nanoseconds. -/
theorem ticks?_eq (t : Instant) : t.ticks? = signed? 64 t.total := by
  have hepoch : epoch.total = 0 := rfl
  rw [ticks?, offsetFrom]
  split
  · next h =>
      have hspan := total_spanTo ((t.isFrom_iff epoch).1 h)
      rw [hepoch, Int.sub_zero] at hspan
      rw [Offset.nanos?, hspan, signed?_bind]
  · next h =>
      have hlt : t.total < epoch.total := Int.not_le.1 fun hle => h ((t.isFrom_iff epoch).2 hle)
      have hspan := total_spanTo (Int.le_of_lt hlt)
      rw [hepoch, Int.zero_sub] at hspan
      rw [Offset.nanos?, hspan, signed?_neg_bind, Int.neg_neg]

example : (ofNanos (-2 ^ 63)).ticks? = some (-2 ^ 63) ∧ (ofNanos (-2 ^ 63 - 1)).ticks? = none := by
  decide

/-- Every number of 64 bits is the ticks of an instant, the least one too. -/
theorem exists_ofTicks? {ticks : Int} (hlow : -2 ^ 63 ≤ ticks) (hhigh : ticks < 2 ^ 63) :
    ∃ t, ofTicks? ticks = some t ∧ t.total = ticks := by
  have hspan := Span.total_ofNanos ticks.natAbs
  have hnanos := (Span.ofNanos ticks.natAbs).nanos_lt
  rw [ofTicks?]
  generalize Span.ofNanos ticks.natAbs = d at hspan hnanos ⊢
  simp only [Span.total, nanosPerSecond] at hspan hnanos
  have hseconds : (d.seconds : Int) < 2 ^ 62 := by omega
  by_cases hsign : 0 ≤ ticks
  · have hafter : signed? 64 (epoch.seconds + d.seconds) = some (epoch.seconds + d.seconds) :=
      signed?_of_range (by simp only [epoch]; omega) (by simp only [epoch]; omega)
    have hsum : epoch.nanos + d.nanos < nanosPerSecond := by
      simp only [epoch, nanosPerSecond]
      omega
    refine ⟨⟨epoch.seconds + d.seconds, epoch.nanos + d.nanos, hsum⟩, ?_, ?_⟩
    · simp only [if_pos hsign, later?, hafter, dif_pos hsum, Option.bind_eq_bind, Option.bind_some]
      rfl
    · simp only [total, epoch, nanosPerSecond]
      omega
  · have hbefore : signed? 64 (epoch.seconds - d.seconds) = some (epoch.seconds - d.seconds) :=
      signed?_of_range (by simp only [epoch]; omega) (by simp only [epoch]; omega)
    simp only [if_neg hsign, earlier?, hbefore, Option.bind_eq_bind, Option.bind_some]
    by_cases hdiff : d.nanos ≤ epoch.nanos
    · refine ⟨_, dif_pos hdiff, ?_⟩
      simp only [total, epoch, nanosPerSecond] at hdiff ⊢
      omega
    · -- One second more is taken, and the rest of it given back.
      have hborrow : signed? 64 (epoch.seconds - d.seconds - 1) =
          some (epoch.seconds - d.seconds - 1) :=
        signed?_of_range (by simp only [epoch]; omega) (by simp only [epoch]; omega)
      simp only [dif_neg hdiff, hborrow, Option.bind_some]
      refine ⟨_, rfl, ?_⟩
      simp only [total, epoch, nanosPerSecond] at hdiff ⊢
      omega

end Instant

end Time

end ObjectStream
