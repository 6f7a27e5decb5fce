/-!
# Instants and spans

An instant is a signed number of nanoseconds since the first of January 1970,
a span an unsigned one. The wire carries the number alone; what is needed
besides are the texts of values that do not fit it. A date is found in the
proleptic Gregorian calendar by counting days in eras of four hundred years,
each of 146097 days, from the first of March, so that the leap day is the last
day of its year.
-/

namespace ObjectStream

namespace Time

def nanosPerSecond : Nat := 10 ^ 9

/-- The decimal digits of `n`, with leading zeros up to the given width. -/
def padded (width n : Nat) : String :=
  let ds := Nat.toDigits 10 n
  String.ofList (List.replicate (width - ds.length) '0' ++ ds)

def trimmedFraction (nanos : Nat) : String :=
  String.ofList ((padded 9 nanos).toList.reverse.dropWhile (· == '0')).reverse

/-- The text of a span of at least a second, in seconds. -/
def spanText (nanos : Nat) : String :=
  let fraction := nanos % nanosPerSecond
  let whole := toString (nanos / nanosPerSecond)
  if fraction = 0 then whole ++ "s" else whole ++ "." ++ trimmedFraction fraction ++ "s"

/-- The text of an instant of the system clock: floored seconds and the nanoseconds above. -/
def clockText (nanos : Int) : String :=
  let seconds := Int.fdiv nanos nanosPerSecond
  let rest := Int.fmod nanos nanosPerSecond
  "SystemTime \x7b tv_sec: " ++ toString seconds ++ ", tv_nsec: " ++ toString rest ++ " \x7d"

structure Date where
  year : Int
  month : Nat
  day : Nat
  deriving DecidableEq, Repr

/-- The date of a day, counted from the first of January 1970. -/
def Date.ofDays (days : Int) : Date :=
  let shifted := days + 719468
  let era := Int.fdiv shifted 146097
  let dayOfEra := (Int.fmod shifted 146097).toNat
  let yearOfEra :=
    (dayOfEra - dayOfEra / 1460 + dayOfEra / 36524 - dayOfEra / 146096) / 365
  let dayOfYear := dayOfEra - (365 * yearOfEra + yearOfEra / 4 - yearOfEra / 100)
  let monthFromMarch := (5 * dayOfYear + 2) / 153
  let day := dayOfYear - (153 * monthFromMarch + 2) / 5 + 1
  let month := if monthFromMarch < 10 then monthFromMarch + 3 else monthFromMarch - 9
  let year := (yearOfEra : Int) + era * 400 + (if month ≤ 2 then 1 else 0)
  { year, month, day }

/-- A year has four digits; outside of 0 to 9999 it has a sign and at least four. -/
def yearText (year : Int) : String :=
  if 0 ≤ year ∧ year ≤ 9999 then padded 4 year.toNat
  else (if year < 0 then "-" else "+") ++ padded 4 year.natAbs

/-- The fraction of a second with the fewest of three, six and nine digits that is exact, and
nothing when it is zero. -/
def fractionText (nanos : Nat) : String :=
  if nanos = 0 then ""
  else if nanos % 10 ^ 6 = 0 then "." ++ padded 3 (nanos / 10 ^ 6)
  else if nanos % 10 ^ 3 = 0 then "." ++ padded 6 (nanos / 10 ^ 3)
  else "." ++ padded 9 nanos

def calendarText (nanos : Int) : String :=
  let seconds := Int.fdiv nanos nanosPerSecond
  let rest := (Int.fmod nanos nanosPerSecond).toNat
  let date := Date.ofDays (Int.fdiv seconds 86400)
  let ofDay := (Int.fmod seconds 86400).toNat
  yearText date.year ++ "-" ++ padded 2 date.month ++ "-" ++ padded 2 date.day ++ " " ++
    padded 2 (ofDay / 3600) ++ ":" ++ padded 2 (ofDay / 60 % 60) ++ ":" ++
    padded 2 (ofDay % 60) ++ fractionText rest ++ " UTC"

end Time

end ObjectStream
