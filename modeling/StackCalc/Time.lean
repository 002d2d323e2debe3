import StackCalc.Error
import StackCalc.Rounding

/-!
Points in time and spans of time, as whole nanoseconds. An instant counts from the start of the
year 1970 in universal time. Instants of the years 0000 to 9999 are written as calendar dates, all
other times as seconds.
-/

namespace StackCalc

/-- A span of nanoseconds, or an instant so many nanoseconds after the epoch. -/
structure Time where
  nanos : Int
  absolute : Bool
deriving DecidableEq, Repr

namespace Time

def nanosPerSecond : Nat := 1000000000

def secondsPerDay : Nat := 86400

/-- The time of so many seconds, to the nearest nanosecond. -/
def ofSeconds (seconds : Rat) (absolute : Bool) : Time :=
  ⟨Rounding.nearest (seconds * (nanosPerSecond : Rat)), absolute⟩

/-- The exact number of seconds. -/
def seconds (t : Time) : Rat := mkRat t.nanos nanosPerSecond

def add (s t : Time) : Except Error Time :=
  if s.absolute && t.absolute then .error (.domain .addInstants)
  else .ok ⟨s.nanos + t.nanos, s.absolute || t.absolute⟩

/-- The difference: of two instants a span, of an instant and a span an instant. -/
def sub (s t : Time) : Except Error Time :=
  if !s.absolute && t.absolute then .error (.domain .subtractInstant)
  else .ok ⟨s.nanos - t.nanos, s.absolute && !t.absolute⟩

def neg (t : Time) : Except Error Time :=
  if t.absolute then .error (.domain .negateInstant) else .ok ⟨-t.nanos, false⟩

def scale (t : Time) (factor : Rat) : Except Error Time :=
  if t.absolute then .error (.domain .scaleInstant)
  else .ok ⟨Rounding.nearest ((t.nanos : Rat) * factor), false⟩

/-- The exact quotient of two spans. -/
def ratio (s t : Time) : Except Error Rat :=
  if s.absolute || t.absolute then .error (.domain .divideInstants)
  else if t.nanos = 0 then .error .divisionByZero
  else .ok ((s.nanos : Rat) / (t.nanos : Rat))

/-- The year, month and day that lie so many days after the start of 1970, in the Gregorian
calendar. Years are counted from March, so that a leap day ends its year, and in eras of 400
years, which all have the same number of days. -/
def civil (day : Int) : Int × Int × Int :=
  let z := day + 719468
  let era := z / 146097
  let dayOfEra := z % 146097
  let yearOfEra := (dayOfEra - dayOfEra / 1460 + dayOfEra / 36524 - dayOfEra / 146096) / 365
  let dayOfYear := dayOfEra - (365 * yearOfEra + yearOfEra / 4 - yearOfEra / 100)
  let march := (5 * dayOfYear + 2) / 153
  let d := dayOfYear - (153 * march + 2) / 5 + 1
  let m := if march < 10 then march + 3 else march - 9
  (yearOfEra + era * 400 + (if m ≤ 2 then 1 else 0), m, d)

/-- A number with at least `n` digits. -/
def padded (n : Nat) (v : Int) : String :=
  let ds := Numeral.digits 10 v.toNat
  String.ofList (List.replicate (n - ds.length) '0' ++ ds)

/-- The nanoseconds of a second as digits after a point, without zeros at the end. -/
def fraction (nanos : Int) : String :=
  if nanos = 0 then ""
  else
    let ds := (padded 9 nanos).toList
    "." ++ String.ofList (ds.reverse.dropWhile (· == '0')).reverse

/-- The date and time of day of an instant, in the internet format. -/
def timestamp (t : Time) : Except Error String :=
  let second := t.nanos / nanosPerSecond
  let clock := second % secondsPerDay
  let (y, m, d) := civil (second / secondsPerDay)
  if y < 0 ∨ 9999 < y then .error (.domain .timeOutOfRange)
  else .ok (padded 4 y ++ "-" ++ padded 2 m ++ "-" ++ padded 2 d ++ "T" ++ padded 2 (clock / 3600)
    ++ ":" ++ padded 2 (clock / 60 % 60) ++ ":" ++ padded 2 (clock % 60)
    ++ fraction (t.nanos % nanosPerSecond) ++ "Z")

/-- A time as a number of seconds. -/
def secondsText (t : Time) : String :=
  (if t.nanos < 0 then "-" else "") ++ Numeral.ofNat (t.nanos.natAbs / nanosPerSecond)
    ++ fraction (t.nanos.natAbs % nanosPerSecond : Nat) ++ (if t.absolute then "s@epoch" else "s")

def text (t : Time) : String :=
  if t.absolute then
    match t.timestamp with
    | .ok s => s
    | .error _ => t.secondsText
  else t.secondsText

end Time
end StackCalc
