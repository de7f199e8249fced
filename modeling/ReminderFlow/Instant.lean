namespace ReminderFlow

structure Instant where
  micros : Nat
  deriving DecidableEq, Inhabited

namespace Instant

def microsPerSecond : Nat := 1000000

def microsPerDay : Nat := 86400 * microsPerSecond

/-- How many days there are up to the end of the year 9999. -/
def days : Nat := 3652059

/-- The point in time that lies later by some microseconds, if it is still in the calendar. -/
def after? (t : Instant) (micros : Nat) : Option Instant :=
  if t.micros + micros < days * microsPerDay then some ⟨t.micros + micros⟩ else none

/-- The point in time that lies so many microseconds after the start of the year 1970. -/
def ofUnixMicros (micros : Nat) : Instant := ⟨719162 * microsPerDay + micros⟩

/-- Year, month and day of a day, counted from the first of March of the year 0. -/
def civil (day : Nat) : Nat × Nat × Nat :=
  let shifted := day + 306
  let era := shifted / 146097
  let dayOfEra := shifted % 146097
  let yearOfEra := (dayOfEra - dayOfEra / 1460 + dayOfEra / 36524 - dayOfEra / 146096) / 365
  let dayOfYear := dayOfEra - (365 * yearOfEra + yearOfEra / 4 - yearOfEra / 100)
  let march := (5 * dayOfYear + 2) / 153
  let dayOfMonth := dayOfYear - (153 * march + 2) / 5 + 1
  let month := if march < 10 then march + 3 else march - 9
  let year := era * 400 + yearOfEra + (if month ≤ 2 then 1 else 0)
  (year, month, dayOfMonth)

def padded (width n : Nat) : String :=
  let digits := n.repr
  String.ofList (List.replicate (width - digits.length) '0') ++ digits

/-- Date, time of day, a fraction where there is one, and the offset of universal time. -/
def text (t : Instant) : String :=
  let (year, month, day) := civil (t.micros / microsPerDay)
  let rest := t.micros % microsPerDay
  let seconds := rest / microsPerSecond
  let fraction := rest % microsPerSecond
  let date := s!"{padded 4 year}-{padded 2 month}-{padded 2 day}"
  let minutes := seconds / 60
  let time := s!"{padded 2 (minutes / 60)}:{padded 2 (minutes % 60)}:{padded 2 (seconds % 60)}"
  date ++ "T" ++ time ++ (if fraction = 0 then "" else "." ++ padded 6 fraction) ++ "+00:00"

end Instant

end ReminderFlow
