import SchemaJson.Date.Instant

/-! The Gregorian calendar in both directions: dates to days since the start of 1970 and days back
to dates, for years before the first one too. -/

namespace SchemaJson

structure CalendarDate where
  year : Int
  month : Nat
  day : Nat
  deriving DecidableEq, Repr

namespace Calendar

def isLeap (year : Int) : Bool := year % 4 == 0 && (year % 100 != 0 || year % 400 == 0)

def monthLengths (leap : Bool) : List Nat :=
  [31, if leap then 29 else 28, 31, 30, 31, 30, 31, 31, 30, 31, 30, 31]

def leastYear : Int := -262143

def greatestYear : Int := 262142

/-- Days from the start of year zero to the start of the year. -/
def yearStart (year : Int) : Int :=
  365 * year + (year - 1) / 4 - (year - 1) / 100 + (year - 1) / 400 + 1

/-- Days from the start of year zero to the start of 1970. -/
def epochDay : Int := 719528

/-- The year that holds a day counted from the start of year zero. -/
def yearOf (day : Int) : Int :=
  let guess := 400 * day / 146097
  if day < yearStart guess then guess - 1
  else if yearStart (guess + 1) ≤ day then guess + 1
  else guess

/-- The month and day that follow so many days of the months listed, of which the first is
`month`. -/
def monthAndDay (month : Nat) : List Nat → (days : Nat) → Nat × Nat
  | [], days => (month, days + 1)
  | length :: lengths, days =>
    if days < length then (month, days + 1) else monthAndDay (month + 1) lengths (days - length)

end Calendar

namespace CalendarDate

def isValid (date : CalendarDate) : Bool :=
  Calendar.leastYear ≤ date.year && date.year ≤ Calendar.greatestYear
    && 1 ≤ date.month && date.month ≤ 12 && 1 ≤ date.day
    && date.day ≤ ((Calendar.monthLengths (Calendar.isLeap date.year))[date.month - 1]?).getD 0

/-- Days since the start of 1970. -/
def toDays (date : CalendarDate) : Int :=
  let months := (Calendar.monthLengths (Calendar.isLeap date.year)).take (date.month - 1)
  let before : Nat := months.foldl (· + ·) 0
  Calendar.yearStart date.year + before + date.day - 1 - Calendar.epochDay

def ofDays (days : Int) : CalendarDate :=
  let day := days + Calendar.epochDay
  let year := Calendar.yearOf day
  let (month, dayOfMonth) := Calendar.monthAndDay 1 (Calendar.monthLengths (Calendar.isLeap year))
    (day - Calendar.yearStart year).toNat
  ⟨year, month, dayOfMonth⟩

end CalendarDate

def secondsPerDay : Nat := 86400

def nanosPerSecond : Nat := 1000000000

namespace Instant

def date (instant : Instant) : CalendarDate := .ofDays (instant.seconds / secondsPerDay)

def secondOfDay (instant : Instant) : Nat := (instant.seconds % secondsPerDay).toNat

/-- Whether seconds and nanoseconds together make the moment: its year is in range, and a leap second
follows only the last second of a minute. A moment whose nanoseconds were set later may have one
behind any second. -/
def isValid (instant : Instant) : Bool :=
  Calendar.leastYear ≤ instant.date.year && instant.date.year ≤ Calendar.greatestYear
    && instant.nanos < 2 * nanosPerSecond
    && (instant.nanos < nanosPerSecond || instant.secondOfDay % 60 == 59)

end Instant

end SchemaJson
