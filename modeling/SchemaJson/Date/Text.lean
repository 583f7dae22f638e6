import SchemaJson.Date.Calendar
import SchemaJson.Text.Reader
import SchemaJson.Text.WhiteSpace

/-! Dates as text. Four forms are read: a full date and time with an offset, the same without an
offset with a `T` or a blank in the middle, and a date alone. One form is written. -/

namespace SchemaJson

namespace Reader

/-- Digits after a point as nanoseconds. Digits past the ninth are passed over. -/
def nanos : Reader Nat := fun text =>
  let digits := (text.take 9).takeWhile isDigit
  if digits = [] then none
  else some (digitsValue digits * Nat.pow 10 (9 - digits.length), text.dropWhile isDigit)

def fraction : Reader Nat := fun text =>
  match text with
  | byte :: rest => if byte = Ascii.point then nanos rest else some (0, byte :: rest)
  | [] => some (0, [])

def whiteSpace : Reader Unit := fun text => some ((), Text.dropWhiteSpace text)

def spacedNumber (most : Nat) : Reader Nat := do
  whiteSpace
  number 1 most

/-- A year after any white space. With a sign it may have any number of digits, without one it has
at most four. -/
def spacedYear : Reader Int := do
  whiteSpace
  let text ← get
  match text with
  | byte :: rest =>
    if byte = Ascii.minus then
      set rest
      return -((← number 1 rest.length : Nat) : Int)
    else if byte = Ascii.plus then
      set rest
      return (← number 1 rest.length : Nat)
    else return (← number 1 4 : Nat)
  | [] => failure

end Reader

structure CivilTime where
  date : CalendarDate
  hour : Nat
  minute : Nat
  second : Nat
  nanos : Nat
  deriving DecidableEq, Repr

namespace CivilTime

/-- The sixtieth second of a minute is the leap second after its last one. -/
def isValid (time : CivilTime) : Bool :=
  time.date.isValid && time.hour ≤ 23 && time.minute ≤ 59 && time.second ≤ 60

/-- The moment at which clocks so many seconds ahead of universal time show this time. -/
def toInstant (time : CivilTime) (ahead : Int) : Instant :=
  let leap := time.second == 60
  let second := if leap then 59 else time.second
  { seconds := time.date.toDays * secondsPerDay
      + (time.hour * 3600 + time.minute * 60 + second : Nat) - ahead
    nanos := time.nanos + if leap then nanosPerSecond else 0 }

def instant? (time : CivilTime) (ahead : Int) : Option Instant :=
  if time.isValid then some (time.toInstant ahead) else none

end CivilTime

namespace Instant

/-- Whether an offset is behind universal time. The sign may be a hyphen or a minus sign. -/
def offsetSign : Reader Bool := fun text =>
  match text with
  | 0x2b :: rest => some (false, rest)
  | 0x2d :: rest => some (true, rest)
  | 0xe2 :: 0x88 :: 0x92 :: rest => some (true, rest)
  | _ => none

/-- Seconds that clocks are ahead of universal time. -/
def offset : Reader Int := fun text =>
  match Reader.oneOf [0x5a, 0x7a] text with
  | some (_, rest) => some (0, rest)
  | none => (do
    let behind ← offsetSign
    let hours ← Reader.number 2 2
    Reader.one Ascii.colon
    let minutes ← Reader.number 2 2
    if hours ≤ 23 ∧ minutes ≤ 59 then
      let seconds : Int := (hours * 3600 + minutes * 60 : Nat)
      return if behind then -seconds else seconds
    else failure : Reader Int) text

/-- `2020-01-02T03:04:05.678+01:00`, every number with all its digits. -/
def withOffset : Reader (CivilTime × Int) := do
  let year ← Reader.number 4 4
  Reader.one Ascii.minus
  let month ← Reader.number 2 2
  Reader.one Ascii.minus
  let day ← Reader.number 2 2
  Reader.oneOf [0x54, 0x74, Ascii.space]
  let hour ← Reader.number 2 2
  Reader.one Ascii.colon
  let minute ← Reader.number 2 2
  Reader.one Ascii.colon
  let second ← Reader.number 2 2
  let nanos ← Reader.fraction
  let ahead ← offset
  return (⟨⟨year, month, day⟩, hour, minute, second, nanos⟩, ahead)

def spacedDate : Reader CalendarDate := do
  let year ← Reader.spacedYear
  Reader.one Ascii.minus
  let month ← Reader.spacedNumber 2
  Reader.one Ascii.minus
  let day ← Reader.spacedNumber 2
  return ⟨year, month, day⟩

def spacedTime (middle : Reader Unit) : Reader CivilTime := do
  let date ← spacedDate
  middle
  let hour ← Reader.spacedNumber 2
  Reader.one Ascii.colon
  let minute ← Reader.spacedNumber 2
  Reader.one Ascii.colon
  let second ← Reader.spacedNumber 2
  let nanos ← Reader.fraction
  return ⟨date, hour, minute, second, nanos⟩

def readWithOffset (text : Bytes) : Option Instant := do
  let (time, ahead) ← withOffset.all text
  time.instant? ahead

def readUniversal (middle : Reader Unit) (text : Bytes) : Option Instant := do
  (← (spacedTime middle).all text).instant? 0

def readDay (text : Bytes) : Option Instant := do
  CivilTime.instant? ⟨← spacedDate.all text, 0, 0, 0, 0⟩ 0

/-- The first of the four forms that the text has. -/
def read (text : Bytes) : Option Instant :=
  readWithOffset text
    <|> readUniversal (Reader.one 0x54) text
    <|> readUniversal Reader.whiteSpace text
    <|> readDay text

def padded (width n : Nat) : Bytes :=
  let digits := decimal n
  List.replicate (width - digits.length) 0x30 ++ digits

/-- Four digits, or a sign and at least four digits when the year does not fit four. -/
def writeYear (year : Int) : Bytes :=
  if 0 ≤ year ∧ year ≤ 9999 then padded 4 year.toNat
  else (if year < 0 then Ascii.minus else Ascii.plus) :: padded 4 year.natAbs

/-- No digits, or as many groups of three as are needed. -/
def writeFraction (nanos : Nat) : Bytes :=
  if nanos = 0 then []
  else if nanos % 1000000 = 0 then Ascii.point :: padded 3 (nanos / 1000000)
  else if nanos % 1000 = 0 then Ascii.point :: padded 6 (nanos / 1000)
  else Ascii.point :: padded 9 nanos

def write (instant : Instant) : Bytes :=
  let date := instant.date
  let time := instant.secondOfDay
  let leap := nanosPerSecond ≤ instant.nanos
  let second := time % 60 + if leap then 1 else 0
  let nanos := if leap then instant.nanos - nanosPerSecond else instant.nanos
  writeYear date.year ++ Ascii.minus :: padded 2 date.month ++ Ascii.minus :: padded 2 date.day
    ++ 0x54 :: padded 2 (time / 3600) ++ Ascii.colon :: padded 2 (time / 60 % 60)
    ++ Ascii.colon :: padded 2 second ++ writeFraction nanos ++ [0x5a]

end Instant

end SchemaJson
