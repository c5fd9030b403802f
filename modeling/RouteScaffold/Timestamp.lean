import RouteScaffold.Text.Basic

/-!
# Timestamps

The moments at which intents begin and roles are created, as calendar time to
the microsecond. A moment may be marked with its zone, which says by how many
minutes its clock is ahead of universal time. One that is not marked cannot be
compared with one that is.

The written form is `YYYY-MM-DDTHH:MM:SS`, with six decimals of a second if
they are not all zero, and with the zone behind it: a `Z` for universal time,
and a sign with hours and minutes for any other.

## Main definitions

* `Timestamp`, `Timestamp.Zone`: A moment, and how it is marked.
* `Timestamp.text`: Its written form.
* `Timestamp.isValid`: Whether there is such a moment in the calendar.
* `Timestamp.instant`: How long after the first moment of the calendar it lies.
* `Timestamp.isBefore?`: The order of moments, where there is one.
-/

namespace RouteScaffold

/-- How a moment is marked. -/
inductive Timestamp.Zone where
  /-- Not at all: it is a moment of whatever clock it is read on. -/
  | unmarked
  /-- Its clock is some minutes ahead of universal time, or behind it. -/
  | ahead (minutes : Int)
  deriving DecidableEq, Repr

/-- A moment that is marked as universal time or not at all, by a truth value. -/
instance : Coe Bool Timestamp.Zone := ⟨fun universal => if universal then .ahead 0 else .unmarked⟩

/-- A moment of calendar time. -/
structure Timestamp where
  year : Nat
  month : Nat
  day : Nat
  hour : Nat
  minute : Nat
  second : Nat
  micro : Nat
  zone : Timestamp.Zone
  deriving DecidableEq, Repr

namespace Timestamp

/-! ### The written form -/

/-- A number in a fixed count of digits; higher ones are dropped. -/
def digits : (width : Nat) → Nat → Text
  | 0, _ => []
  | width + 1, n => digits width (n / 10) ++ [Char.ofNat ('0'.toNat + n % 10)]

/-- The mark of a zone. -/
def Zone.text : Zone → Text
  | unmarked => []
  | ahead minutes =>
    if minutes = 0 then ['Z']
    else (if minutes < 0 then '-' else '+') :: digits 2 (minutes.natAbs / 60) ++ ":"
      ++ digits 2 (minutes.natAbs % 60)

/-- The written form of a moment. -/
def text (t : Timestamp) : Text :=
  digits 4 t.year ++ "-" ++ digits 2 t.month ++ "-" ++ digits 2 t.day ++ "T"
    ++ digits 2 t.hour ++ ":" ++ digits 2 t.minute ++ ":" ++ digits 2 t.second
    ++ (if t.micro = 0 then [] else '.' :: digits 6 t.micro) ++ t.zone.text

/-! ### The calendar -/

/-- Whether a year has a leap day. -/
def isLeap (year : Nat) : Bool := year % 4 = 0 && (year % 100 ≠ 0 || year % 400 = 0)

/-- How many days a month has. -/
def monthLength (year month : Nat) : Nat :=
  if month = 2 then if isLeap year then 29 else 28
  else if month ∈ [4, 6, 9, 11] then 30
  else 31

/-- How many minutes a day has. -/
def minutesOfDay : Nat := 24 * 60

/-- Whether a clock may be so far from universal time: by less than a day. -/
def Zone.isValid : Zone → Bool
  | unmarked => true
  | ahead minutes => minutes.natAbs < minutesOfDay

/-- Whether a moment exists in the calendar, in a year of four digits. -/
def isValid (t : Timestamp) : Bool :=
  1 ≤ t.year && t.year < 10000 && 1 ≤ t.month && t.month ≤ 12 && 1 ≤ t.day
    && t.day ≤ monthLength t.year t.month && t.hour < 24 && t.minute < 60 && t.second < 60
    && t.micro < 1000000 && t.zone.isValid

/-- How many days lie before a year, from the first year on. -/
def daysBeforeYear (year : Nat) : Nat :=
  let past := year - 1
  365 * past + past / 4 - past / 100 + past / 400

/-- How many days of its year lie before a month. -/
def daysBeforeMonth (year : Nat) : (month : Nat) → Nat
  | 0 | 1 => 0
  | month + 2 => daysBeforeMonth year (month + 1) + monthLength year (month + 1)

/-- How many days lie before the day of a moment. -/
def dayNumber (t : Timestamp) : Nat :=
  daysBeforeYear t.year + daysBeforeMonth t.year t.month + (t.day - 1)

/-- How many microseconds a minute has. -/
def microsOfMinute : Nat := 60 * 1000000

/-- How many microseconds a clock shows that started with the calendar. -/
def micros (t : Timestamp) : Nat :=
  (t.dayNumber * minutesOfDay + t.hour * 60 + t.minute) * microsOfMinute + t.second * 1000000 + t.micro

/-! ### The order of moments -/

namespace Zone

/-- Whether a moment is marked. -/
def isMarked : Zone → Bool
  | unmarked => false
  | ahead _ => true

/-- By how many minutes a clock is ahead. -/
def minutes : Zone → Int
  | unmarked => 0
  | ahead minutes => minutes

end Zone

/-- Whether a moment is marked with a zone. -/
def isMarked (t : Timestamp) : Bool := t.zone.isMarked

/-- How many microseconds a moment lies behind the start of the calendar, in
    universal time if it is marked. -/
def instant (t : Timestamp) : Int := t.micros - t.zone.minutes * microsOfMinute

/-- Whether a moment lies before another; two that are not both marked, or
    both unmarked, have no order. -/
def isBefore? (a b : Timestamp) : Option Bool :=
  if a.isMarked = b.isMarked then some (decide (a.instant < b.instant)) else none

end Timestamp

end RouteScaffold
