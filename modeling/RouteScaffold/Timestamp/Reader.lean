import RouteScaffold.Json.Reader
import RouteScaffold.Timestamp

/-!
# Reading Timestamps

A moment in a document is a text or a number.

A text is a date, `YYYY-MM-DD`, alone or with a time behind it, after a `T`, a
blank or an underscore. A time is `HH:MM` or `HH:MM:SS`. The seconds may have
decimals, of which the first six count, and the time may have a zone: `Z`, or
a sign with hours and minutes, with a colon between them or without. A date
alone is its first moment.

A number, or a text that is one, counts the seconds since the start of the
year 1970 in universal time. One that is too large for that counts the
milliseconds. Either is taken to the nearest microsecond.

## Main definitions

* `Timestamp.ofText?`: The moment that a text says, if it exists in the calendar.
* `Timestamp.ofUnix?`: The moment that a number says.
* `Timestamp.ofJson?`: The moment that a value is.
-/

namespace RouteScaffold

namespace Timestamp

/-! ### Dates and times -/

/-- A number in a fixed count of digits at the start of a text, added to the
    digits before it. -/
def number? : (width : Nat) → (soFar : Nat) → Text → Option (Nat × Text)
  | 0, soFar, t => some (soFar, t)
  | _ + 1, _, [] => none
  | width + 1, soFar, c :: t =>
    if c.isDigit then number? width (soFar * 10 + (c.toNat - '0'.toNat)) t else none

/-- The decimals of a second at the start of a text, as microseconds; without
    them, zero. -/
def decimals? (t : Text) : Option (Nat × Text) :=
  match t with
  | [] => some (0, [])
  | c :: rest =>
    if c = '.' || c = ',' then do
      let (first, after) := Json.digits rest
      if first = [] then none
      let (micro, _) ← number? 6 0 (first ++ "000000")
      some (micro, after)
    else some (0, t)

/-- The seconds at the start of a text, with their decimals; without them,
    zero. -/
def seconds? (t : Text) : Option (Nat × Nat × Text) :=
  match t with
  | ':' :: rest => do
    let (second, rest) ← number? 2 0 rest
    let (micro, rest) ← decimals? rest
    some (second, micro, rest)
  | _ => some (0, 0, t)

/-- The minutes that a text says as hours and minutes. -/
def minutes? (t : Text) : Option Nat := do
  let (hours, rest) ← number? 2 0 t
  let (minutes, rest) ← number? 2 0 ((Text.after? ":" rest).getD rest)
  if rest = [] && minutes < 60 then some (hours * 60 + minutes) else none

/-- The zone that a text says. Nothing says none. -/
def zone? : Text → Option Zone
  | [] => some .unmarked
  | c :: t =>
    if c = 'Z' || c = 'z' then if t = [] then some (.ahead 0) else none
    else if c = '+' then (minutes? t).map fun n : Nat => .ahead n
    else if c = '-' || c = '−' then (minutes? t).map fun n : Nat => .ahead (-n)
    else none

/-- The moment that a text says as a date, with a time or without. -/
def spelled? (t : Text) : Option Timestamp := do
  let (year, t) ← number? 4 0 t
  let (month, t) ← number? 2 0 (← Text.after? "-" t)
  let (day, t) ← number? 2 0 (← Text.after? "-" t)
  match t with
  | [] => some ⟨year, month, day, 0, 0, 0, 0, .unmarked⟩
  | c :: t =>
    if c ∉ ['T', 't', ' ', '_'] then none
    let (hour, t) ← number? 2 0 t
    let (minute, t) ← number? 2 0 (← Text.after? ":" t)
    let (second, micro, t) ← seconds? t
    some ⟨year, month, day, hour, minute, second, micro, ← zone? t⟩

/-! ### Numbers -/

/-- The year of a day, by its number. The estimate is off by one at most. -/
def yearOfDay (day : Nat) : Nat :=
  let year := day * 400 / 146097 + 1
  if day < daysBeforeYear year then year - 1
  else if daysBeforeYear (year + 1) ≤ day then year + 1
  else year

/-- The month and the day that lie some days behind the start of a month, where
    some months of the year are left. -/
def dayFrom (year : Nat) : (left month days : Nat) → Nat × Nat
  | 0, month, days => (month, days + 1)
  | left + 1, month, days =>
    if days < monthLength year month then (month, days + 1)
    else dayFrom year left (month + 1) (days - monthLength year month)

/-- The moment of universal time that lies some microseconds behind the start of
    the calendar. -/
def ofMicros (micros : Nat) : Timestamp :=
  let minutes := micros / microsOfMinute
  let rest := micros % microsOfMinute
  let day := minutes / minutesOfDay
  let year := yearOfDay day
  let (month, dayOfMonth) := dayFrom year 11 1 (day - daysBeforeYear year)
  ⟨year, month, dayOfMonth, minutes % minutesOfDay / 60, minutes % 60, rest / 1000000, rest % 1000000,
    .ahead 0⟩

/-- The start of the year 1970, in microseconds. -/
def epoch : Nat := micros ⟨1970, 1, 1, 0, 0, 0, 0, .ahead 0⟩

/-- The largest number that counts seconds. -/
def secondsLimit : Nat := 20000000000

/-- The moment that a quotient says, or its negative. -/
def ofUnix? (negative : Bool) (n d : Nat) : Option Timestamp :=
  let unit := if n ≤ secondsLimit * d then 1000000 else 1000
  let count : Int := (2 * Json.signed negative (n * unit) + d) / (2 * d)
  let stamp := ofMicros (epoch + count).toNat
  if 0 ≤ epoch + count && stamp.isValid then some stamp else none

/-- The moment that a text says as a number: digits behind a sign or none, and
    decimals or none behind a point. -/
def numeral? (t : Text) : Option Timestamp :=
  let (negative, unsigned) := Json.minus t
  let (whole, rest) := Json.digits (if negative then unsigned else Json.afterPlus unsigned)
  if whole = [] then none
  else match rest with
    | [] => ofUnix? negative (Json.natOf whole) 1
    | c :: rest =>
      let (decimals, after) := Json.digits rest
      if c = '.' && after = [] then
        ofUnix? negative (Json.natOf (whole ++ decimals)) (Nat.pow 10 decimals.length)
      else none

/-! ### Moments in documents -/

/-- The moment that a text says. -/
def ofText? (t : Text) : Option Timestamp :=
  match spelled? t with
  | some stamp => if stamp.isValid then some stamp else none
  | none => numeral? t

/-- The moment that a value is. -/
def ofJson? : Json → Option Timestamp
  | .text t => ofText? t
  | .int n => ofUnix? (n < 0) n.natAbs 1
  | .decimal (.finite negative significand exponent) =>
    ofUnix? negative (significand <<< exponent.toNat) (1 <<< (-exponent).toNat)
  | _ => none

end Timestamp

end RouteScaffold
