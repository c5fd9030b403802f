import RouteScaffold.Number.Binary64

/-!
# Shortest Decimals

A binary number is written with the fewest decimal digits that read back as
the same number; of several that are as few, with those nearest to it. What
reads back as a number reaches half the way to each of its neighbours, with
the two ends if its significand is even.

Small and large numbers are written with an exponent, all others in full with
at least one digit behind the point.

## Main definitions

* `Binary64.shortest`: The digits and the power of ten.
* `Binary64.text`: A number as text.
-/

namespace RouteScaffold

namespace Binary64

/-- How many digits a quotient has before its point. For one below a tenth, the
    zeros directly behind the point are counted, as a negative number. -/
def magnitude (n d : Nat) : Int :=
  if d ≤ n then digitCount (n / d) else 1 - digitCount ((d - 1) / n)

/-- Whether a point reads back as a number, which is at some distance from it
    and has its neighbour on that side a gap away. Exactly half the gap is near
    enough for an even significand only. -/
def isNear (significand gap distance : Nat) : Bool :=
  if significand % 2 = 0 then 2 * distance ≤ gap else 2 * distance < gap

/-- Whether a candidate reads back as a number. The number, its unit in the
    last place and the candidate are given over the same divisor. Below the
    first number of an exponent the gap is half a unit. -/
def readsBack (significand : Nat) (exponent : Int) (unit candidate : Nat) : Bool :=
  let n := significand * unit
  if n ≤ candidate then isNear significand unit (candidate - n)
  else if significand = leadingBit && leastExponent < exponent then
    isNear significand unit (2 * (n - candidate))
  else isNear significand unit (n - candidate)

/-- The nearest number of some digits that reads back, and its power of
    ten. -/
def withDigits? (significand : Nat) (exponent : Int) (count : Nat) : Option (Nat × Int) :=
  let n := significand <<< exponent.toNat
  let d := 1 <<< (-exponent).toNat
  let power := magnitude n d - count
  let unit := Nat.pow 10 (-power).toNat <<< exponent.toNat
  let d := d * Nat.pow 10 power.toNat
  let nearest := divNearest (significand * unit) d
  let other := if nearest * d ≤ significand * unit then nearest + 1 else nearest - 1
  ([nearest, other].find? fun c => readsBack significand exponent unit (c * d)).map
    fun c => (c, power)

/-- The fewest digits that read back, as a whole number and a power of ten.
    With 17 digits every number reads back. -/
def shortest (significand : Nat) (exponent : Int) : Nat × Int :=
  ((List.range' 1 17).findSome? (withDigits? significand exponent)).getD (significand, 0)

/-- Digits, and the place of the point among them, in full. -/
def inFull (digits : Text) (point : Int) : Text :=
  if point ≤ 0 then "0." ++ List.replicate (-point).toNat '0' ++ digits
  else if digits.length ≤ point.toNat then
    digits ++ List.replicate (point.toNat - digits.length) '0' ++ ".0"
  else digits.take point.toNat ++ ['.'] ++ digits.drop point.toNat

/-- Digits, and the place of the point among them, with an exponent of at least
    two digits. -/
def withExponent (digits : Text) (point : Int) : Text :=
  let fraction := if digits.length ≤ 1 then [] else '.' :: digits.drop 1
  let power := Text.ofNat (point - 1).natAbs
  digits.take 1 ++ fraction ++ (if point ≤ 0 then "e-" else "e+")
    ++ List.replicate (2 - power.length) '0' ++ power

/-- A number as text, its sign aside. -/
def unsignedText (significand : Nat) (exponent : Int) : Text :=
  let (c, power) := shortest significand exponent
  let all := Text.ofNat c
  let digits := (all.reverse.dropWhile (· = '0')).reverse
  let point := power + all.length
  if significand = 0 then "0.0"
  else if -4 < point && point ≤ 16 then inFull digits point else withExponent digits point

/-- The sign of a number as text. -/
def signText (negative : Bool) : Text := if negative then ['-'] else []

/-- A number as text, with the words for what is infinite and for what is no
    number. -/
def text (infinity noNumber : Text) : Binary64 → Text
  | finite negative significand exponent =>
    signText negative ++ unsignedText significand exponent
  | infinite negative => signText negative ++ infinity
  | undefined => noNumber

end Binary64

end RouteScaffold
