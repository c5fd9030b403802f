import RouteScaffold.Text.Basic

/-!
# Binary Numbers of 64 Bits

A number with a fraction or an exponent is kept with 53 binary digits, as the
nearest number that has no more. What is too large for the widest exponent is
infinite, and what is nearer to zero than to the least number is zero.

Rounding is done on exact quotients of natural numbers, so nothing is lost
before the one step that says how much is lost.

## Main definitions

* `divNearest`: A quotient as the nearest whole number.
* `Binary64`: A number of 53 binary digits, an infinity, or no number.
* `Binary64.ofQuotient`, `Binary64.ofDecimal`: The nearest number.
-/

namespace RouteScaffold

/-- A quotient as the nearest whole number. Of two that are as near, it is the
    even one. -/
def divNearest (n d : Nat) : Nat :=
  if 2 * (n % d) < d then n / d
  else if d < 2 * (n % d) then n / d + 1
  else n / d + n / d % 2

/-- A number of 53 binary digits, an infinity, or no number. -/
inductive Binary64 where
  /-- The significand times a power of two. -/
  | finite (negative : Bool) (significand : Nat) (exponent : Int)
  | infinite (negative : Bool)
  | undefined
  deriving DecidableEq, Repr

namespace Binary64

/-- The least exponent of two. -/
def leastExponent : Int := -1074

/-- The greatest exponent of two. -/
def greatestExponent : Int := 971

/-- The first significand that has 53 binary digits. -/
def leadingBit : Nat := 1 <<< 52

/-- Zero. -/
def zero (negative : Bool) : Binary64 := finite negative 0 leastExponent

/-- Whether a number is zero. -/
def isZero : Binary64 → Bool
  | finite _ significand _ => significand = 0
  | infinite _ | undefined => false

/-- The greatest exponent of two whose power is at most a quotient. -/
def floorLog (n d : Nat) : Int :=
  let e : Int := (n.log2 : Int) - d.log2
  if n <<< (-e).toNat < d <<< e.toNat then e - 1 else e

/-- The number nearest to a quotient. -/
def ofQuotient (negative : Bool) (n d : Nat) : Binary64 :=
  let e := max leastExponent (floorLog n d - 52)
  let m := divNearest (n <<< (-e).toNat) (d <<< e.toNat)
  let (m, e) := if m = 2 * leadingBit then (leadingBit, e + 1) else (m, e)
  if m = 0 then zero negative
  else if greatestExponent < e then infinite negative
  else finite negative m e

/-- How many decimal digits a number has. -/
def digitCount (n : Nat) : Nat := (Nat.toDigits 10 n).length

/-- The number nearest to a coefficient times a power of ten. Powers that are
    far out of reach are not computed. -/
def ofDecimal (negative : Bool) (coefficient : Nat) (exponent : Int) : Binary64 :=
  let size := exponent + digitCount coefficient
  if coefficient = 0 || size < -330 then zero negative
  else if 310 < size then infinite negative
  else ofQuotient negative (coefficient * Nat.pow 10 exponent.toNat)
    (Nat.pow 10 (-exponent).toNat)

end Binary64

end RouteScaffold
