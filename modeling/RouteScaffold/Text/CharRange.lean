/-!
# Ranges of Code Points

Classes of characters beyond ASCII are written as lists of closed ranges of
code points, ascending and apart. The classes of this library are data; this
module only says how a list of ranges is looked up.

## Main definitions

* `CharRange`: A closed range of code points.
* `CharRange.covers`: Whether one of several ranges holds a character.
* `CharRange.apart`: Whether two classes have no character in common.
-/

namespace RouteScaffold

/-- A closed range of code points. -/
structure CharRange where
  first : Nat
  last : Nat

namespace CharRange

/-- A range of one code point. -/
def single (n : Nat) : CharRange := ⟨n, n⟩

/-- Whether one of the ranges holds the character. -/
def covers (ranges : List CharRange) (c : Char) : Bool :=
  ranges.any fun r => r.first ≤ c.toNat && c.toNat ≤ r.last

/-- Ranges that ascend and do not touch, so that each code point is listed at
    most once. -/
def ascending : List CharRange → Bool
  | [] => true
  | [r] => r.first ≤ r.last
  | r :: s :: rest => r.first ≤ r.last && r.last + 1 < s.first && ascending (s :: rest)

/-- Whether no range of the one class meets any of the other. -/
def apart (rs ss : List CharRange) : Bool :=
  rs.all fun r => ss.all fun s => r.last < s.first || s.last < r.first

/-- A character of the one class is not in the other. -/
theorem not_covers_of_apart {rs ss : List CharRange} (h : apart rs ss = true) {c : Char}
    (hc : covers rs c = true) : covers ss c = false := by
  rw [covers, List.any_eq_true] at hc
  rcases hc with ⟨r, hr, hrc⟩
  rw [covers, List.any_eq_false]
  intro s hs hsc
  have hrs := List.all_eq_true.mp (List.all_eq_true.mp h r hr) s hs
  simp only [Bool.or_eq_true, Bool.and_eq_true, decide_eq_true_eq] at hrc hsc hrs
  omega

end CharRange

end RouteScaffold
