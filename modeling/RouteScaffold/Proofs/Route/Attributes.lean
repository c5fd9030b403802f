import RouteScaffold.Proofs.Edit.Statements
import RouteScaffold.Proofs.Route.Formed

/-!
# The Path Attribute of a Tag

The end of an opening tag is found with an eye on quotes and braces, but its path is
the first `path="…"` anywhere in its text. An attribute of an element that is written
in braces, the end of a longer name, and a part of a quoted value are all taken for
it. So the path of an element is that of the tag's own attribute as long as none of
these comes first and says something else, and only so long.

What is an attribute of the tag itself is told by the same account of quotes and
braces that finds the end of the tag: the place is within neither, and a name begins
there.

## Main definitions

* `Tag.Nesting`: The quote and the braces that are open at a place.
* `Tag.ownPath?`: The value of the first path attribute of the tag itself.
* `Tag.Misled`: A tag in which another one comes first.

## Theorems

* `pathFrom?_eq`: The path that is read is the first one anywhere in the tag.
* `path_own_iff`: When the path of an element is its tag's own.
* `path_from_expression`: An element that has the path of another one.
-/

namespace RouteScaffold

open Cursor

namespace Tag

/-! ### Places in a tag -/

/-- The quote that is open at a place, if one is, and the number of open braces. -/
structure Nesting where
  quote : Option Char
  depth : Int
  deriving DecidableEq

/-- The place behind one more character. -/
def Nesting.step (x : Nesting) (c : Char) : Nesting :=
  match x.quote with
  | some q => if c = q then { x with quote := none } else x
  | none =>
    if Pattern.isQuote c then { x with quote := some c }
    else if c = '\x7b' then { x with depth := x.depth + 1 }
    else if c = '\x7d' then { x with depth := x.depth - 1 }
    else x

/-- A place within no quotes and no braces. -/
def Nesting.outside : Nesting := ⟨none, 0⟩

/-- What is open behind the first characters of a tag. -/
def nesting (s : Text) : Nesting := s.foldl Nesting.step .outside

/-- Whether a name can begin behind a character: a blank, or the end of the value
    of another attribute. -/
def divides (c : Char) : Bool := isBlank c || Pattern.isQuote c || c = '\x7d'

/-- Whether an attribute of the tag itself can begin behind its first characters. -/
def isOwnPlace (s : Text) : Bool := nesting s = .outside && (passed none s).any divides

variable {u v : Text} {n : Nat}

/-- The value of a path attribute at a place of a tag, whatever it is an attribute of. -/
def pathAt? (u : Text) (n : Nat) : Option Text := pathHere? ⟨passed none (u.take n), u.drop n⟩

/-- The value of the first path attribute of the tag itself. -/
def ownPath? (u : Text) : Option Text :=
  (List.range u.length).findSome? fun n => if isOwnPlace (u.take n) then pathAt? u n else none

/-- The path that is read is the first one anywhere in the tag. -/
theorem pathFrom?_eq (u : Text) : pathFrom? none u = (List.range u.length).findSome? (pathAt? u) := by
  have hfrom : ∀ b, pathFrom? b u
      = (List.range u.length).findSome? fun n => pathHere? ⟨passed b (u.take n), u.drop n⟩ := by
    induction u with
    | nil => exact fun b => rfl
    | cons c u ih =>
        intro b
        rw [pathFrom?, List.length_cons, List.range_succ_eq_map, List.findSome?_cons, List.findSome?_map,
          ih, List.take_zero, List.drop_zero, passed]
        cases pathHere? ⟨b, c :: u⟩ <;> rfl
  exact hfrom none

/-- The first place of a tag with a path is within an expression or a value, or in the
    middle of a name, and the path is not that of the tag itself. -/
def Misled (u : Text) : Prop :=
  ∃ n v, pathAt? u n = some v ∧ (∀ m < n, pathAt? u m = none) ∧ isOwnPlace (u.take n) = false
    ∧ ownPath? u ≠ some v

/-- The first of some places with a value. -/
theorem findSome?_range_eq_some {f : Nat → Option Text} {k : Nat} :
    (List.range k).findSome? f = some v ↔ ∃ n < k, f n = some v ∧ ∀ m < n, f m = none := by
  induction k with
  | zero => simp
  | succ k ih =>
      rw [List.range_succ, List.findSome?_append, Option.or_eq_some_iff, ih, List.findSome?_eq_none_iff]
      constructor
      · rintro (⟨n, hn, hv, hfirst⟩ | ⟨hnone, hv⟩)
        · exact ⟨n, by omega, hv, hfirst⟩
        · refine ⟨k, Nat.lt_succ_self k, ?_, fun m hm => hnone m (List.mem_range.mpr hm)⟩
          simpa using hv
      · rintro ⟨n, hn, hv, hfirst⟩
        rcases Nat.lt_succ_iff_lt_or_eq.mp hn with hn | rfl
        · exact .inl ⟨n, hn, hv, hfirst⟩
        · exact .inr ⟨fun m hm => hfirst m (List.mem_range.mp hm), by simpa using hv⟩

theorem pathAt?_of_length_le (h : u.length ≤ n) : pathAt? u n = none := by
  rw [pathAt?, List.drop_eq_nil_of_le h, Option.eq_none_iff_forall_ne_some]
  intro v hv
  simp [pathHere?, literal?] at hv

/-- What is read is the path of the tag itself, unless the tag misleads. -/
theorem pathFrom?_eq_ownPath?_iff (u : Text) : pathFrom? none u = ownPath? u ↔ ¬ Misled u := by
  rw [pathFrom?_eq]
  constructor
  · rintro heq ⟨n, v, hv, hfirst, -, hother⟩
    refine hother (heq.symm.trans (findSome?_range_eq_some.mpr ⟨n, ?_, hv, hfirst⟩))
    by_contra hlong
    rw [pathAt?_of_length_le (Nat.le_of_not_lt hlong)] at hv
    exact absurd hv (by simp)
  · intro hled
    cases hread : (List.range u.length).findSome? (pathAt? u) with
    | none =>
        -- Where there is no path at all, none is the tag's own.
        rw [List.findSome?_eq_none_iff] at hread
        refine (List.findSome?_eq_none_iff.mpr fun n hn => ?_).symm
        rw [hread n hn, ite_self]
    | some v =>
        rcases findSome?_range_eq_some.mp hread with ⟨n, hn, hv, hfirst⟩
        cases hown : isOwnPlace (u.take n) with
        | true =>
            refine (findSome?_range_eq_some.mpr ⟨n, hn, ?_, fun m hm => ?_⟩).symm
            · rw [if_pos hown, hv]
            · rw [hfirst m hm, ite_self]
        | false =>
            by_contra hother
            exact hled ⟨n, v, hv, hfirst, hown, Ne.symm hother⟩

end Tag

namespace Route

variable {t file : Text} {roots : List Route} {e : Route}

/-- The path of an element is read from the text of its opening tag. -/
theorem path_eq (h : scan t = .ok roots) (he : e ∈ preorder roots) :
    e.path = Tag.pathFrom? none (e.openingTag t) := by
  rcases exists_opening_of_mem (spells_scan h) he with ⟨tag, htag, hhead⟩
  have hstart : tag.span.start = e.span.start := congrArg Prod.fst hhead
  have hpath : tag.path = e.path := congrArg (fun x => x.2.1) hhead
  have htext := (Tag.standing_opening (Tag.within_of_mem_read htag).stands).2
  change tag = Tag.openingOf tag.span.start (Tag.openingText (t.drop tag.span.start)) at htext
  rw [hstart] at htext
  rw [← hpath]
  exact congrArg OpeningTag.path htext

/-- The path of an element is that of its tag's own attribute, if and only if no other
    one misleads. -/
theorem path_own_iff (h : forest t file = .ok roots) (he : e ∈ preorder roots) :
    e.path = Tag.ownPath? (e.openingTag t) ↔ ¬ Tag.Misled (e.openingTag t) := by
  rw [path_eq (forest_eq_ok.mp h) he]
  exact Tag.pathFrom?_eq_ownPath?_iff _

/-- An element whose tag begins with its path. -/
def told : Text := "<Route path=\"a\" element=\x7b<Guard path=\"b\" />\x7d />".toList

theorem path_own_iff_told : ∃ e, forest told "route.tsx".toList = .ok [e] ∧ e ∈ preorder [e]
    ∧ (e.path = Tag.ownPath? (e.openingTag told) ↔ ¬ Tag.Misled (e.openingTag told))
    ∧ e.path = some "a".toList := by
  have hread : Tag.read told = ([.opening ⟨⟨0, 47⟩, some "a".toList, true⟩], none) := by
    decide
  have hforest : forest told "route.tsx".toList = .ok [⟨⟨0, 47⟩, some "a".toList, true, []⟩] := by
    rw [forest, scan, hread]
    rfl
  exact ⟨_, hforest, List.mem_cons_self, path_own_iff hforest List.mem_cons_self, rfl⟩

/-- An element with another one in front of its path. -/
def guarded : Text := "<Route element=\x7b<Guard path=\"b\" />\x7d path=\"a\" />".toList

/-- An element that has the path of the one in its braces, not its own. -/
theorem path_from_expression : ∃ e, forest guarded "route.tsx".toList = .ok [e]
    ∧ e.path = some "b".toList ∧ Tag.ownPath? (e.openingTag guarded) = some "a".toList := by
  have hread : Tag.read guarded = ([.opening ⟨⟨0, 47⟩, some "b".toList, true⟩], none) := by
    decide
  refine ⟨⟨⟨0, 47⟩, some "b".toList, true, []⟩, ?_, rfl, by decide⟩
  rw [forest, scan, hread]
  rfl

end Route

end RouteScaffold
