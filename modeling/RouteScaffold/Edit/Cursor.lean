import RouteScaffold.Text.Word

/-!
# Cursors and Recognisers

A cursor is a place in a text: the character just before it and everything
after it. That is enough to decide whether a line starts here or a word ends
here, and to go on reading.

A recogniser tries to read something at a place and answers with the place
where it stopped. Where a part of what it reads may be longer or shorter, two
combinators say which length is tried first: `lazily` takes as little as the
rest of the recogniser allows, `greedily` as much.

A recogniser is used in three ways: to find the first place where it succeeds,
to list all of them, and to erase what it reads. The last two go from left to
right and go on where the last success ended, so what they find never
overlaps.

## Main definitions

* `Cursor`: A place in a text.
* `Cursor.lazily`, `Cursor.greedily`: Choice of length.
* `Recogniser.find?`: The first success, with what stands around it.
* `Recogniser.spans`, `Recogniser.erase`: All successes.
-/

namespace RouteScaffold

/-- A place in a text. -/
structure Cursor where
  /-- The character before the place; none at the start of the text. -/
  before : Option Char
  /-- The text from the place on. -/
  after : Text

namespace Cursor

/-- The place before the first character. -/
def start (t : Text) : Cursor := ⟨none, t⟩

/-- Whether a line starts at the place. -/
def atLineStart (k : Cursor) : Bool := k.before.all (· = '\n')

/-- Whether a word starts or ends at the place. -/
def atWordBoundary (k : Cursor) : Bool := atBoundary k.before k.after.head?

/-- Goes on over a literal, if it stands here. -/
def literal? : Text → Cursor → Option Cursor
  | [], k => some k
  | _ :: _, ⟨_, []⟩ => none
  | c :: l, ⟨_, d :: t⟩ => if c = d then literal? l ⟨some d, t⟩ else none

/-- Goes on over one character of a class, if one stands here. -/
def one? (p : Char → Bool) : Cursor → Option Cursor
  | ⟨_, []⟩ => none
  | ⟨_, c :: t⟩ => if p c then some ⟨some c, t⟩ else none

/-- Goes on over all characters of a class that stand here. -/
def skip (p : Char → Bool) : Option Char → Text → Cursor
  | before, [] => ⟨before, []⟩
  | before, c :: t => if p c then skip p (some c) t else ⟨before, c :: t⟩

/-- Goes on over all characters of a class that stand here. -/
def skipAll (p : Char → Bool) (k : Cursor) : Cursor := skip p k.before k.after

/-- Goes on over at least one character of a class. -/
def skipSome? (p : Char → Bool) (k : Cursor) : Option Cursor := (k.one? p).map (skipAll p)

/-- Goes on over as few characters of a class as `next` allows. -/
def lazyFrom (p : Char → Bool) (next : Cursor → Option Cursor) :
    Option Char → Text → Option Cursor
  | before, [] => next ⟨before, []⟩
  | before, c :: t =>
    match next ⟨before, c :: t⟩ with
    | some k => some k
    | none => if p c then lazyFrom p next (some c) t else none

/-- Goes on over as many characters of a class as `next` allows. -/
def greedyFrom (p : Char → Bool) (next : Cursor → Option Cursor) :
    Option Char → Text → Option Cursor
  | before, [] => next ⟨before, []⟩
  | before, c :: t =>
    if p c then
      match greedyFrom p next (some c) t with
      | some k => some k
      | none => next ⟨before, c :: t⟩
    else next ⟨before, c :: t⟩

/-- Goes on over as few characters of a class as the rest allows. -/
def lazily (p : Char → Bool) (next : Cursor → Option Cursor) (k : Cursor) : Option Cursor :=
  lazyFrom p next k.before k.after

/-- Goes on over as many characters of a class as the rest allows. -/
def greedily (p : Char → Bool) (next : Cursor → Option Cursor) (k : Cursor) : Option Cursor :=
  greedyFrom p next k.before k.after

/-- Goes on over a line break, if one stands here. -/
def overBreak (k : Cursor) : Cursor := (k.literal? ['\n']).getD k

end Cursor

/-- Reads something at a place, and answers with the place where it
    stopped. -/
abbrev Recogniser := Cursor → Option Cursor

/-- A stretch of a text, from its first character to just past its last. -/
structure Span where
  start : Nat
  stop : Nat
  deriving DecidableEq, Repr

/-- A text with one stretch of it set apart. -/
structure Occurrence where
  before : Text
  hit : Text
  after : Text

/-- The place of an occurrence. -/
def Occurrence.span (o : Occurrence) : Span :=
  ⟨o.before.length, o.before.length + o.hit.length⟩

namespace Recogniser

/-- How many characters are read at a place. -/
def length? (m : Recogniser) (before : Option Char) (t : Text) : Option Nat :=
  (m ⟨before, t⟩).map fun k => t.length - k.after.length

/-- The first success from a place on. -/
def findFrom (m : Recogniser) : Option Char → Text → Option Occurrence
  | before, [] => (m.length? before []).map fun _ => ⟨[], [], []⟩
  | before, c :: t =>
    match m.length? before (c :: t) with
    | some n => some ⟨[], (c :: t).take n, (c :: t).drop n⟩
    | none => (findFrom m (some c) t).map fun o => { o with before := c :: o.before }

/-- The first success in a text. -/
def find? (m : Recogniser) (t : Text) : Option Occurrence := findFrom m none t

/-- All successes from a place on, passing over the characters that the last
    one covers. -/
def spansFrom (m : Recogniser) : (offset covered : Nat) → Option Char → Text → List Span
  | _, _ + 1, _, [] => []
  | offset, 0, before, [] =>
    match m.length? before [] with
    | some _ => [⟨offset, offset⟩]
    | none => []
  | offset, covered + 1, _, c :: t => spansFrom m (offset + 1) covered (some c) t
  | offset, 0, before, c :: t =>
    match m.length? before (c :: t) with
    | some n => ⟨offset, offset + n⟩ :: spansFrom m (offset + 1) (n - 1) (some c) t
    | none => spansFrom m (offset + 1) 0 (some c) t

/-- All successes in a text. -/
def spans (m : Recogniser) (t : Text) : List Span := spansFrom m 0 0 none t

/-- What is left from a place on, passing over the characters that the last
    success covers. -/
def eraseFrom (m : Recogniser) : (covered : Nat) → Option Char → Text → Text
  | _, _, [] => []
  | covered + 1, _, c :: t => eraseFrom m covered (some c) t
  | 0, before, c :: t =>
    match m.length? before (c :: t) with
    | some (n + 1) => eraseFrom m n (some c) t
    | some 0 | none => c :: eraseFrom m 0 (some c) t

/-- A text without anything the recogniser reads. -/
def erase (m : Recogniser) (t : Text) : Text := eraseFrom m 0 none t

end Recogniser

end RouteScaffold
