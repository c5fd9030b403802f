import RouteScaffold.Text.Basic
import RouteScaffold.Text.WordTable

/-!
# Words and Their Boundaries

An identifier is found in a text as a whole word: with a boundary on both
sides, a boundary being a place where a word character meets something else.
Word characters are the letters and numbers of any script and the underscore.
Marks, zero-width characters and pictures are not.

## Main definitions

* `isWord`: Letters, numbers and the underscore.
* `atBoundary`: Whether the place between two characters is a boundary.
-/

namespace RouteScaffold

/-- Whether a character is part of words. The table is only looked into for
    characters beyond ASCII. -/
def isWord (c : Char) : Bool :=
  c.isAlphanum || c = '_' || (0x80 ≤ c.toNat && CharRange.covers letterRanges c)

/-- Whether the place between two characters is a boundary of a word. A text
    begins and ends with no character, which counts as outside words. -/
def atBoundary (before next : Option Char) : Bool :=
  before.any isWord != next.any isWord

end RouteScaffold
