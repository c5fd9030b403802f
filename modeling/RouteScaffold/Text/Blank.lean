import RouteScaffold.Text.Basic
import RouteScaffold.Text.CharRange

/-!
# Blank Characters

Which characters count as white space: those with the Unicode property
White_Space, and the four ASCII information separators U+001C to U+001F
besides. Zero-width characters are not blank.

Names are trimmed and split by this class, lines are compared without it, and
the recognisers of statements use it between words.

## Main definitions

* `isBlank`: The class.
* `Text.trim`: A text without blanks at either end.
* `Text.isBlankLine`: Whether a text has no other characters.
-/

namespace RouteScaffold

/-- The code points of the blank characters. -/
def blankRanges : List CharRange :=
  [⟨0x09, 0x0D⟩, ⟨0x1C, 0x20⟩, .single 0x85, .single 0xA0, .single 0x1680, ⟨0x2000, 0x200A⟩,
    ⟨0x2028, 0x2029⟩, .single 0x202F, .single 0x205F, .single 0x3000]

/-- Whether a character is white space. -/
def isBlank (c : Char) : Bool := CharRange.covers blankRanges c

/-- Whether a character is a space or a tab, the two that indent a line. -/
def isIndent (c : Char) : Bool := c = ' ' || c = '\t'

example : CharRange.ascending blankRanges = true := by decide

namespace Text

/-- A text without blanks at either end. -/
def trim (t : Text) : Text := trimBoth isBlank t

/-- Whether a text holds nothing but blanks. -/
def isBlankLine (t : Text) : Bool := t.all isBlank

end Text

end RouteScaffold
