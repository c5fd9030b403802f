import RouteScaffold.Text.Basic
import RouteScaffold.Text.CharRange

/-!
# The Screen

What a command prints: messages on one of two channels, each ending its line.
A screen has no use for the controls that move the cursor or ring the bell,
so they are left out, and a tab goes to the next column that is a multiple of
eight. Columns are counted in cells; wide characters take two cells and
combining ones none.

## Main definitions

* `Screen`: What was printed.
* `Screen.visible`: A message as the screen shows it.
-/

namespace RouteScaffold

/-- Characters that take two cells. -/
def wideRanges : List CharRange :=
  [⟨0x1100, 0x115F⟩, .single 0x2705, .single 0x274C, ⟨0x2E80, 0x303E⟩, ⟨0x3041, 0x33FF⟩,
    ⟨0x3400, 0x4DBF⟩, ⟨0x4E00, 0x9FFF⟩, ⟨0xA000, 0xA4CF⟩, ⟨0xAC00, 0xD7A3⟩, ⟨0xF900, 0xFAFF⟩,
    ⟨0xFE30, 0xFE6F⟩, ⟨0xFF00, 0xFF60⟩, ⟨0xFFE0, 0xFFE6⟩, ⟨0x1F300, 0x1FAFF⟩, ⟨0x20000, 0x3FFFD⟩]

/-- Characters that take no cell. -/
def cellessRanges : List CharRange :=
  [⟨0x00, 0x1F⟩, ⟨0x7F, 0x9F⟩, ⟨0x300, 0x36F⟩, .single 0x180E, ⟨0x200B, 0x200F⟩, ⟨0x2028, 0x202E⟩,
    ⟨0x2060, 0x2063⟩, ⟨0xFE00, 0xFE0F⟩, .single 0xFEFF]

/-- How many cells a character takes. -/
def cellsOf (c : Char) : Nat :=
  if CharRange.covers wideRanges c then 2
  else if CharRange.covers cellessRanges c then 0
  else 1

/-- What was printed on the two channels, the first message first. -/
structure Screen where
  output : List Text
  errors : List Text
  deriving DecidableEq, Repr

namespace Screen

/-- A screen on which nothing was printed. -/
def blank : Screen := ⟨[], []⟩

/-- Whether a screen leaves a character out. -/
def isIgnored (c : Char) : Bool := c.toNat ∈ [0x07, 0x08, 0x0B, 0x0C, 0x0D]

/-- A text with its tabs turned into blanks, from a column on. -/
def withoutTabs : (column : Nat) → Text → Text
  | _, [] => []
  | column, c :: t =>
    if c = '\t' then
      let width := 8 - column % 8
      List.replicate width ' ' ++ withoutTabs (column + width) t
    else if c = '\n' then c :: withoutTabs 0 t
    else c :: withoutTabs (column + cellsOf c) t

/-- A message as the screen shows it, with the end of its line. -/
def visible (message : Text) : Text :=
  withoutTabs 0 (message.filter fun c => !isIgnored c) ++ ['\n']

/-- Prints a message. -/
def print (s : Screen) (message : Text) : Screen :=
  { s with output := s.output ++ [visible message] }

/-- Prints a message on the channel for errors. -/
def printError (s : Screen) (message : Text) : Screen :=
  { s with errors := s.errors ++ [visible message] }

end Screen

end RouteScaffold
