import RouteScaffold.Edit.Pattern
import RouteScaffold.Fault

/-!
# Insertion

Text is inserted at anchors, not at line numbers, since every earlier
insertion has moved the lines below it. An anchor is a literal text or one of
two heads of arrays; its first occurrence counts.

No insertion writes the same lines twice: when the lines of the new text
already stand somewhere in the file, one below the other and whole, the file
is left as it is. Indentation and blank lines play no part in that
comparison, and a line that merely contains another does not count as it.

## Main definitions

* `Anchor`: A place to insert at.
* `Text.alreadyHolds`: Whether a text holds the lines of another.
* `Text.reindent`: A text moved to the column of its first line.
* `Insert.before`, `Insert.behind`, `Insert.atHead`, `Insert.atEnd`: The
  insertions.
-/

namespace RouteScaffold

/-- A place to insert at. -/
inductive Anchor where
  | literal (t : Text)
  | arrayHead (symbol : Text)
  | childrenHead
  deriving DecidableEq, Repr

namespace Anchor

/-- The pattern of an anchor. -/
def pattern : Anchor → Pattern
  | literal t => .literal t
  | arrayHead symbol => .arrayHead symbol
  | childrenHead => .childrenHead

/-- How an anchor is named when it is missing: a literal by itself, a head by
    its notation. -/
def label : Anchor → Text
  | literal t => t
  | arrayHead symbol => (Pattern.arrayHead symbol).source
  | childrenHead => Pattern.childrenHead.source

/-- The first occurrence of an anchor. -/
def locate? (a : Anchor) (t : Text) : Option Occurrence := Recogniser.find? a.pattern.recognise t

/-- The first occurrence of an anchor that has to be there. -/
def locate (a : Anchor) (file t : Text) : Except Fault Occurrence :=
  match a.locate? t with
  | some o => .ok o
  | none => .error (.anchorNotFound file a.label)

end Anchor

namespace Text

/-- The lines of a text that are not blank, without the blanks around
    them. -/
def trimmedLines (t : Text) : List Text :=
  ((lines t).map trim).filter fun line => !line.isEmpty

/-- Whether some lines stand among others, one below the other. -/
def standsIn (wanted : List Text) : List Text → Bool
  | [] => wanted.isEmpty
  | line :: rest => wanted.isPrefixOf (line :: rest) || standsIn wanted rest

/-- Whether the lines of a text stand in another, whole and consecutive,
    indentation and blank lines aside. -/
def alreadyHolds (content t : Text) : Bool := standsIn (trimmedLines t) (trimmedLines content)

/-- The indentation of the line that a text breaks off in. -/
def lastIndent (t : Text) : Text :=
  (t.reverse.takeWhile (· ≠ '\n')).reverse.takeWhile isIndent

/-- A text without line breaks at its ends and with every line but the first
    moved in. Blank lines become empty. -/
def reindent (t indent : Text) : Text :=
  match lines (trimBoth (· = '\n') t) with
  | [] => []
  | first :: rest =>
    join ['\n'] (first :: rest.map fun line => if line.isBlankLine then [] else indent ++ line)

end Text

namespace Insert

/-- Inserts text immediately before an anchor. The text takes the anchor's
    place, and the anchor moves to a line of its own below it, at the same
    indentation. -/
def before (content : Text) (anchor : Anchor) (t file : Text) : Except Fault Text :=
  if Text.alreadyHolds content t then .ok content
  else do
    let o ← anchor.locate file content
    let indent := Text.lastIndent o.before
    return o.before ++ Text.reindent t indent ++ '\n' :: indent ++ o.hit ++ o.after

/-- Inserts text on a new line behind an anchor, one level deeper than the
    anchor's line: as the first element of the collection that the anchor
    opens. -/
def behind (content : Text) (anchor : Anchor) (t file : Text) : Except Fault Text :=
  if Text.alreadyHolds content t then .ok content
  else do
    let o ← anchor.locate file content
    let indent := Text.lastIndent o.before ++ "  "
    return o.before ++ o.hit ++ '\n' :: indent ++ Text.reindent t indent ++ o.after

/-- Inserts text as the first lines of a file. -/
def atHead (content t : Text) : Text :=
  if Text.alreadyHolds content t then content
  else Text.reindent t [] ++ '\n' :: content

/-- Inserts a line as the last line of a file, which then ends in a line
    break. -/
def atEnd (content line : Text) : Text :=
  if Text.alreadyHolds content line then content
  else
    let whole :=
      if content.isEmpty || content.getLast? = some '\n' then content else content ++ ['\n']
    whole ++ Text.trim line ++ ['\n']

end Insert

end RouteScaffold
