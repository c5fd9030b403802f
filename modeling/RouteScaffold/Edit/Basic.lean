import RouteScaffold.Disk.Job
import RouteScaffold.Edit.Insert
import RouteScaffold.Route.Forest

/-!
# Edits

An edit is a change to a source file, as a value: what to insert and where, or
what to take out. As a function it takes a text to a text; as a job it reads a
file, edits the text in lines that end in a line feed, and writes the file back
with the ending that it had. A file whose text does not change is not written.

Appending a line is for barrels, and makes the file if there is none.

## Main definitions

* `Edit`: A change to a source file.
* `Edit.apply`: What it makes of a text.
* `Edit.written`: What it makes of a file as it stands, if it changes it.
* `Job.edit`: The change made to a file.
-/

namespace RouteScaffold

/-- A change to a source file. -/
inductive Edit where
  /-- Text immediately before an anchor. -/
  | before (anchor : Anchor) (t : Text)
  /-- Text on a new line behind an anchor. -/
  | behind (anchor : Anchor) (t : Text)
  /-- Text as the first lines. -/
  | atHead (t : Text)
  /-- A line as the last one. -/
  | append (line : Text)
  /-- Everything of a pattern taken out. -/
  | erase (pattern : Pattern)
  /-- The route element of a module, or of a page within a module, taken out. -/
  | cutRoute (segment : Text) (within : Option Text)
  deriving DecidableEq, Repr

namespace Edit

/-- What an edit does to a file. -/
inductive Operation where
  | inject
  | append
  | remove
  deriving DecidableEq, Repr

/-- What sort of edit it is. -/
def operation : Edit → Operation
  | before .. | behind .. | atHead _ => .inject
  | append _ => .append
  | erase _ | cutRoute .. => .remove

/-- What an edit makes of a text. The file is named for its faults. -/
def apply (e : Edit) (file content : Text) : Except Fault Text :=
  match e with
  | before anchor t => Insert.before content anchor t file
  | behind anchor t => Insert.behind content anchor t file
  | atHead t => .ok (Insert.atHead content t)
  | append line => .ok (Insert.atEnd content line)
  | erase pattern => .ok (pattern.erase content)
  | cutRoute segment within => Route.remove content segment within file

/-- What an edit makes of a file's text as it stands; nothing if the text does
    not change. -/
def written (e : Edit) (file raw : Text) : Except Fault (Option Text) := do
  let content := raw.toLf
  let edited ← e.apply file content
  return if edited = content then none else some (edited.withEnding (.detect raw))

end Edit

namespace Job

/-- The text of a source file in lines that end in a line feed. -/
def readSource (p : Path) : Job Text := return (← readRaw p).toLf

/-- Makes an empty file, and the folders before it, if nothing is there. -/
def supply (p : Path) : Job Unit := do
  unless ← isThere p do
    folders p.parent
    writeText p []

/-- Makes a change to a file that exists. Answers whether the file changed. -/
def editExisting (p : Path) (e : Edit) : Job Bool := do
  match ← ofExcept (e.written p.text (← readRaw p)) with
  | some t =>
    replace p t
    return true
  | none => return false

/-- Makes a change to a file. Answers whether the file changed. -/
def edit (p : Path) (e : Edit) : Job Bool := do
  if e.operation = .append then supply p
  editExisting p e

end Job

end RouteScaffold
