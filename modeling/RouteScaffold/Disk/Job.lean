import RouteScaffold.Disk.Tree
import RouteScaffold.Fault
import RouteScaffold.Text.LineEnding

/-!
# Jobs on a Disk

A disk is a tree, the folder in which relative paths are walked, and the trail
of the writes that were made to it. A job reads and writes a disk, and ends
with a value or a fault; what it wrote before a fault stays written.

The jobs here are the smallest ones: what one call to a file system does.
Paths are walked name by name, so a path through a file fails in another way
than a path through nothing, and every refusal is recorded with the path that
was asked for. A path that no file system could walk is refused before its
first name.

## Main definitions

* `Disk`: A tree in use.
* `Disk.find`, `Disk.look`: Where a path leads.
* `Job`: What reads and writes a disk.
* `Job.folder`, `Job.folders`: Making folders.
* `Job.readText`, `Job.writeText`, `Job.replace`: The text of a file.
* `Job.unlink`, `Job.removeTree`, `Job.remove`: Removing.
-/

namespace RouteScaffold

/-- A tree in use. -/
structure Disk where
  tree : Tree
  /-- The folder in which relative paths are walked. -/
  here : Location
  /-- The writes made so far, the first one first. -/
  trail : List Write

namespace Disk

/-- A disk to which nothing has been written. -/
def fresh (tree : Tree) (here : Location) : Disk := ⟨tree, here, []⟩

/-- Where the names of a path start. -/
def origin (d : Disk) (p : Path) : Location :=
  match p.anchor with
  | .here => d.here
  | _ => []

/-- How many bytes a path has to be short of. -/
def pathLimit : Nat := 4096

/-- Why a path cannot be walked in any tree, if it cannot. -/
def unwalkable? (p : Path) : Option SystemError :=
  if '\x00' ∈ p.text then some .nullCharacter
  else if pathLimit ≤ Utf8.size p.text then some .nameTooLong
  else none

/-- Where a path leads. -/
def find (d : Disk) (p : Path) : Except SystemError Location :=
  match unwalkable? p with
  | some e => .error e
  | none => d.tree.walk (d.origin p) p.names

/-- The entry that a path leads to. That nothing is there, for whatever reason,
    is an answer too; only of a path that is too long nothing can be said. -/
def look (d : Disk) (p : Path) : Except SystemError (Option Entry) :=
  match d.find p with
  | .ok loc => .ok (d.tree.get? loc)
  | .error .nameTooLong => .error .nameTooLong
  | .error _ => .ok none

/-- The location that a path leads to, if nothing is there. -/
def vacant (d : Disk) (p : Path) : Except SystemError Location :=
  match d.find p with
  | .ok loc => if (d.tree.get? loc).isSome then .error .alreadyExists else .ok loc
  | .error e => .error e

/-- The location and the content of the file that a path leads to. -/
def opened (d : Disk) (p : Path) : Except SystemError (Location × Content) :=
  match d.find p with
  | .error e => .error e
  | .ok loc =>
    match d.tree.get? loc with
    | some (.file content) => .ok (loc, content)
    | some .folder => .error .isDirectory
    | none => .error .missing

/-- The location at which a path lets a file be written: one where there is no
    folder. -/
def writable (d : Disk) (p : Path) : Except SystemError Location :=
  match d.find p with
  | .error e => .error e
  | .ok loc => if d.tree.get? loc = some .folder then .error .isDirectory else .ok loc

/-- The name under which a file is made that is to take the place of one with
    another name. -/
def asideName (name : Text) : Text := '.' :: name ++ ".exchange.tmp"

/-- Where a file is made that is to take the place of the one that a path leads
    to: in the folder that the path is in, its double dots being taken at their
    word. -/
def aside (d : Disk) (p : Path) : Path :=
  let folder := p.parent.resolved ⟨.root, d.here⟩
  { folder with names := folder.names ++ [asideName (p.names.getLast?.getD [])] }

/-- The location at which a path lets a file be exchanged for another. The new
    file is made aside, and takes the place of whatever the path leads to,
    unless that is a folder. -/
def replaceable (d : Disk) (p : Path) : Except SystemError Location :=
  match d.find (d.aside p), d.find p with
  | .error e, _ | .ok _, .error e => .error e
  | .ok _, .ok loc =>
    if p.names.getLast?.all (· = ['.', '.']) then .error .busy
    else if d.tree.get? loc = some .folder then .error .isDirectory
    else .ok loc

end Disk

/-- What reads and writes a disk. -/
abbrev Job := ExceptT Fault (StateM Disk)

namespace Job

/-- Fails with a fault. -/
def fail (f : Fault) : Job α := throw f

/-- A value that was found without a disk, or the fault found instead. -/
def ofExcept : Except Fault α → Job α
  | .ok a => pure a
  | .error f => fail f

/-- What a disk says about a path, a refusal being recorded with the path. -/
def ask (question : Disk → Path → Except SystemError α) (p : Path) : Job α := do
  match question (← get) p with
  | .ok a => return a
  | .error e => fail (.system e p.text)

/-- Whether a path leads to anything. -/
def isThere (p : Path) : Job Bool := return (← ask Disk.look p).isSome

/-- Whether a path leads to a folder. -/
def isFolder (p : Path) : Job Bool := return (← ask Disk.look p) = some .folder

/-- Makes one write. -/
def write (w : Write) : Job Unit :=
  modify fun d => { d with tree := d.tree.apply w, trail := d.trail ++ [w] }

/-! ### Folders -/

/-- Makes a folder in one that exists. A folder that is there already is as
    good. -/
def folder (p : Path) : Job Unit := do
  match (← get).vacant p with
  | .ok loc => write (.put loc .folder)
  | .error .missing => fail (.system .missing p.text)
  | .error e => unless ← isFolder p do fail (.system e p.text)

/-- Makes a folder and, where the path to it leads through nothing, the
    folders before it, up to a number of them. -/
def foldersFrom : (depth : Nat) → Path → Job Unit
  | 0, p => folder p
  | depth + 1, p => do
    match (← get).vacant p with
    | .error .missing =>
      foldersFrom depth p.parent
      folder p
    | _ => folder p

/-- Makes a folder and all folders before it that are missing. -/
def folders (p : Path) : Job Unit := foldersFrom p.names.length p

/-! ### Files -/

/-- The text that a content spells. -/
def decoded (content : Content) : Job Text :=
  match content.read with
  | .ok t => return t
  | .error f => fail (.undecodable f)

/-- The text of a document, every line ending being a line feed. -/
def readText (p : Path) : Job Text := do
  let (_, content) ← ask Disk.opened p
  return (← decoded content).unifyEndings

/-- The text of a source file as it stands. Anything but a file counts as
    absent. -/
def readRaw (p : Path) : Job Text := do
  match ← ask Disk.look p with
  | some (.file content) => decoded content
  | _ => fail (.notFound p.text)

/-- Writes a file in place. -/
def writeText (p : Path) (t : Text) : Job Unit := do
  write (.put (← ask Disk.writable p) (.file (.text t)))

/-- Exchanges a file for one with another text, all at once. -/
def replace (p : Path) (t : Text) : Job Unit := do
  write (.put (← ask Disk.replaceable p) (.file (.text t)))

/-- Makes a file that must not exist yet, and the folders before it. -/
def newFile (p : Path) (t : Text) : Job Unit := do
  if ← isThere p then fail (.alreadyExists p.text)
  folders p.parent
  writeText p t

/-! ### Removing -/

/-- Removes a file. -/
def unlink (p : Path) : Job Unit := do
  let (loc, _) ← ask Disk.opened p
  write (.erase loc)

/-- Removes a file, unless the path leads to nothing. -/
def unlinkIfPresent (p : Path) : Job Unit := do
  match (← get).opened p with
  | .error .missing => return
  | _ => unlink p

/-- Removes a folder that has been emptied. Its path is walked again, so a
    path that led through something just removed leads to nothing now. -/
def removeEmptied (p : Path) : Job Unit := do
  if p.names = [] then
    fail (.system (if p.anchor = .here then .invalid else .busy) p.text)
  write (.erase (← ask Disk.find p))

/-- Removes a folder with everything in it, one entry after the other, the
    folder itself last. -/
def removeTree (p : Path) : Job Unit := do
  let loc ← ask Disk.find p
  ((← get).tree.below loc).forM fun l => write (.erase l)
  removeEmptied p

/-- Removes a file or a folder with everything in it. Answers whether there was
    anything to remove; whether there has to be is for the caller to say. -/
def remove (p : Path) (missingOk : Bool) : Job Bool := do
  if !(← isThere p) then
    if missingOk then return false else fail (.notFound p.text)
  if ← isFolder p then removeTree p else unlink p
  return true

end Job

end RouteScaffold
