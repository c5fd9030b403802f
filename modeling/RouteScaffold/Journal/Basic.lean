import RouteScaffold.Edit.Basic
import RouteScaffold.Journal.Intent

/-!
# The Journal

The journal is a folder with one document for each command in progress. An
intent is saved before its command touches anything, saved again whenever it
learns more, and dropped when the command has come to its end. An intent that
is still there belongs to a command that was cut short.

A journal may be told to keep nothing. Commands then run as before, and leave
no document.

Undoing a creation gives every file that the intent has a snapshot of what it
held before, and removes the paths that the intent lists, the last one first.

## Main definitions

* `Journal`: The folder, and whether intents are kept in it.
* `Journal.begin`, `Journal.save`, `Journal.drop`: The life of an intent.
* `Journal.get`, `Journal.pending`: Intents that are still there.
* `Journal.rollback`: Undoing a creation.
-/

namespace RouteScaffold

/-- The folder of intents, and whether intents are kept in it. -/
structure Journal where
  folder : Path
  keeps : Bool
  deriving DecidableEq, Repr

namespace Journal

/-- The document of an intent. -/
def file (j : Journal) (id : Text) : Path := j.folder / (id ++ ".json".toList)

/-- Saves an intent as it is now. -/
def save (j : Journal) (i : Intent) : Job Unit := do
  if j.keeps then
    Job.folders j.folder
    Job.replace (j.file i.id) i.document

/-- Saves the intent of a command that begins at a moment. -/
def begin (j : Journal) (now : Timestamp) (verb : Text) (args : List Text) (mode : Mode) :
    Job Intent := do
  let i := Intent.start verb args mode now
  j.save i
  return i

/-- Drops an intent, if it is there. -/
def drop (j : Journal) (i : Intent) : Job Unit := Job.unlinkIfPresent (j.file i.id)

/-- What a path leads to now, as a snapshot. -/
def snapshotOf (p : Path) : Job Snapshot := do
  if ← Job.isThere p then return ⟨p.text, some (← Job.readRaw p)⟩
  else return ⟨p.text, none⟩

/-- An intent that knows what a file held. A file is looked at only once. -/
def withSnapshotOf (i : Intent) (p : Path) : Job Intent := do
  if i.hasSnapshot p.text then return i else return i.withSnapshot (← snapshotOf p)

/-- The intent with an identifier. -/
def get (j : Journal) (now : Timestamp) (id : Text) : Job Intent := do
  unless ← Job.isThere (j.file id) do Job.fail (.noPendingIntent id)
  match Intent.ofDocument? now (← Job.readText (j.file id)) with
  | some i => return i
  | none => Job.fail .invalidDocument

/-! ### Pending intents -/

/-- Puts an intent before the first one that does not begin before it. -/
def placeByTime (i : Intent) : List Intent → List Intent
  | [] => [i]
  | k :: rest =>
    if k.startedAt.isBefore? i.startedAt = some true then k :: placeByTime i rest
    else i :: k :: rest

/-- Intents in the order in which they began. Intents that cannot be compared
    have no order. -/
def oldestFirst (is : List Intent) : Except Fault (List Intent) :=
  if is.all (·.startedAt.isMarked) || is.all (!·.startedAt.isMarked) then
    .ok (is.foldr placeByTime [])
  else .error .wrongType

/-- The names of the documents in a folder. -/
def documentsIn (d : Disk) (p : Path) : List Text :=
  match d.find p with
  | .ok loc => (d.tree.namesIn loc).filter (Text.endsWith ".json")
  | .error _ => []

/-- The intent in a file, if it is a file and a valid document. -/
def intentIn? (now : Timestamp) (p : Path) : Job (Option Intent) := do
  match (← MonadState.get).opened p with
  | .ok _ => return Intent.ofDocument? now (← Job.readText p)
  | .error _ => return none

/-- Intents that are still there, the oldest first. What is no valid document
    is passed over. -/
def pending (j : Journal) (now : Timestamp) : Job (List Intent) := do
  unless ← Job.isFolder j.folder do return []
  let names := documentsIn (← MonadState.get) j.folder
  let found ← names.mapM fun name => intentIn? now (j.folder / name)
  Job.ofExcept (oldestFirst (found.filterMap id))

/-! ### Undoing -/

/-- Gives a file what it held before. Answers whether anything was done. -/
def restore (s : Snapshot) : Job Bool := do
  let p := Path.ofText s.file
  match s.content with
  | none =>
    if ← Job.isThere p then
      Job.unlink p
      return true
    else return false
  | some t =>
    if ← Job.isFolder p.parent then
      Job.replace p t
      return true
    else return false

/-- Removes a path that was made, if it is there. Answers whether it was. -/
def removeCreated (path : Text) : Job Bool := Job.remove (Path.ofText path) true

/-- Undoes a creation, and drops its intent. Answers with the paths that were
    restored or removed. -/
def rollback (j : Journal) (i : Intent) : Job (List Text) := do
  let restored ← i.snapshots.filterM restore
  let removed ← i.created.reverse.filterM removeCreated
  j.drop i
  return restored.map Snapshot.file ++ removed

end Journal

end RouteScaffold
