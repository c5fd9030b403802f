import RouteScaffold.Journal.Basic

/-!
# Plans

A command that makes or removes an artifact is a list of steps, known before
the first one is taken. Some steps change the project; others tell the intent
of the command what is about to change. The list says in which order the two
alternate, and nothing happens that no step says.

A plan is followed under an intent: the intent is saved first, and dropped
when all steps have been taken. If a step fails, the steps behind it are not
taken, and the intent stays with the words of the fault.

## Main definitions

* `Step`: One step of a command.
* `Journal.take`: Taking a step.
* `Journal.follow`: Taking steps up to the first that fails.
* `Journal.track`: Following a plan under an intent.
-/

namespace RouteScaffold

/-- One step of a command. -/
inductive Step where
  /-- The intent learns that a path is about to be made. -/
  | record (p : Path)
  /-- The intent learns what a file holds. -/
  | snapshot (p : Path)
  /-- The intent learns what a file holds, if there is one. -/
  | snapshotIfPresent (p : Path)
  /-- A folder is made, and the folders before it. -/
  | folder (p : Path)
  /-- A file is made that must not exist yet. -/
  | newFile (p : Path) (t : Text)
  /-- A file is written, whether it exists or not. -/
  | file (p : Path) (t : Text)
  /-- A file is changed. -/
  | edit (p : Path) (e : Edit)
  /-- A file is changed, if there is one. -/
  | editIfPresent (p : Path) (e : Edit)
  /-- A file or a folder is removed. -/
  | remove (p : Path) (missingOk : Bool)
  deriving DecidableEq, Repr

namespace Journal

/-- Lets an intent learn something, and saves it. -/
def learn (j : Journal) (i : Intent) : Job (Intent × Bool) := do
  j.save i
  return (i, false)

/-- Lets an intent learn what a file holds. One that knows it already is not
    saved again. -/
def learnSnapshot (j : Journal) (i : Intent) (p : Path) : Job (Intent × Bool) := do
  if i.hasSnapshot p.text then return (i, false)
  else j.learn (← withSnapshotOf i p)

/-- Takes a step. Answers with what the intent has become, and whether an edit
    changed a file. -/
def take (j : Journal) (i : Intent) : Step → Job (Intent × Bool)
  | .record p => j.learn (i.withCreated p.text)
  | .snapshot p => j.learnSnapshot i p
  | .snapshotIfPresent p => do
    if ← Job.isThere p then j.learnSnapshot i p else return (i, false)
  | .folder p => do
    Job.folders p
    return (i, false)
  | .newFile p t => do
    Job.newFile p t
    return (i, false)
  | .file p t => do
    Job.writeText p t
    return (i, false)
  | .edit p e => return (i, ← Job.edit p e)
  | .editIfPresent p e => do
    if ← Job.isThere p then return (i, ← Job.edit p e) else return (i, false)
  | .remove p missingOk => do
    let _ ← Job.remove p missingOk
    return (i, false)

/-- Takes steps up to the first that fails. Answers with what the intent has
    become, and with that fault or whether any edit changed a file. -/
def follow (j : Journal) : Intent → List Step → StateM Disk (Intent × Except Fault Bool)
  | i, [] => return (i, .ok false)
  | i, s :: steps => do
    match ← (j.take i s).run with
    | .error f => return (i, .error f)
    | .ok (i, changed) =>
      let (i, r) ← j.follow i steps
      return (i, r.map (changed || ·))

/-- Ends a command as its steps ended. -/
def settle (j : Journal) (i : Intent) : Except Fault Bool → Job Bool
  | .ok changed => do
    j.drop i
    return changed
  | .error f => do
    j.save (i.withError f.message)
    Job.fail f

/-- Follows a plan under an intent. Answers whether any edit changed a
    file. -/
def track (j : Journal) (now : Timestamp) (verb : Text) (args : List Text) (mode : Mode)
    (plan : List Step) : Job Bool := do
  let i ← j.begin now verb args mode
  let (i, r) ← j.follow i plan
  j.settle i r

end Journal

end RouteScaffold
