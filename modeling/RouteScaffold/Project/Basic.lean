import RouteScaffold.Journal.Plan
import RouteScaffold.Registry.Load
import RouteScaffold.Settings

/-!
# Projects

A project is what a command works on: where its files lie, which dialect its
roles get when nothing else is said, its journal, and the moment of the
command. Opening a project reads its settings, so a change to them counts from
the next command on.

Every command goes the same way. Names are made canonical and checked, then
everything that could stand in the way is looked at; what comes out of that is
an order, and only an order is carried out.

## Main definitions

* `Project`: What a command works on.
* `Project.open`: The project at a root.
* `Artifact`: What a command answers.
* `Order`: What a command is about to do.
* `Project.carryOut`: Doing it.
* `Kind.named`: A raw name with its canonical identifier.
-/

namespace RouteScaffold

/-- What a command works on. -/
structure Project where
  layout : Layout
  /-- The dialect of roles for which none is asked. -/
  dialect : Dialect
  journal : Journal
  /-- The moment of the command. -/
  now : Timestamp
  deriving DecidableEq, Repr

namespace Project

/-- The project that settings describe. -/
def ofSettings (s : Settings) (root : Path) (now : Timestamp) : Except Fault Project := do
  let layout := s.layout root
  return ⟨layout, ← s.defaultDialect, ⟨layout.intentsFolder, s.journaling⟩, now⟩

/-- The project at a root, with the settings of its user and its own. -/
def «open» (home root : Path) (now : Timestamp) : Job Project := do
  Job.ofExcept (ofSettings (← Settings.load home root) root now)

end Project

/-- What was made or removed. -/
structure Artifact where
  kind : Kind
  /-- The name as it was given. -/
  raw : Text
  /-- The canonical identifier. -/
  name : Text
  files : List Path
  /-- Whether an entry was written or removed; nothing where there is no
      entry. -/
  registered : Option Bool
  deriving DecidableEq, Repr

/-- What a command is about to do when nothing stands in its way: the words that
    its intent keeps, its plan, and what it answers, by whether an edit changed a
    file. -/
structure Order where
  verb : Text
  args : List Text
  mode : Mode
  plan : List Step
  answer : Bool → Artifact

/-- A raw name with its canonical identifier. -/
structure Named where
  raw : Text
  name : Text
  deriving DecidableEq, Repr

/-- A raw name with its canonical identifier, if it has one. -/
def Kind.named (kind : Kind) (raw : Option Text) : Except Fault Named := do
  let raw ← Naming.present kind.name raw
  return ⟨raw, ← kind.canonicalOf raw⟩

namespace Project

/-- The verb of a command that makes an artifact of a kind. -/
def createVerb (kind : Kind) : Text := kind.name

/-- The verb of a command that removes an artifact of a kind. -/
def deleteVerb (kind : Kind) : Text := "delete-" ++ kind.name

/-- Carries out an order, under an intent of the project's journal. -/
def carryOut (p : Project) (o : Order) : Job Artifact := do
  return o.answer (← p.journal.track p.now o.verb o.args o.mode o.plan)

/-- The files of a rendering in a folder, with their texts. -/
def filesIn (base : Path) (r : Rendering) : List (Path × Text) :=
  r.map fun (name, t) => (base / name, t)

/-- The steps that make files. -/
def makeSteps (files : List (Path × Text)) : List Step := files.map fun (p, t) => .newFile p t

/-- The steps of a revision. -/
def reviseSteps (r : Revision) : List Step := r.edits.map (.edit r.file)

/-- The first of some paths that leads to something is a fault. -/
def requireAbsent : List Path → Job Unit
  | [] => return
  | p :: rest => do
    if ← Job.isThere p then Job.fail (.alreadyExists p.text)
    requireAbsent rest

end Project

end RouteScaffold
