import RouteScaffold.Project.Package
import RouteScaffold.Project.Page

/-!
# Recovery

A command that was cut short has left its intent. A creation is undone: files
get back what they held, and what was made is removed. A deletion is done
again, and tolerates that part of it is done already; its intent is dropped
first, and the repetition has an intent of its own.

What is to be done again is read off the verb of the intent, behind the place
where `delete-` stands.

## Main definitions

* `Resumable.ofIntent`: What is to be done again.
* `Project.recover`: Undoes or repeats the command of an intent.
-/

namespace RouteScaffold

/-- The kinds whose deletion can be done again. -/
inductive Resumable where
  | package (kind : PackageKind)
  | module
  | page
  deriving DecidableEq, Repr

namespace Resumable

/-- The kind of a deletion, by the verb of its command. -/
def ofVerb? (verb : Text) : Option Resumable :=
  match Kind.ofName? (List.drop 7 verb) with
  | some (.package kind) => some (package kind)
  | some .module => some module
  | some .page => some page
  | some .role | none => none

end Resumable

namespace Project

/-- Removes once more what a deletion was to remove. A command that was given
    another number of names than its kind needs cannot be repeated. -/
def repeatDeletion (p : Project) (kind : Resumable) (args : List Text) : Job Artifact :=
  match kind, args with
  | .package kind, [name] => p.deletePackage kind (some name) true
  | .module, [role, module] => p.deleteModule (some role) (some module) true
  | .page, [role, module, page] => p.deletePage (some role) (some module) (some page) true
  | _, _ => Job.fail .wrongType

/-- The command of an intent as it was typed. -/
def commandLine (i : Intent) : Text := i.verb ++ " " ++ Text.join [' '] i.args

/-- Undoes or repeats the command of an intent. Answers with what was done, a
    line for each thing. -/
def recover (p : Project) (i : Intent) : Job (List Text) :=
  match i.mode with
  | .create => do
    let touched ← p.journal.rollback i
    return touched.map fun path => "restored/removed " ++ path
  | .delete =>
    match Resumable.ofVerb? i.verb with
    | none => Job.fail (.notResumable i.verb)
    | some kind => do
      p.journal.drop i
      let _ ← p.repeatDeletion kind i.args
      return ["resumed " ++ commandLine i]

/-- Recovers every pending intent, the oldest first, up to the first that
    fails. -/
def recoverAll (p : Project) : Job (List (List Text)) := do
  (← p.journal.pending p.now).mapM p.recover

end Project

end RouteScaffold
