import RouteScaffold.CommandLine.Screen
import RouteScaffold.CommandLine.Verb
import RouteScaffold.Project.Package
import RouteScaffold.Project.Recovery
import RouteScaffold.Project.Role
import RouteScaffold.Project.Setup

/-!
# The Command Line

The program does one thing per run, prints one line about it, and ends with a
status: zero if it was done, one if it could not be, two if the arguments make
no sense. A failure that a user is meant to see is printed; any other fault
ends the run as it is.

Arguments are judged in this order. First the options before the verb and the
root that they name, then the verb itself. Then pending commands are looked
for, which needs valid settings, and a line warns of any. Only then are the
options and the names behind the verb judged.

## Main definitions

* `Shell`: What prints, and works on a disk.
* `CommandLine.perform`: What a verb does.
* `CommandLine.request`: What the arguments up to the verb ask for.
* `CommandLine.run`: A whole run.
-/

namespace RouteScaffold

/-- What prints, and works on a disk. What was printed before a fault stays
    printed. -/
abbrev Shell := ExceptT Fault (StateT Screen (StateM Disk))

namespace Shell

/-- Works on the disk. -/
def disk (job : Job α) : Shell α := ExceptT.mk (StateT.lift job.run)

/-- Prints a line. -/
def say (message : Text) : Shell Unit := modifyThe Screen fun s => s.print message

/-- Prints a line about something that was done. -/
def success (message : Text) : Shell Unit := say ("✅ " ++ message)

/-- Prints a line about something that could not be done. -/
def failure (message : Text) : Shell Unit :=
  modifyThe Screen fun s => s.printError ("❌ " ++ message)

/-- Prints a line about something to be looked at. -/
def warning (message : Text) : Shell Unit :=
  modifyThe Screen fun s => s.printError ("⚠️  " ++ message)

/-- The status of what was tried. A fault that a user is meant to see is
    printed. -/
def guarded (action : Shell Nat) : Shell Nat :=
  tryCatch action fun f => do
    match f.category with
    | some _ =>
      failure f.message
      return 1
    | none => throw f

end Shell

namespace CommandLine

open Shell

/-- Where a run takes place. -/
structure Setting where
  /-- The user's home. -/
  home : Path
  /-- The root of the project. -/
  root : Path
  now : Timestamp

/-- The project of a run. -/
def Setting.project (s : Setting) : Shell Project := disk (Project.open s.home s.root s.now)

/-- A text with its first character in upper case. -/
def capitalized (t : Text) : Text := Text.upper (t.take 1) ++ t.drop 1

/-- How the program is used, up to the list of verbs. -/
def usage : List Text :=
  ["Usage: aviators [OPTIONS] COMMAND [ARGS]...", "", "Options:",
    "  -C, --root DIR   Project root (defaults to the current directory).",
    "  -v, --verbose    Log every mutation step.",
    "  --help           Show this message and exit.", "", "Commands:"]

/-- How to use the program. -/
def help : Text :=
  Text.join ['\n'] (usage ++ Verb.all.flatMap fun v => v.names.take 1)

/-- The line of an intent in a list. -/
def tableLine (i : Intent) : Text :=
  Text.join "  " [i.id, Project.commandLine i, i.mode.name, i.error.getD []]

/-- A list of intents. -/
def table (is : List Intent) : Text := Text.join ['\n'] ("Pending intents" :: is.map tableLine)

/-- What a line calls an artifact: a module or a page by the names as they were
    typed, and anything else by its canonical name. -/
def label (a : Artifact) (names : List Text) : Text :=
  match a.kind with
  | .module => Text.join ['/'] names
  | .page => Text.join ['/'] (names.take 2 ++ [a.name])
  | .package _ | .role => a.name

/-- Prints what became of an artifact. -/
def report (a : Artifact) (done : Text) (names : List Text) : Shell Unit :=
  success (capitalized a.kind.name ++ " " ++ done ++ " → " ++ label a names)

/-- Makes an artifact. -/
def create (p : Project) (kind : Kind) (dialect : Option Text) (names : List Text) :
    Job Artifact :=
  match kind with
  | .package kind => p.createPackage kind names[0]?
  | .role => p.createRole names[0]? dialect
  | .module => p.createModule names[0]? names[1]?
  | .page => p.createPage names[0]? names[1]? names[2]?

/-- Removes an artifact. -/
def delete (p : Project) (kind : Kind) (names : List Text) : Job Artifact :=
  match kind with
  | .package kind => p.deletePackage kind names[0]? false
  | .role => p.deleteRole names[0]?
  | .module => p.deleteModule names[0]? names[1]? false
  | .page => p.deletePage names[0]? names[1]? names[2]? false

/-- A path as it is shown to someone who knows the root. -/
def shownBelow (root p : Path) : Except Fault Text :=
  match p.relativeTo? root with
  | some relative => .ok relative.text
  | none => .error (.notBelow p.text root.text)

/-- Sets up a project. -/
def setUp (s : Setting) : Shell Unit := do
  let p ← s.project
  let made ← disk p.setUp
  for path in made do
    say ("   " ++ (← disk (Job.ofExcept (shownBelow p.layout.root path))))
  let source ← disk (Job.ofExcept p.layout.sourceRoot)
  success ("Project initialized → " ++ source.text ++ " (" ++ Text.ofNat made.length ++ " new)")

/-- Recovers one intent, or forgets it. -/
def recoverOne (p : Project) (discard : Bool) (i : Intent) : Shell Unit := do
  if discard then
    disk (p.journal.drop i)
    success ("Intent discarded → " ++ i.id)
  else
    for line in ← disk (p.recover i) do
      say ("   " ++ line)
    success ("Recovered → " ++ Project.commandLine i)

/-- Recovers the intent that is named, or all that are pending. -/
def recover (s : Setting) (a : Arguments Choice) : Shell Unit := do
  let p ← s.project
  let intents ← match a.operands with
    | [] | [] :: _ => disk (p.journal.pending p.now)
    | id :: _ => List.singleton <$> disk (p.journal.get p.now id)
  if a.has .list then say (if intents.isEmpty then "No pending intents." else table intents)
  else if intents.isEmpty then success "Nothing to recover"
  else intents.forM (recoverOne p (a.has .discard))

/-- What a verb does. -/
def perform (s : Setting) (verb : Verb) (a : Arguments Choice) : Shell Unit := do
  match verb with
  | .init => setUp s
  | .recover => recover s a
  | .create kind =>
    let p ← s.project
    let artifact ← disk (create p kind (a.value? .dialect) a.operands)
    report artifact "created" a.operands
    if kind ∈ [Kind.module, Kind.page] && artifact.registered = some false then
      warning "Registry already contained this entry; left unchanged"
  | .delete kind =>
    let p ← s.project
    report (← disk (delete p kind a.operands)) "deleted" a.operands

/-- Warns of pending commands. -/
def warnOfPending (s : Setting) : Shell Unit := do
  let p ← s.project
  let count := (← disk (p.journal.pending p.now)).length
  if count ≠ 0 then
    warning (Text.ofNat count ++ " interrupted command(s) pending; "
      ++ "run 'aviators recover --list' to inspect or 'aviators recover' to fix")

/-- Ends a run whose arguments make no sense. -/
def misused (e : UsageError) : Shell Nat := do
  failure e.message
  return 2

/-- Ends a run with help. -/
def helped (status : Nat) : Shell Nat := do
  say help
  return status

/-- The arguments behind a verb, if the verb can use them. Being asked for help
    comes before there being too many names. -/
def argumentsOf (verb : Verb) (args : List Text) : Except UsageError (Arguments Choice) := do
  let a ← Arguments.read verb.switches true args
  match a.operands.drop verb.arity with
  | extra :: _ => if a.has .help then return a else .error (.extraArgument extra)
  | [] => return a

/-- Does what a verb asks for. -/
def runVerb (s : Setting) (verb : Verb) (args : List Text) : Shell Nat :=
  guarded do
    unless verb.ignoresPending do warnOfPending s
    match argumentsOf verb args with
    | .error e => misused e
    | .ok a =>
      if a.has .help then helped 0
      else
        perform s verb a
        return 0

/-- Whether a text can lead to a file. One that ends in a slash or in a single
    dot leads to a folder or to nothing. -/
def endsInName (t : Text) : Bool := ((Text.splitAt '/' t).getLast?.map Path.counts).getD false

/-- The root that the options ask for: the folder of the run, if none is asked
    for. A file cannot be the root. -/
def rootOf (a : Arguments Choice) : Job (Except UsageError Path) := do
  let d ← get
  let here : Path := ⟨.root, d.here⟩
  match a.value? .root with
  | none => return .ok here
  | some t =>
    let p := Path.ofText t
    match d.opened p with
    | .error .nullCharacter => Job.fail (.system .nullCharacter t)
    | .error _ => return .ok (p.resolved here)
    | .ok _ => return if endsInName t then .error (.notAFolder t) else .ok (p.resolved here)

/-- What the arguments up to a verb ask for. -/
inductive Request where
  | help
  /-- A run in a root. The first operand is the verb. -/
  | run (root : Path) (operands : List Text)
  deriving DecidableEq, Repr

/-- What arguments ask for. Being asked for help comes before any folder. -/
def request (args : List Text) : Job (Except UsageError Request) := do
  match Arguments.read programSwitches false args with
  | .error e => return .error e
  | .ok a =>
    if a.has .help then return .ok .help
    else return (← rootOf a).map fun root => .run root a.operands

/-- Ends a run that asks for an unknown verb. Operands that look like options
    are judged as options before the verb is. -/
def runUnknown (name : Text) (operands : List Text) : Shell Nat := do
  let refuse (message : Text) : Shell Nat := do
    failure message
    say "Run 'aviators --help' for usage."
    return 1
  match ← disk (request operands) with
  | .error e => refuse e.message
  | .ok .help => helped 0
  | .ok (.run ..) => refuse ("No such command " ++ name.quoted ++ ".")

/-- A whole run, which ends with a status. -/
def run (home : Path) (now : Timestamp) (args : List Text) : Shell Nat := do
  match ← disk (request args) with
  | .error e => misused e
  | .ok .help => helped 0
  | .ok (.run _ []) => helped 1
  | .ok (.run root (name :: rest)) =>
    match Verb.ofName? name with
    | some verb => runVerb ⟨home, root, now⟩ verb rest
    | none => runUnknown name (name :: rest)

end CommandLine

end RouteScaffold
