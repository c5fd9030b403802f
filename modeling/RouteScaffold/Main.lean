import RouteScaffold.CommandLine.Basic
import Std.Time.Zoned

/-!
# The Program

The outer layer of the command line. It reads the part of the file system that
a command can see into a tree, runs the command on that tree, makes the writes
of its trail on the file system in order, and prints what the command printed.
Everything that is decided is decided in `CommandLine.run`.

A command can see the settings of the user and of the project, the pending
intents, and the source folders that the settings name.

## Main definitions

* `Program.treeOf`: The part of the file system that lies at some paths.
* `Program.carryOut`: A write made on the file system.
* `main`: A run of the program.
-/

namespace RouteScaffold

namespace Program

/-- A location as the file system knows it. -/
def fileName (loc : Location) : String :=
  "/" ++ String.ofList (Text.join ['/'] loc)

/-- The location of an absolute path. -/
def locationOf (p : Path) : Location := (p.resolved ⟨.root, []⟩).names

/-- The moment of the run. -/
def moment : IO Timestamp := do
  let t ← Std.Time.PlainDateTime.now
  return ⟨t.year.toInt.toNat, t.month.toNat, t.day.toNat, t.hour.toNat, t.minute.toNat,
    t.second.toNat, t.nanosecond.toNat / 1000, false⟩

/-- The names in the folder at a location. -/
def namesAt (loc : Location) : IO (List Text) := do
  let place ← IO.FS.realPath (fileName loc)
  return (← place.readDir).toList.map fun e => e.fileName.toList

/-- The names in a folder, if there is one at a location. -/
def namesAt? (loc : Location) : IO (Option (List Text)) :=
  Except.toOption <$> (namesAt loc).toBaseIO

/-- What a file holds, if there is one at a location. -/
def contentAt? (loc : Location) : IO (Option Content) := do
  let bytes ← (IO.FS.readBinFile (fileName loc)).toBaseIO
  return bytes.toOption.map fun bytes => Content.ofBytes bytes.toList

/-- Adds what lies at a location to a tree, with everything in it. -/
partial def addAll (t : Tree) (loc : Location) : IO Tree := do
  match ← namesAt? loc with
  | some names => names.foldlM (fun t name => addAll t (loc ++ [name])) (t.put loc .folder)
  | none =>
    match ← contentAt? loc with
    | some content => return t.put loc (.file content)
    | none => return t

/-- Adds what lies at a location to a tree, without anything in it. -/
def addOne (t : Tree) (loc : Location) : IO Tree := do
  if (← namesAt? loc).isSome then return t.put loc .folder
  match ← contentAt? loc with
  | some content => return t.put loc (.file content)
  | none => return t

/-- Adds what lies on the way to a location to a tree, up to the location
    itself, without anything in it. -/
def addWay (t : Tree) (loc : Location) : IO Tree :=
  ((List.range loc.length).map fun n => loc.take (n + 1)).foldlM addOne t

/-- The part of the file system that lies at some paths, and on the way to
    them. -/
def treeOf (ps : List Path) : IO Tree :=
  ps.foldlM (fun t p => do addAll (← addWay t (locationOf p)) (locationOf p)) Tree.empty

/-- The root that the arguments ask for. -/
def rootOf (here : Path) (args : List Text) : Path :=
  match CommandLine.Arguments.read CommandLine.programSwitches false args with
  | .ok a => ((a.value? .root).map fun t => (Path.ofText t).resolved here).getD here
  | .error _ => here

/-- The source folders that the settings in a tree name. -/
def sourceFolders (home root : Path) (t : Tree) : List Path :=
  match ((Settings.load home root).run (Disk.fresh t [])).1 with
  | .ok s =>
    let l := s.layout root
    [l.sourceRoot, l.packagesRoot, l.rolesRoot].filterMap Except.toOption
  | .error _ => []

/-- Makes a write on the file system. A file is written aside first, and then
    takes its place. -/
def carryOut : Write → IO Unit
  | .put loc .folder => IO.FS.createDir (fileName loc)
  | .put loc (.file content) => do
    let bytes : ByteArray :=
      match content with
      | .text t => (String.ofList t).toUTF8
      | .bytes bs => ⟨bs.toArray⟩
    let aside := fileName loc ++ ".tmp"
    IO.FS.writeBinFile aside bytes
    IO.FS.rename aside (fileName loc)
  | .erase loc => do
    if (← namesAt? loc).isSome then IO.FS.removeDir (fileName loc)
    else IO.FS.removeFile (fileName loc)

end Program

end RouteScaffold

open RouteScaffold Program in
/-- A run of the program. -/
def main (arguments : List String) : IO UInt32 := do
  let args := arguments.map String.toList
  let here := Path.ofText (← IO.currentDir).toString.toList
  let home := Path.ofText ((← IO.getEnv "HOME").getD "/").toList
  let root := rootOf here args
  let own := [Layout.settingsFileOf home, Layout.ownFolderOf root]
  let sources := sourceFolders home root (← treeOf own)
  let tree ← addWay (← treeOf (own ++ sources)) (locationOf here)
  let shell := CommandLine.run home (← moment) args
  let ((r, screen), disk) :=
    StateT.run (shell.run.run Screen.blank) (Disk.fresh tree (locationOf here))
  disk.trail.forM carryOut
  screen.output.forM fun t => IO.print (String.ofList t)
  screen.errors.forM fun t => IO.eprint (String.ofList t)
  match r with
  | .ok status => return status.toUInt32
  | .error f =>
    IO.eprintln (String.ofList f.message)
    return 1
