import RouteScaffold.Fault
import RouteScaffold.Naming
import RouteScaffold.Path

/-!
# Project Layout

Where everything lies in a project. Below the root there are the tool's own
folder, `.aviators`, and the source folder, which holds the packages and the
roles. The names of the three source folders come from the settings.

Settings are not checked before they are used. A folder name that is no text
is a fault of the first path that goes through it, and of no other.

## Main definitions

* `Layout`: The root, and the names of the source folders.
* `Layout.intentsFolder`, `Layout.settingsFile`: The tool's own places.
* `Layout.packageFolder`, `Layout.barrel`: The places of a kind of package.
* `Layout.roleFolder`, `Layout.registryFile`, `Layout.moduleFolder`: The
  places of a role.
-/

namespace RouteScaffold

/-- The root of a project, and the names of its source folders. A name that is
    `none` is no text in the settings. -/
structure Layout where
  root : Path
  source : Option Text
  packages : Option Text
  roles : Option Text
  deriving DecidableEq, Repr

namespace Layout

/-- The layout of a project whose settings say nothing about it. -/
def ofRoot (root : Path) : Layout :=
  ⟨root, some "src".toList, some "packages".toList, some "Roles".toList⟩

/-- The folder of settings below a root. -/
def ownFolderOf (root : Path) : Path := root / ".aviators"

/-- The settings file below a root. -/
def settingsFileOf (root : Path) : Path := ownFolderOf root / "config.json"

/-- The tool's own folder. -/
def ownFolder (l : Layout) : Path := ownFolderOf l.root

/-- The folder of pending intents. -/
def intentsFolder (l : Layout) : Path := l.ownFolder / "intents"

/-- The folder of log files. -/
def logsFolder (l : Layout) : Path := l.ownFolder / "logs"

/-- The project's settings file. -/
def settingsFile (l : Layout) : Path := settingsFileOf l.root

/-- A folder whose name comes from the settings. -/
def named (base : Path) (name : Option Text) : Except Fault Path :=
  match name with
  | some t => .ok (base / t)
  | none => .error .wrongType

/-- The source folder. -/
def sourceRoot (l : Layout) : Except Fault Path := named l.root l.source

/-- The folder of all packages. -/
def packagesRoot (l : Layout) : Except Fault Path := do named (← l.sourceRoot) l.packages

/-- The folder of all roles. -/
def rolesRoot (l : Layout) : Except Fault Path := do named (← l.sourceRoot) l.roles

/-- A folder below that of all packages. -/
def folderIn (l : Layout) (name : Text) : Except Fault Path := return (← l.packagesRoot) / name

/-- The barrel of a folder below that of all packages. -/
def barrelIn (l : Layout) (name : Text) : Except Fault Path := return (← l.folderIn name) / "index.ts"

/-- The folder of a kind of package. -/
def packageFolder (l : Layout) (kind : PackageKind) : Except Fault Path := l.folderIn kind.folder

/-- The barrel of a kind of package. -/
def barrel (l : Layout) (kind : PackageKind) : Except Fault Path := l.barrelIn kind.folder

/-- The folder of a role. -/
def roleFolder (l : Layout) (role : Text) : Except Fault Path := return (← l.rolesRoot) / role

/-- The folders that every role has. -/
def roleSubfolders : List Text := ["assets", "api", "modules", "routes"]

/-- The descriptor of a role. -/
def descriptorFile (l : Layout) (role : Text) : Except Fault Path :=
  return (← l.roleFolder role) / ".aviators-role.json"

/-- The route registry of a role. -/
def registryFile (l : Layout) (role : Text) : Except Fault Path :=
  return (← l.roleFolder role) / "routes" / "route.tsx"

/-- The folder of a module. -/
def moduleFolder (l : Layout) (role segment : Text) : Except Fault Path :=
  return (← l.roleFolder role) / "modules" / segment

/-- The folder of a module's pages. -/
def pagesFolder (l : Layout) (role segment : Text) : Except Fault Path :=
  return (← l.moduleFolder role segment) / "pages"

end Layout

end RouteScaffold
