import RouteScaffold.Dialect
import RouteScaffold.Disk.Job
import RouteScaffold.Json.Reader
import RouteScaffold.Json.Shape
import RouteScaffold.Json.Writer
import RouteScaffold.Layout

/-!
# Settings

Settings are an object in three layers: the defaults, the user's own file and
the project's file, each merged over the one before. A setting is found by its
key, whose parts are separated by dots.

One setting is checked when the layers have been read: the default dialect has
to be one. The names of the folders are taken as they come.

## Main definitions

* `Settings`: The fields of the merged layers.
* `Settings.defaults`: The first layer.
* `Settings.overlay`: A file's text over the layers before it.
* `Settings.load`: The three layers.
* `Settings.defaultDialect`: The default dialect, if it is one.
* `Settings.layout`: The layout that the settings describe.
-/

namespace RouteScaffold

/-- The fields of the merged layers. -/
abbrev Settings := Json.Fields

namespace Settings

/-- What holds without any settings file. -/
def defaults : Settings :=
  [("project", .record [("src_dir", .text "src"), ("packages_dir", .text "packages"),
      ("roles_dir", .text "Roles")]),
    ("registry", .record [("default_dialect", .text "marker")]),
    ("journal", .record [("enabled", .bool true)])]

/-- The value of a setting, its key given in dotted form. -/
def get? (s : Settings) (key : Text) : Option Json := Json.at? (Text.splitAt '.' key) (.record s)

/-- How settings files are read. -/
def rules : Json.Rules := ⟨985, false⟩

/-- The fault of a settings file that cannot be read. A file that is only too
    large for a reading is not called a bad settings file. -/
def unreadable (file document : Text) (f : Json.ReadFault) : Fault :=
  match f.flaw with
  | .tooDeep => .nestedTooDeep
  | .tooManyDigits => .numberTooLong
  | _ => .settingsUnreadable file (f.message document)

/-- The text of a settings file over the layers before it. -/
def overlay (s : Settings) (file document : Text) : Except Fault Settings :=
  match Json.read rules document with
  | .error f => .error (unreadable file document f)
  | .ok (.record fields) => .ok (Json.mergeFields s fields)
  | .ok _ => .error (.settingsNotObject file)

/-- A settings file, if there is one, over the layers before it. -/
def overlayFile (s : Settings) (file : Path) : Job Settings := do
  if !(← Job.isThere file) then return s
  match (← get).opened file with
  | .error e => Job.fail (.settingsUnreadable file.text (Fault.system e file.text).message)
  | .ok _ => Job.ofExcept (s.overlay file.text (← Job.readText file))

/-- The three layers: the defaults, the file in the user's home and the file of
    the project. -/
def load (home root : Path) : Job Settings := do
  let s ← overlayFile defaults (Layout.settingsFileOf home)
  overlayFile s (Layout.settingsFileOf root)

/-- The default dialect, if it is one. -/
def defaultDialect (s : Settings) : Except Fault Dialect :=
  let value := (s.get? "registry.default_dialect").getD .null
  match value.asText?.bind Dialect.ofName? with
  | some d => .ok d
  | none => .error (.invalidDefaultDialect value.shown)

/-- Whether intents are kept. -/
def journaling (s : Settings) : Bool := ((s.get? "journal.enabled").map Json.isTruthy).getD true

/-- The name of a folder; without a setting, its usual name. -/
def folder (s : Settings) (key usual : Text) : Option Text :=
  match s.get? key with
  | some v => v.asText?
  | none => some usual

/-- The layout that the settings describe. -/
def layout (s : Settings) (root : Path) : Layout :=
  ⟨root, s.folder "project.src_dir" "src", s.folder "project.packages_dir" "packages",
    s.folder "project.roles_dir" "Roles"⟩

end Settings

end RouteScaffold
