import RouteScaffold.Json.Reader
import RouteScaffold.Json.Shape
import RouteScaffold.Json.Writer
import RouteScaffold.Text.Digest
import RouteScaffold.Timestamp.Reader

/-!
# Intents

An intent is the record of a command in progress: what was asked for, when it
began, which paths it is about to make, what the files that it is about to
change held before, and the fault that stopped it, if one did.

An intent is kept as a document whose name is its identifier, a digest of what
was asked for and when.

## Main definitions

* `Intent`: The record.
* `Intent.identifier`: The identifier of a command.
* `Intent.document`: An intent as a document.
* `Intent.ofDocument?`: The intent that a document is.
-/

namespace RouteScaffold

/-- What becomes of a command that was cut short. -/
inductive Mode where
  /-- It is undone. -/
  | create
  /-- It is done again. -/
  | delete
  deriving DecidableEq, Repr

namespace Mode

/-- The name of a mode. -/
def name : Mode → Text
  | create => "create"
  | delete => "delete"

/-- The mode with a given name. -/
def ofName? (t : Text) : Option Mode := [create, delete].find? fun m => m.name = t

end Mode

/-- What a file held before a command, which is nothing if it did not
    exist. -/
structure Snapshot where
  file : Text
  content : Option Text
  deriving DecidableEq, Repr

namespace Snapshot

/-- A snapshot as a value. -/
def toJson (s : Snapshot) : Json :=
  .record [("file_path", .text s.file), ("original_content", .ofText? s.content)]

/-- The snapshot that a value is. -/
def ofJson? (v : Json) : Option Snapshot := do
  let fields ← v.asFields?
  return {
    file := ← Json.Fields.required? "file_path" Json.asText? fields
    content := ← Json.Fields.optional? "original_content" none (Json.orNull? Json.asText?) fields }

end Snapshot

/-- The record of a command in progress. -/
structure Intent where
  id : Text
  verb : Text
  args : List Text
  mode : Mode
  startedAt : Timestamp
  /-- The paths that the command is about to make, in order. -/
  created : List Text
  snapshots : List Snapshot
  /-- The fault that stopped the command. -/
  error : Option Text
  deriving DecidableEq, Repr

namespace Intent

/-- The bytes of a text of ASCII characters. -/
def asciiBytes (t : Text) : List UInt8 := t.map fun c => UInt8.ofNat c.toNat

/-- The identifier of a command that begins at a moment. -/
def identifier (verb : Text) (args : List Text) (mode : Mode) (now : Timestamp) : Text :=
  let seed : Json := .list [.text verb, .ofTexts args, .text mode.name, .text now.text]
  (Digest.sha256 (asciiBytes seed.line)).take 16

/-- The intent of a command that begins at a moment. -/
def start (verb : Text) (args : List Text) (mode : Mode) (now : Timestamp) : Intent :=
  ⟨identifier verb args mode now, verb, args, mode, now, [], [], none⟩

/-- An intent as a value. -/
def toJson (i : Intent) : Json :=
  .record [("intent_id", .text i.id), ("verb", .text i.verb), ("args", .ofTexts i.args),
    ("mode", .text i.mode.name), ("started_at", .text i.startedAt.text),
    ("created_paths", .ofTexts i.created), ("snapshots", .list (i.snapshots.map Snapshot.toJson)),
    ("error", .ofText? i.error)]

/-- The intent that a value is. One that does not say when it began is taken to
    begin now. -/
def ofJson? (now : Timestamp) (v : Json) : Option Intent := do
  let fields ← v.asFields?
  let texts? := Json.asList? Json.asText?
  return {
    id := ← Json.Fields.required? "intent_id" Json.asText? fields
    verb := ← Json.Fields.required? "verb" Json.asText? fields
    args := ← Json.Fields.required? "args" texts? fields
    mode := ← Json.Fields.required? "mode" (fun v => v.asText?.bind Mode.ofName?) fields
    startedAt := ← Json.Fields.optional? "started_at" now Timestamp.ofJson? fields
    created := ← Json.Fields.optional? "created_paths" [] texts? fields
    snapshots := ←
      Json.Fields.optional? "snapshots" [] (Json.asList? Snapshot.ofJson?) fields
    error := ← Json.Fields.optional? "error" none (Json.orNull? Json.asText?) fields }

/-- An intent as a document. -/
def document (i : Intent) : Text := i.toJson.document

/-- The intent that a document is. -/
def ofDocument? (now : Timestamp) (t : Text) : Option Intent :=
  (Json.readRecord? t).bind (ofJson? now)

/-- An intent that lists one more path. -/
def withCreated (i : Intent) (path : Text) : Intent := { i with created := i.created ++ [path] }

/-- An intent with one more snapshot. -/
def withSnapshot (i : Intent) (s : Snapshot) : Intent := { i with snapshots := i.snapshots ++ [s] }

/-- An intent with the fault that stopped its command. -/
def withError (i : Intent) (message : Text) : Intent := { i with error := some message }

/-- Whether an intent knows what a file held. -/
def hasSnapshot (i : Intent) (file : Text) : Bool := i.snapshots.any fun s => s.file = file

end Intent

end RouteScaffold
