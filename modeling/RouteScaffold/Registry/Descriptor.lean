import RouteScaffold.Dialect
import RouteScaffold.Json.Reader
import RouteScaffold.Json.Shape
import RouteScaffold.Json.Writer
import RouteScaffold.Timestamp.Reader

/-!
# Role Descriptors

A role keeps a descriptor beside its folders: its name, the dialect of its
registry and the moment at which it was made. The dialect is read from there,
so that nothing has to be guessed from the text of the registry.

## Main definitions

* `Descriptor`: The record.
* `Descriptor.document`: A descriptor as a document.
* `Descriptor.ofDocument?`: The descriptor that a document is.
-/

namespace RouteScaffold

/-- What a role says about itself. -/
structure Descriptor where
  name : Text
  dialect : Dialect
  createdAt : Timestamp
  deriving DecidableEq, Repr

namespace Descriptor

/-- A descriptor as a value. -/
def toJson (d : Descriptor) : Json :=
  .record [("name", .text d.name), ("dialect", .text d.dialect.name),
    ("created_at", .text d.createdAt.text)]

/-- The descriptor that a value is. Without a dialect it is of the marker
    dialect, and without a moment it is made now. -/
def ofJson? (now : Timestamp) (v : Json) : Option Descriptor := do
  let fields ← v.asFields?
  return {
    name := ← Json.Fields.required? "name" Json.asText? fields
    dialect := ←
      Json.Fields.optional? "dialect" .marker (fun v => v.asText?.bind Dialect.ofName?) fields
    createdAt := ← Json.Fields.optional? "created_at" now Timestamp.ofJson? fields }

/-- A descriptor as a document, which ends in a line break. -/
def document (d : Descriptor) : Text := d.toJson.document ++ ['\n']

/-- The descriptor that a document is. -/
def ofDocument? (now : Timestamp) (t : Text) : Option Descriptor :=
  (Json.readRecord? t).bind (ofJson? now)

end Descriptor

end RouteScaffold
