import RouteScaffold.Json.Basic

/-!
# Shapes of Documents

Records that are kept in files are read strictly: a field has to have the
shape that is asked for, no value is taken for another, and null is a value
only where it is expected. Fields that nobody asks for are of no consequence.

A shape is a partial function from values: what a value of that shape is, and
nothing for any other value.

## Main definitions

* `Json.asText?`, `Json.asList?`, `Json.asFields?`, `Json.orNull?`: Shapes.
* `Json.Fields.required?`, `Json.Fields.optional?`: A field of some shape.
-/

namespace RouteScaffold

namespace Json

/-- The text that a value is. -/
def asText? : Json → Option Text
  | text t => some t
  | _ => none

/-- The items of a list, each of some shape. -/
def asList? (shape : Json → Option α) : Json → Option (List α)
  | list items => items.mapM shape
  | _ => none

/-- The fields of an object. -/
def asFields? : Json → Option Fields
  | record fields => some fields
  | _ => none

/-- Null, or a value of some shape. -/
def orNull? (shape : Json → Option α) : Json → Option (Option α)
  | null => some none
  | v => (shape v).map some

/-- Null, or a text. -/
def ofText? (t : Option Text) : Json := (t.map text).getD null

/-- A list of texts. -/
def ofTexts (ts : List Text) : Json := list (ts.map text)

namespace Fields

/-- A field that has to be there. -/
def required? (key : Text) (shape : Json → Option α) (fields : Fields) : Option α :=
  (get? key fields).bind shape

/-- A field that may be absent, with the value that it then has. -/
def optional? (key : Text) (default : α) (shape : Json → Option α) (fields : Fields) : Option α :=
  match get? key fields with
  | some v => shape v
  | none => some default

end Fields

end Json

end RouteScaffold
