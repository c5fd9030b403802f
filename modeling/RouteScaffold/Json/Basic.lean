import RouteScaffold.Number.Binary64
import RouteScaffold.Text.Basic

/-!
# JSON Values

Settings, role descriptors and intents are JSON documents. A value keeps the
fields of an object in the order in which they first arrived; a field that
arrives again keeps its place and takes the new value. Integers are exact. A
number with a fraction or an exponent is kept as the nearest binary number of
64 bits, whatever its value, so it stays apart from an integer.

Settings come in layers, and a later layer is merged into an earlier one:
where both hold an object the two are merged field by field, and everywhere
else the later layer wins.

## Main definitions

* `Json`: A value.
* `Json.Fields.get?`, `Json.Fields.put`: The fields of an object.
* `Json.at?`: The value reached by a path of keys.
* `Json.merge`, `Json.Fields.merge`: A later layer over an earlier one.
* `Json.isTruthy`: Whether a value counts as a yes.
-/

namespace RouteScaffold

/-- A JSON value. -/
inductive Json where
  | null
  | bool (b : Bool)
  | int (n : Int)
  /-- A number with a fraction or an exponent. -/
  | decimal (x : Binary64)
  | text (t : Text)
  | list (items : List Json)
  | record (fields : List (Text × Json))
  deriving Inhabited, Repr

namespace Json

/-- The fields of an object, in order of first arrival. -/
abbrev Fields := List (Text × Json)

namespace Fields

/-- The value of a field. -/
def get? (key : Text) : Fields → Option Json
  | [] => none
  | (k, v) :: rest => if k = key then some v else get? key rest

/-- Sets a field. One that is there already keeps its place. -/
def put (key : Text) (value : Json) : Fields → Fields
  | [] => [(key, value)]
  | (k, v) :: rest => if k = key then (k, value) :: rest else (k, v) :: put key value rest

end Fields

/-- The value reached by a path of keys. -/
def at? : List Text → Json → Option Json
  | [], v => some v
  | key :: path, record fields =>
    match Fields.get? key fields with
    | some v => at? path v
    | none => none
  | _ :: _, _ => none

mutual

/-- A value over the one it meets in an earlier layer, if there is one. -/
def mergeOver (earlier : Option Json) : Json → Json
  | record fields =>
    match earlier with
    | some (record base) => record (mergeFields base fields)
    | _ => record fields
  | v => v

/-- Fields over those of an earlier layer. -/
def mergeFields (base : Fields) : Fields → Fields
  | [] => base
  | (key, v) :: rest =>
    mergeFields (Fields.put key (mergeOver (Fields.get? key base) v) base) rest

end

/-- A later value over an earlier one. -/
def merge (earlier later : Json) : Json := mergeOver (some earlier) later

/-- Whether a value counts as a yes: everything does except null, false, zero
    and what is empty. -/
def isTruthy : Json → Bool
  | null => false
  | bool b => b
  | int n => n ≠ 0
  | decimal x => !x.isZero
  | text t => !t.isEmpty
  | list items => !items.isEmpty
  | record fields => !fields.isEmpty

end Json

end RouteScaffold
