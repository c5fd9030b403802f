import RouteScaffold.Text.Basic

/-!
# Registry Dialects

A role's route registry has one of two shapes. In the marker dialect it is a
tree of nested route elements, and comments mark where the next child goes; in
the flat dialect it is an exported array of route variables.

## Main definitions

* `Dialect`: The two shapes.
* `Dialect.name`: The name under which a dialect is recorded.
-/

namespace RouteScaffold

/-- The shape of a role's registry. -/
inductive Dialect where
  | marker
  | flat
  deriving DecidableEq, Repr

namespace Dialect

/-- The name under which a dialect is recorded. -/
def name : Dialect → Text
  | marker => "marker"
  | flat => "flat"

/-- The dialect recorded under a name. -/
def ofName? (t : Text) : Option Dialect := [marker, flat].find? fun d => d.name = t

end Dialect

end RouteScaffold
