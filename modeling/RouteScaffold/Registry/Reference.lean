import RouteScaffold.Naming

/-!
# References to Routed Artifacts

What stands in a registry is named by references: a module by its role, a page
by its module, and each by the segment of its route and by the canonical name
of its component.

## Main definitions

* `ModuleRef`, `PageRef`: The references.
* `ModuleRef.routeSymbol`, `registrySymbol`: Variables of the generated
  sources.
* `exportAnchor`, `rootSentinel`: What every registry of the marker dialect
  holds.
-/

namespace RouteScaffold

/-- A module of a role: the segment of its route and its canonical name. -/
structure ModuleRef where
  role : Text
  segment : Text
  name : Text
  deriving DecidableEq, Repr

/-- The variable that holds a module's route in the flat dialect. -/
def ModuleRef.routeSymbol (m : ModuleRef) : Text := Naming.camel m.segment ++ "Route"

/-- A page of a module: the segment of its route and its canonical name. -/
structure PageRef where
  module : ModuleRef
  segment : Text
  name : Text
  deriving DecidableEq, Repr

/-- The symbol that a role's registry exports. -/
def registrySymbol (role : Text) : Text := role ++ "Routes"

/-- The text before which imports stand. -/
def exportAnchor : Text := "export default"

/-- The comment that marks the place of the next module. -/
def rootSentinel : Text := "\x7b/* MODULE_ROUTES */\x7d"

end RouteScaffold
