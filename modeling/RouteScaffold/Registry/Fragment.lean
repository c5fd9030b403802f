import RouteScaffold.Template.Catalogue

/-!
# Fragments of Registries and Barrels

The snippets of the catalogue with the values that they are used with. A
fragment has no line break at its end, and a slot that a snippet does not have
needs no value.

## Main definitions

* `Snippet.importLine`, `Snippet.barrelEntry`: Imports and exports.
* `Snippet.sentinelOf`, `Snippet.moduleElement`, `Snippet.pageElement`: The
  marker dialect.
* `Snippet.moduleEntry`, `Snippet.pageEntry`: The flat dialect.
-/

namespace RouteScaffold

namespace Snippet

/-- A snippet with the values of its slots written in. -/
def render (s : Snippet) (values : Slot → Text) : Text := s.template.fill values

/-- The import of a name from a source. -/
def importLine (name source : Text) : Text :=
  namedImport.render fun
    | .name => name
    | .source => source
    | _ => []

/-- The comment that marks the place of a module's next page. -/
def sentinelOf (segment : Text) : Text :=
  moduleSentinel.render fun
    | .segment => segment
    | _ => []

/-- The element of a module. -/
def moduleElement (segment name : Text) : Text :=
  moduleBlock.render fun
    | .segment => segment
    | .name => name
    | .sentinel => sentinelOf segment
    | _ => []

/-- The element of a page. -/
def pageElement (segment name : Text) : Text :=
  pageLeaf.render fun
    | .segment => segment
    | .name => name
    | _ => []

/-- The entry of a module. -/
def moduleEntry (routeSymbol : Text) : Text :=
  flatEntry.render fun
    | .routeSymbol => routeSymbol
    | _ => []

/-- The entry of a page. -/
def pageEntry (segment name : Text) : Text :=
  flatPageEntry.render fun
    | .segment => segment
    | .name => name
    | _ => []

/-- The line of a barrel that exports a file. -/
def barrelEntry (name : Text) : Text :=
  indexExport.render fun
    | .name => name
    | _ => []

end Snippet

end RouteScaffold
