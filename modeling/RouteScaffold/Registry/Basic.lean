import RouteScaffold.Dialect
import RouteScaffold.Layout
import RouteScaffold.Registry.Fragment
import RouteScaffold.Registry.Guard
import RouteScaffold.Registry.Reference

/-!
# Registries

A registry is the source file in which a role's modules are routed. Each
artifact that is routed stands in it twice: imported, and used. In the marker
dialect, modules are nested elements of the registry and pages are elements
within them, and a comment marks the place of the next one. In the flat
dialect, modules are entries of an array, each with a route file of its own
that holds the array of its pages.

Adding and removing are revisions: lists of edits to one file. A guard says
what that file has to hold and must not hold before anything is added.

## Main definitions

* `Registry`: A role's registry, with its dialect.
* `Registry.moduleGuard`, `Registry.pageGuard`: What has to hold beforehand.
* `Registry.addModule`, `Registry.removeModule`, `Registry.addPage`,
  `Registry.removePage`: The revisions.
* `Registry.withdrawPage`: The removal of a page, where its file may be
  absent.
-/

namespace RouteScaffold

/-- Edits to one file. -/
structure Revision where
  file : Path
  edits : List Edit
  deriving DecidableEq, Repr

/-- Makes the edits of a revision. Answers whether any of them changed the
    file. -/
def Revision.make (r : Revision) : Job Bool := do
  let changes ← r.edits.mapM (Job.edit r.file)
  return changes.any id

/-- A role's registry, with its dialect and the files that are edited for
    it. -/
structure Registry where
  dialect : Dialect
  /-- The registry itself. -/
  file : Path
  /-- The folder of the role's modules. -/
  modules : Path
  deriving DecidableEq, Repr

namespace Registry

/-- The registry of a role, with a dialect. -/
def ofRole (l : Layout) (role : Text) (dialect : Dialect) : Except Fault Registry :=
  return ⟨dialect, ← l.registryFile role, (← l.roleFolder role) / "modules"⟩

/-- The source from which a registry imports a module's component. -/
def moduleSource (segment name : Text) : Text := "../modules/" ++ segment ++ "/" ++ name

/-- The source from which a registry imports a page. -/
def pageSource (segment name : Text) : Text := "../modules/" ++ segment ++ "/pages/" ++ name

/-- The source from which a registry imports a module's route. -/
def routeSource (segment : Text) : Text := "../modules/" ++ segment ++ "/" ++ segment ++ ".route"

/-- The source from which a route file imports a page. -/
def localPageSource (name : Text) : Text := "./pages/" ++ name

/-- The route file of a module, which the flat dialect has. -/
def routeFile (r : Registry) (m : ModuleRef) : Path :=
  r.modules / m.segment / (m.segment ++ ".route.tsx".toList)

/-- The file in which a page is routed. -/
def pageFile (r : Registry) (p : PageRef) : Path :=
  match r.dialect with
  | .marker => r.file
  | .flat => r.routeFile p.module

/-- What has to hold before a module is added. -/
def moduleGuard (r : Registry) (m : ModuleRef) : Guard :=
  match r.dialect with
  | .marker =>
    ⟨r.file, [.literal exportAnchor, .literal rootSentinel],
      [m.name, Snippet.sentinelOf m.segment]⟩
  | .flat => ⟨r.file, [.arrayHead (registrySymbol m.role)], [m.routeSymbol]⟩

/-- The edits that add a module. -/
def addModule (r : Registry) (m : ModuleRef) : Revision :=
  match r.dialect with
  | .marker =>
    ⟨r.file,
      [.before (.literal exportAnchor)
          (Snippet.importLine m.name (moduleSource m.segment m.name)),
        .before (.literal rootSentinel) (Snippet.moduleElement m.segment m.name)]⟩
  | .flat =>
    ⟨r.file,
      [.atHead (Snippet.importLine m.routeSymbol (routeSource m.segment)),
        .behind (.arrayHead (registrySymbol m.role)) (Snippet.moduleEntry m.routeSymbol)]⟩

/-- The edits that remove a module. In the marker dialect the imports of its
    pages go with it. -/
def removeModule (r : Registry) (m : ModuleRef) : Revision :=
  match r.dialect with
  | .marker =>
    ⟨r.file,
      [.erase (.importOf m.name), .erase (.importFrom (pageSource m.segment [])),
        .cutRoute m.segment none]⟩
  | .flat => ⟨r.file, [.erase (.lineWith m.routeSymbol)]⟩

/-- What has to hold before a page is added. -/
def pageGuard (r : Registry) (p : PageRef) : Guard :=
  match r.dialect with
  | .marker =>
    ⟨r.file, [.literal exportAnchor, .literal (Snippet.sentinelOf p.module.segment)], [p.name]⟩
  | .flat => ⟨r.routeFile p.module, [.childrenHead], [p.name]⟩

/-- The edits that add a page. -/
def addPage (r : Registry) (p : PageRef) : Revision :=
  match r.dialect with
  | .marker =>
    ⟨r.file,
      [.before (.literal exportAnchor)
          (Snippet.importLine p.name (pageSource p.module.segment p.name)),
        .before (.literal (Snippet.sentinelOf p.module.segment))
          (Snippet.pageElement p.segment p.name)]⟩
  | .flat =>
    ⟨r.routeFile p.module,
      [.atHead (Snippet.importLine p.name (localPageSource p.name)),
        .behind .childrenHead (Snippet.pageEntry p.segment p.name)]⟩

/-- The edits that remove a page. -/
def removePage (r : Registry) (p : PageRef) : Revision :=
  match r.dialect with
  | .marker =>
    ⟨r.file, [.erase (.importOf p.name), .cutRoute p.segment (some p.module.segment)]⟩
  | .flat => ⟨r.routeFile p.module, [.erase (.lineWith p.name)]⟩

/-- Whether the file in which a page is routed may be absent when the page is
    removed. -/
def pageFileMayBeAbsent (r : Registry) : Bool := r.dialect = .flat

/-- Removes a page from the file in which it is routed. Answers whether the
    file changed; one that may be absent and is absent does not. -/
def withdrawPage (r : Registry) (p : PageRef) : Job Bool := do
  let revision := r.removePage p
  if r.pageFileMayBeAbsent && !(← Job.isThere revision.file) then return false
  revision.make

end Registry

end RouteScaffold
