import RouteScaffold.Dialect
import RouteScaffold.Naming
import RouteScaffold.Template.Basic

/-!
# The Catalogue

Every source text that is ever generated. An artifact of a kind is a list of
files, each with a template for its path and one for its text; a file may
belong to one registry dialect only. Paths of packages are relative to the
folder of their kind, all others to the folder of their role.

Registries and barrels receive snippets, which are fragments without a final
line break: the edit that places one decides on the breaks around it.

## Main definitions

* `FileTemplate`, `Kind.files`: The files of an artifact.
* `Snippet`, `Snippet.template`: The fragments.
* `Kind.render`: The files of an artifact with all values written in.
* `Catalogue.render?`, `Catalogue.snippet?`: The same, for values that may be
  missing and for names that may be unknown.
-/

namespace RouteScaffold

/-- A file to be generated. -/
structure FileTemplate where
  path : Template
  body : Template
  /-- The one dialect that has this file; without one, all have it. -/
  dialect : Option Dialect

/-- Whether an artifact generated for a dialect has this file. -/
def FileTemplate.appliesTo (f : FileTemplate) (dialect : Option Dialect) : Bool :=
  f.dialect.isNone || f.dialect = dialect

/-- A named fragment of a registry or a barrel. -/
inductive Snippet where
  | indexExport
  | namedImport
  | moduleSentinel
  | moduleBlock
  | pageLeaf
  | flatEntry
  | flatPageEntry
  deriving DecidableEq, Repr

namespace Snippet

/-- Every snippet. -/
def all : List Snippet :=
  [indexExport, namedImport, moduleSentinel, moduleBlock, pageLeaf, flatEntry, flatPageEntry]

/-- The name of a snippet. -/
def name : Snippet → Text
  | indexExport => "index_export"
  | namedImport => "named_import"
  | moduleSentinel => "module_sentinel"
  | moduleBlock => "module_block"
  | pageLeaf => "page_leaf"
  | flatEntry => "flat_entry"
  | flatPageEntry => "flat_page_entry"

/-- The snippet with a given name. -/
def ofName? (t : Text) : Option Snippet := all.find? fun s => s.name = t

/-- The text of a snippet. -/
def template : Snippet → Template
  | indexExport => ["export * from \"./", .value .name, "\";"]
  | namedImport => ["import \x7b ", .value .name, " \x7d from \"", .value .source, "\";"]
  | moduleSentinel => ["\x7b/* PAGE_ROUTES_", .constant .segment, " */\x7d"]
  | moduleBlock =>
    ["<Route path=\"", .value .segment, "\" element=\x7b<", .value .name, " />\x7d>\n  ",
      .value .sentinel, "\n</Route>"]
  | pageLeaf =>
    ["<Route path=\"", .value .segment, "\" element=\x7b<", .value .name, " />\x7d />"]
  | flatEntry => [.value .routeSymbol, ","]
  | flatPageEntry =>
    ["\x7b path: \"", .value .segment, "\", element: <", .value .name, " /> \x7d,"]

end Snippet

namespace Catalogue

/-- A function that renders its own name. -/
def viewBody : Template :=
  ["export function ", .value .name, "() \x7b\n  return <div>", .value .name,
    "</div>;\n\x7d\n"]

/-- The barrel of a component's own folder. -/
def componentIndexBody : Template := ["export * from \"./", .value .name, "\";\n"]

/-- A hook with one piece of state. -/
def hookBody : Template :=
  ["import \x7b useState \x7d from \"react\";\n\nexport const ", .value .name,
    " = () => \x7b\n  const [value, setValue] = useState<unknown>(null);\n",
    "  return \x7b value, setValue \x7d;\n\x7d;\n"]

/-- An empty util function. -/
def utilBody : Template := ["export const ", .value .name, " = () => \x7b\x7d;\n"]

/-- An empty store. -/
def storeBody : Template :=
  ["export const ", .value .name, " = \x7b\n  state: \x7b\x7d,\n\x7d;\n"]

/-- A context without a value. -/
def contextBody : Template :=
  ["import \x7b createContext \x7d from \"react\";\n\nexport const ", .value .name,
    " = createContext<unknown>(null);\n"]

/-- An empty registry of the marker dialect. -/
def markerRegistryBody : Template :=
  ["import \x7b Route \x7d from \"react-router-dom\";\n\nexport default function ",
    .value .registrySymbol, "() \x7b\n  return (\n    <Route path=\"/", .value .path,
    "\">\n        ", .value .sentinel, "\n    </Route>\n  );\n\x7d\n"]

/-- An empty registry of the flat dialect. -/
def flatRegistryBody : Template :=
  ["import type \x7b RouteObject \x7d from \"react-router-dom\";\n\nexport const ",
    .value .registrySymbol, ": RouteObject[] = [\n];\n"]

/-- The layout component of a module. -/
def moduleBody : Template :=
  ["import \x7b Outlet \x7d from \"react-router-dom\";\n\nexport function ", .value .name,
    "() \x7b\n  return (\n    <div>\n      <h1>", .value .name,
    " Module</h1>\n      <Outlet />\n    </div>\n  );\n\x7d\n"]

/-- The route file of a module in the flat dialect. -/
def moduleRouteBody : Template :=
  ["import type \x7b RouteObject \x7d from \"react-router-dom\";\nimport \x7b ", .value .name,
    " \x7d from \"./", .value .name, "\";\n\nexport const ", .value .routeSymbol,
    ": RouteObject = \x7b\n  path: \"", .value .segment, "\",\n  element: <", .value .name,
    " />,\n  children: [\n  ],\n\x7d;\n"]

/-- The registry of a role, relative to the role's folder. -/
def registryPath : Template := ["routes/route.tsx"]

end Catalogue

open Catalogue in
/-- The files of an artifact, in the order in which they are written. -/
def Kind.files : Kind → List FileTemplate
  | .package .component =>
    [⟨[.value .name, "/", .value .name, ".tsx"], viewBody, none⟩,
      ⟨[.value .name, "/index.ts"], componentIndexBody, none⟩]
  | .package .hook => [⟨[.value .name, ".ts"], hookBody, none⟩]
  | .package .util => [⟨[.value .name, ".ts"], utilBody, none⟩]
  | .package .store => [⟨[.value .name, ".ts"], storeBody, none⟩]
  | .package .context => [⟨[.value .name, ".tsx"], contextBody, none⟩]
  | .package .partialView => [⟨[.value .name, ".tsx"], viewBody, none⟩]
  | .role =>
    [⟨registryPath, markerRegistryBody, some .marker⟩,
      ⟨registryPath, flatRegistryBody, some .flat⟩]
  | .module =>
    [⟨["modules/", .value .segment, "/", .value .name, ".tsx"], moduleBody, none⟩,
      ⟨["modules/", .value .segment, "/", .value .segment, ".route.tsx"], moduleRouteBody,
        some .flat⟩]
  | .page => [⟨["modules/", .value .segment, "/pages/", .value .name, ".tsx"], viewBody, none⟩]

/-- A generated file: its relative path and its text. -/
abbrev Rendering := List (Text × Text)

/-- Adds a file to a rendering. A path that is there already keeps its place
    and takes the new text. -/
def Rendering.put (path text : Text) : Rendering → Rendering
  | [] => [(path, text)]
  | (p, t) :: rest => if p = path then (p, text) :: rest else (p, t) :: put path text rest

/-- The files of an artifact, all slots having values. -/
def Kind.render (kind : Kind) (dialect : Option Dialect) (values : Slot → Text) : Rendering :=
  (kind.files.filter fun f => f.appliesTo dialect).foldl
    (fun done f => Rendering.put (f.path.fill values) (f.body.fill values) done) []

/-- The files of an artifact, or the first slot without a value; the path of a
    file comes before its text. -/
def Kind.render? (kind : Kind) (dialect : Option Dialect) (values : Slot → Option Text) :
    Except Fault Rendering :=
  (kind.files.filter fun f => f.appliesTo dialect).foldlM
    (fun done f => do
      let path ← f.path.fill? values
      let text ← f.body.fill? values
      return Rendering.put path text done) []

namespace Catalogue

/-- Values by label; a label that no slot has is of no consequence, unless it is
    reserved. -/
abbrev Context := List (Text × Text)

/-- The label of the wanted dialect, which is no slot. -/
def dialectLabel : Text := "dialect"

/-- The label of the catalogue itself, under which no value can be given. -/
def ownLabel : Text := "self"

/-- The labels of what an artifact is asked for by, under which no value can be
    given along with it. -/
def artifactLabels : List Text := ["kind", "canonical_name"]

/-- The value that a context gives a slot. -/
def Context.value? (context : Context) (slot : Slot) : Option Text := context.lookup slot.label

/-- Refuses a context that gives a value under a reserved label. -/
def Context.keepOff (context : Context) (reserved : List Text) : Except Fault Unit :=
  match context.find? fun v => reserved.contains v.1 with
  | some (label, _) => .error (.reservedLabel label)
  | none => .ok ()

/-- The files of an artifact whose kind and name are given as text. A context
    may replace the name, and says which dialect is wanted. -/
def render? (kind name : Text) (context : Context) : Except Fault Rendering := do
  context.keepOff (ownLabel :: artifactLabels)
  match Kind.ofName? kind with
  | none => .error (.unknownKind kind)
  | some k =>
    k.render? ((context.lookup dialectLabel).bind Dialect.ofName?)
      (Context.value? (context ++ [(Slot.label .name, name)]))

/-- A snippet whose name is given as text. -/
def snippet? (name : Text) (context : Context) : Except Fault Text :=
  match Snippet.ofName? name with
  | none => .error (.unknownSnippet name)
  | some s => do
    context.keepOff [ownLabel]
    s.template.fill? context.value?

end Catalogue

end RouteScaffold
