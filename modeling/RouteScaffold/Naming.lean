import RouteScaffold.Fault
import RouteScaffold.Text.Blank
import RouteScaffold.Text.Case

/-!
# Names

A user types a raw name; the project knows an artifact by a canonical
identifier and, for modules and pages, by a path segment. Both are functions
of the raw name alone, so creating and deleting agree on them without any
record of what was typed.

Raw names are split into words at hyphens, underscores and blanks. A canonical
name joins the words in one of two capitalisations; a segment joins them in
lower case with hyphens. Hooks, utils and roles are taken as typed, and must
follow their convention.

## Main definitions

* `PackageKind`, `Kind`: The kinds of artifact.
* `Naming.pascal`, `Naming.camel`, `Naming.segment`: Words joined again.
* `Kind.canonical`: The canonical identifier of a raw name.
-/

namespace RouteScaffold

/-- The kinds of artifact that live in a packages folder and are exported
    from a barrel. -/
inductive PackageKind where
  | component
  | hook
  | util
  | store
  | context
  | partialView
  deriving DecidableEq, Repr

namespace PackageKind

/-- Every kind of package, in the order in which they are set up. -/
def all : List PackageKind := [component, hook, util, store, context, partialView]

/-- The name of a kind, which is also its verb. -/
def name : PackageKind → Text
  | component => "component"
  | hook => "hook"
  | util => "util"
  | store => "store"
  | context => "context"
  | partialView => "partial"

/-- The folder that holds the packages of a kind. -/
def folder : PackageKind → Text
  | component => "components"
  | hook => "hooks"
  | util => "utils"
  | store => "stores"
  | context => "context"
  | partialView => "partials"

/-- The kind with a given name. -/
def ofName? (t : Text) : Option PackageKind := all.find? fun k => k.name = t

end PackageKind

/-- The kinds of artifact. -/
inductive Kind where
  | package (kind : PackageKind)
  | role
  | module
  | page
  deriving DecidableEq, Repr

namespace Kind

/-- Every kind. -/
def all : List Kind := PackageKind.all.map package ++ [role, module, page]

/-- The name of a kind. -/
def name : Kind → Text
  | package kind => kind.name
  | role => "role"
  | module => "module"
  | page => "page"

/-- The kind with a given name. -/
def ofName? (t : Text) : Option Kind := all.find? fun k => k.name = t

end Kind

namespace Naming

/-- Whether a character separates the words of a raw name. -/
def isSeparator (c : Char) : Bool := c = '-' || c = '_' || isBlank c

/-- The words of a raw name. -/
def words (raw : Text) : List Text := Text.words isSeparator raw

/-- A word with its first character in upper case and the others in lower
    case. -/
def capitalized (word : Text) : Text := Text.upper (word.take 1) ++ Text.lower (word.drop 1)

/-- The words of a raw name, each capitalised and joined without a gap. -/
def pascal (raw : Text) : Text := (words raw).flatMap capitalized

/-- Like `pascal`, but the first word starts in lower case and is otherwise
    left as it is. -/
def camel (raw : Text) : Text :=
  match words raw with
  | [] => []
  | first :: rest => Text.lower (first.take 1) ++ first.drop 1 ++ rest.flatMap capitalized

/-- The words of a raw name in lower case, joined with hyphens. It names both
    the folder of a module and the path of a route. -/
def segment (raw : Text) : Text := Text.join ['-'] ((words raw).map Text.lower)

/-- A text without one line break at its end. Conventions on names tolerate
    one. -/
def withoutFinalBreak (t : Text) : Text :=
  if t.getLast? = some '\n' then t.dropLast else t

/-- Whether a text is one character of a first class, followed by characters
    of a second. -/
def isRun (first rest : Char → Bool) : Text → Bool
  | [] => false
  | c :: t => first c && t.all rest

/-- A hook name starts with `use` and a capital letter. -/
def isHookName (name : Text) : Bool :=
  match Text.after? "use" (withoutFinalBreak name) with
  | some t => isRun Char.isUpper Char.isAlphanum t
  | none => false

/-- A util name starts with a small letter and has a capital letter
    further on. -/
def isUtilName (name : Text) : Bool :=
  isRun Char.isLower Char.isAlphanum (withoutFinalBreak name) && (name.drop 1).any Char.isUpper

/-- A role name is letters, digits and underscores after a letter. -/
def isRoleName (name : Text) : Bool :=
  isRun Char.isAlpha (fun c => c.isAlphanum || c = '_') (withoutFinalBreak name)

/-- Whether a character may begin an identifier. -/
def beginsIdentifier (c : Char) : Bool := c.isAlpha || c = '_' || c = '$'

/-- Whether a character may stand inside an identifier. -/
def continuesIdentifier (c : Char) : Bool := c.isAlphanum || c = '_' || c = '$'

/-- Whether a name can be an identifier in the generated sources. -/
def isIdentifier (name : Text) : Bool :=
  isRun beginsIdentifier continuesIdentifier (withoutFinalBreak name)

/-- A hook name that follows the convention. -/
def hookName (name : Text) : Except Fault Text :=
  if isHookName name then .ok name else .error (.invalidHookName name)

/-- A util name that follows the convention. -/
def utilName (name : Text) : Except Fault Text :=
  if isUtilName name then .ok name else .error (.invalidUtilName name)

/-- A role name that follows the convention. -/
def roleName (name : Text) : Except Fault Text :=
  if isRoleName name then .ok name else .error (.invalidRoleName name)

/-- A name derived from a raw one, if it can be an identifier. -/
def identifier (kind : Kind) (raw name : Text) : Except Fault Text :=
  if isIdentifier name then .ok name else .error (.invalidName kind.name raw name)

/-- A raw name that is there and is not blank. -/
def present (kind : Text) (raw : Option Text) : Except Fault Text :=
  match raw with
  | some t => if t.isBlankLine then .error (.missingName kind) else .ok t
  | none => .error (.missingName kind)

end Naming

namespace Kind

open Naming

/-- The canonical identifier of a raw name that is not blank. -/
def canonicalOf (kind : Kind) (raw : Text) : Except Fault Text :=
  match kind with
  | package .hook => hookName raw
  | package .util => utilName raw
  | role => roleName raw
  | package .context => identifier kind raw (pascal raw ++ "Context")
  | package .store => identifier kind raw (camel raw ++ "Store")
  | package .component | package .partialView | module | page => identifier kind raw (pascal raw)

/-- The canonical identifier of a raw name. -/
def canonical (kind : Kind) (raw : Option Text) : Except Fault Text := do
  kind.canonicalOf (← present kind.name raw)

end Kind

/-- The canonical identifier of a raw name, the kind given by its name. An
    absent name is noticed before an unknown kind. -/
def Naming.canonicalNamed (kind : Text) (raw : Option Text) : Except Fault Text := do
  let raw ← Naming.present kind raw
  match Kind.ofName? kind with
  | some k => k.canonicalOf raw
  | none => .error (.unknownKind kind)

end RouteScaffold
