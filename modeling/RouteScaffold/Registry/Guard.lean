import RouteScaffold.Edit.Basic

/-!
# Guards

Before something is added to a file, the file has to hold the anchors at which
it is added, and it must not use the identifiers that are to be added: what is
removed later is found by its identifier alone.

## Main definitions

* `Guard`: The anchors and the identifiers, for one file.
* `Guard.uses`: Whether a text uses an identifier.
* `Guard.admits`, `Guard.check`: A guard applied to a text and to its file.
-/

namespace RouteScaffold

/-- What a file has to hold, and what it must not hold, before something is
    added to it. -/
structure Guard where
  file : Path
  anchors : List Anchor
  identifiers : List Text
  deriving DecidableEq, Repr

namespace Guard

/-- Whether an identifier is used in a text. One made of word characters counts
    only as a whole word. -/
def uses (content identifier : Text) : Bool :=
  if !identifier.isEmpty && identifier.all isWord then Text.mentions identifier content
  else Text.occurs identifier content

/-- The first anchor that a text lacks is a fault. -/
def requireAnchors (file content : Text) : List Anchor → Except Fault Unit
  | [] => .ok ()
  | a :: rest =>
    if (a.locate? content).isSome then requireAnchors file content rest
    else .error (.anchorNotFound file a.label)

/-- The first identifier that a text uses is a fault. -/
def requireUnused (file content : Text) : List Text → Except Fault Unit
  | [] => .ok ()
  | identifier :: rest =>
    if uses content identifier then .error (.identifierTaken identifier file)
    else requireUnused file content rest

/-- A guard applied to the text of its file. -/
def admits (g : Guard) (content : Text) : Except Fault Unit := do
  requireAnchors g.file.text content g.anchors
  requireUnused g.file.text content g.identifiers

/-- A guard applied to its file. -/
def check (g : Guard) : Job Unit := do
  Job.ofExcept (g.admits (← Job.readSource g.file))

end Guard

end RouteScaffold
