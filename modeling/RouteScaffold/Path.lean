import RouteScaffold.Text.Basic

/-!
# Paths

A path is what it says, not where it leads: an anchor, and names in order.
Empty names and single dots say nothing and are dropped when a path is read;
double dots are kept, since what they mean depends on the tree they are walked
in. A path that starts with exactly two slashes keeps both, any other number
of leading slashes counts as one.

A relative path is joined to another by going on from it. A path with an
anchor replaces what it is joined to.

## Main definitions

* `Path`: An anchor and names.
* `Path.ofText`, `Path.text`: Reading and printing.
* `Path.join`: One path going on from another, also written with a slash.
* `Path.relativeTo?`: What is left of a path below another.
* `Path.resolved`: A path without double dots, as far as its text says.
-/

namespace RouteScaffold

/-- Where a path starts. -/
inductive Path.Anchor where
  /-- Wherever the path is used. -/
  | here
  /-- At the root. -/
  | root
  /-- At the root, written with two slashes. -/
  | doubled
  deriving DecidableEq, Repr

/-- An anchor and names. -/
structure Path where
  anchor : Path.Anchor
  names : List Text
  deriving DecidableEq, Repr

namespace Path

/-- The slashes of an anchor. -/
def Anchor.text : Anchor → Text
  | here => []
  | root => ['/']
  | doubled => ['/', '/']

/-- The anchor that a text starts with. -/
def Anchor.ofText : Text → Anchor
  | '/' :: '/' :: '/' :: _ => root
  | '/' :: '/' :: _ => doubled
  | '/' :: _ => root
  | _ => here

/-- Whether a name says something about a path. -/
def counts (name : Text) : Bool := !name.isEmpty && name ≠ ['.']

/-- The path that a text says. -/
def ofText (t : Text) : Path := ⟨Anchor.ofText t, (Text.splitAt '/' t).filter counts⟩

/-- A path as text. One that says nothing is printed as a dot. -/
def text (p : Path) : Text :=
  match p.anchor.text ++ Text.join ['/'] p.names with
  | [] => ['.']
  | t => t

/-- One path going on from another. -/
def join (p q : Path) : Path :=
  match q.anchor with
  | .here => ⟨p.anchor, p.names ++ q.names⟩
  | _ => q

instance : HDiv Path Text Path := ⟨fun p t => p.join (ofText t)⟩

instance : HDiv Path String Path := ⟨fun p s => p.join (ofText s.toList)⟩

/-- The path without its last name. A path without names is its own
    parent. -/
def parent (p : Path) : Path := { p with names := p.names.dropLast }

/-- What is left of a path below another. -/
def relativeTo? (p base : Path) : Option Path :=
  if p.anchor = base.anchor then
    (base.names.isPrefixOf? p.names).map fun rest => ⟨.here, rest⟩
  else none

/-- Names without double dots: each removes the name before it, and at the
    start nothing. -/
def withoutDots (names : List Text) : List Text :=
  names.foldl (fun done name => if name = ['.', '.'] then done.dropLast else done ++ [name]) []

/-- A path from the root, without double dots, for a path used at another. -/
def resolved (p here : Path) : Path :=
  let whole := here.join p
  ⟨.root, withoutDots whole.names⟩

end Path

end RouteScaffold
