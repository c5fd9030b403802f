import RouteScaffold.Fault
import RouteScaffold.Route.Tag

/-!
# Route Forests

The route elements of a registry form a forest: each element reaches from its
opening tag to the closing tag that matches it, and holds the elements between
the two. A self-closing tag is an element without children.

Elements that are being read are kept on a stack, the innermost first, each
with the children found so far. An opening tag pushes, a closing tag moves the
innermost element to the children of the next.

## Main definitions

* `Route`: An element, with its place, its path and its children.
* `Route.forest`: The forest of a text, or what is wrong with its tags.
* `Route.module?`, `Route.child?`: An element by its path.
* `Route.cut`: A text without one of its elements.
* `Route.remove`: A text without the element of a module or a page.
-/

namespace RouteScaffold

/-- A route element. -/
structure Route where
  span : Span
  /-- The value of its path attribute. -/
  path : Option Text
  selfClosing : Bool
  children : List Route
  deriving Repr

namespace Route

/-- An element that is not closed yet, with its children so far, newest
    first. -/
structure Open where
  tag : OpeningTag
  children : List Route

/-- The element that an open one becomes when it is closed. -/
def Open.close (o : Open) (stop : Nat) : Route :=
  ⟨⟨o.tag.span.start, stop⟩, o.tag.path, false, o.children.reverse⟩

/-- Elements in the course of reading: the open ones, innermost first, and the
    finished ones that lie in none of them, newest first. -/
structure Reading where
  stack : List Open
  roots : List Route

/-- Adds a finished element to the innermost open one, or to the roots. -/
def Reading.add (r : Reading) (e : Route) : Reading :=
  match r.stack with
  | [] => { r with roots := e :: r.roots }
  | o :: stack => { r with stack := { o with children := e :: o.children } :: stack }

/-- Takes in one tag. -/
def Reading.step (r : Reading) : Tag → Except TagFault Reading
  | .opening tag =>
    if tag.selfClosing then .ok (r.add ⟨tag.span, tag.path, true, []⟩)
    else .ok { r with stack := ⟨tag, []⟩ :: r.stack }
  | .closing span =>
    match r.stack with
    | [] => .error .unbalanced
    | o :: stack => .ok (Reading.add { r with stack := stack } (o.close span.stop))

/-- The forest at the end of the tags, if nothing is left open. -/
def Reading.finish (r : Reading) : Except TagFault (List Route) :=
  match r.stack with
  | [] => .ok r.roots.reverse
  | o :: _ => .error (.unclosed o.tag.span.start)

/-- The forest of a text. Of several faults the one that comes first in the
    text is reported. -/
def scan (t : Text) : Except TagFault (List Route) := do
  let (tags, fault) := Tag.read t
  let reading ← tags.foldlM Reading.step ⟨[], []⟩
  match fault with
  | some f => .error f
  | none => reading.finish

/-- The forest of a file's text. -/
def forest (t file : Text) : Except Fault (List Route) :=
  match scan t with
  | .ok roots => .ok roots
  | .error f => .error (.anchorNotFound file f.label)

/-- The first child of an element with a given path. -/
def child? (e : Route) (path : Text) : Option Route :=
  e.children.find? fun c => c.path = some path

/-- The element of a module: a child of a root, with the module's path. -/
def module? (roots : List Route) (segment : Text) : Option Route :=
  roots.findSome? fun root => root.child? segment

/-- The element reached from the roots by the indices of children. -/
def at? : List Route → List Nat → Option Route
  | _, [] => none
  | es, [i] => es[i]?
  | es, i :: rest =>
    match es[i]? with
    | some e => at? e.children rest
    | none => none

/-- A text without one of its elements, and without the line break and the
    indentation behind it. -/
def cut (t : Text) (e : Route) : Text :=
  let rest := t.drop e.span.stop
  let kept :=
    match rest with
    | '\n' :: more => more.dropWhile isIndent
    | _ => rest
  t.take e.span.start ++ kept

/-- The element of a module or, within a module, of a page. -/
def find? (roots : List Route) (segment : Text) (within : Option Text) : Option Route :=
  match within with
  | none => module? roots segment
  | some module => (module? roots module).bind fun e => e.child? segment

/-- A text without the element of a module or of a page; a text that has no
    such element is left as it is. -/
def remove (t segment : Text) (within : Option Text) (file : Text) : Except Fault Text := do
  let roots ← forest t file
  match find? roots segment within with
  | some e => return cut t e
  | none => return t

end Route

end RouteScaffold
