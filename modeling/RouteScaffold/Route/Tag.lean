import RouteScaffold.Edit.Cursor
import RouteScaffold.Edit.Pattern

/-!
# Route Tags

The tags of route elements, as they follow one another in a registry. An
opening tag may carry expressions in braces and quoted values, and a `>`
inside either does not end it. A closing tag ends at the next `>`.

A tag is recognised by its name as a whole word, and reading goes on behind
the tag, so what stands inside a tag is never taken for another one.

The tags come with the fault, if any, at which reading stopped: the tags
before a fault are known, and whether they nest is a question about those.

## Main definitions

* `Tag`: An opening or a closing tag, with its place.
* `TagFault`: What is wrong with the tags of a text.
* `Tag.read`: The tags of a text.
-/

namespace RouteScaffold

/-- An opening tag. -/
structure OpeningTag where
  span : Span
  /-- The value of its path attribute. -/
  path : Option Text
  /-- Whether the tag is an element of its own, without a closing tag. -/
  selfClosing : Bool
  deriving DecidableEq, Repr

/-- A tag of a route element. -/
inductive Tag where
  | opening (tag : OpeningTag)
  | closing (span : Span)
  deriving DecidableEq, Repr

/-- What is wrong with the tags of a text. -/
inductive TagFault where
  /-- The opening tag whose name ends at this offset does not end. -/
  | unended (offset : Nat)
  /-- A closing tag does not end, or nothing is open for it to close. -/
  | unbalanced
  /-- The element that starts at this offset is not closed. -/
  | unclosed (offset : Nat)
  deriving DecidableEq, Repr

/-- What is missing from the text that has a fault. -/
def TagFault.label : TagFault → Text
  | unended offset => "end of <Route> tag at offset " ++ Text.ofNat offset
  | unbalanced => "balanced <Route> tags"
  | unclosed offset => "closing </Route> for block at offset " ++ Text.ofNat offset

namespace Tag

/-- How many characters an opening tag still has, its closing `>` included,
    given the quote that is open and the number of open braces. -/
def restLength? : Option Char → Int → Text → Option Nat
  | _, _, [] => none
  | some quote, depth, c :: t =>
    (restLength? (if c = quote then none else some quote) depth t).map (· + 1)
  | none, depth, c :: t =>
    if Pattern.isQuote c then (restLength? (some c) depth t).map (· + 1)
    else if c = '\x7b' then (restLength? none (depth + 1) t).map (· + 1)
    else if c = '\x7d' then (restLength? none (depth - 1) t).map (· + 1)
    else if c = '>' && depth = 0 then some 1
    else (restLength? none depth t).map (· + 1)

/-- The value of a path attribute that stands here, in double quotes. -/
def pathHere? (k : Cursor) : Option Text := do
  guard k.atWordBoundary
  let k ← k.literal? "path"
  let k ← (k.skipAll isBlank).literal? ['=']
  let k ← (k.skipAll isBlank).literal? ['"']
  guard ('"' ∈ k.after)
  return k.after.takeWhile (· ≠ '"')

/-- The value of the first path attribute from a place on. -/
def pathFrom? : Option Char → Text → Option Text
  | _, [] => none
  | before, c :: t =>
    match pathHere? ⟨before, c :: t⟩ with
    | some value => some value
    | none => pathFrom? (some c) t

/-- Whether an opening tag ends in a slash before its closing `>`. -/
def isSelfClosing (tag : Text) : Bool :=
  (Text.trimEnd isBlank (Text.trimEnd (· = '>') tag)).getLast? = some '/'

/-- The text of an opening tag up to the end of its name. -/
def openingHead : Text := "<Route"

/-- The text of a closing tag up to the end of its name. -/
def closingHead : Text := "</Route"

/-- What follows the head of a tag, if the tag's name ends there. -/
def afterHead? (head t : Text) : Option Text :=
  match Text.after? head t with
  | some rest => if rest.head?.any isWord then none else some rest
  | none => none

/-- The tags from an offset on, passing over the characters that the last tag
    covers. -/
def readFrom : (offset covered : Nat) → Text → List Tag × Option TagFault
  | _, _, [] => ([], none)
  | offset, covered + 1, _ :: t => readFrom (offset + 1) covered t
  | offset, 0, c :: t =>
    match afterHead? openingHead (c :: t) with
    | some rest =>
      match restLength? none 0 rest with
      | none => ([], some (.unended (offset + openingHead.length)))
      | some n =>
        let size := openingHead.length + n
        let text := (c :: t).take size
        let tag := .opening ⟨⟨offset, offset + size⟩, pathFrom? none text, isSelfClosing text⟩
        let (tags, fault) := readFrom (offset + 1) (size - 1) t
        (tag :: tags, fault)
    | none =>
      match afterHead? closingHead (c :: t) with
      | some rest =>
        if '>' ∈ rest then
          let size := closingHead.length + (rest.takeWhile (· ≠ '>')).length + 1
          let (tags, fault) := readFrom (offset + 1) (size - 1) t
          (.closing ⟨offset, offset + size⟩ :: tags, fault)
        else ([], some .unbalanced)
      | none => readFrom (offset + 1) 0 t

/-- The tags of a text, up to the first fault. -/
def read (t : Text) : List Tag × Option TagFault := readFrom 0 0 t

end Tag

end RouteScaffold
