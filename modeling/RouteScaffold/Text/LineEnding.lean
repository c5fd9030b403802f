import RouteScaffold.Text.Basic

/-!
# Line Endings

Edits work on texts whose lines end in a line feed. A file that holds a CR LF
pair anywhere is taken to use CR LF throughout and is written back that way;
any other file is written with line feeds, and a lone carriage return is an
ordinary character.

Documents that are read but never edited (settings, descriptors, intents) are
read with every ending turned into a line feed, the lone carriage return
included.

## Main definitions

* `LineEnding`: The two endings.
* `LineEnding.detect`: The ending a file is taken to use.
* `Text.toLf`: CR LF pairs turned into line feeds.
* `Text.withEnding`: A text written with one ending throughout.
* `Text.unifyEndings`: Every ending turned into a line feed.
-/

namespace RouteScaffold

/-- How the lines of a file end. -/
inductive LineEnding where
  | lf
  | crlf
  deriving DecidableEq, Repr

/-- The characters of an ending. -/
def LineEnding.text : LineEnding → Text
  | .lf => ['\n']
  | .crlf => ['\r', '\n']

namespace Text

/-- Whether a text holds a CR LF pair. -/
def hasCrlf : Text → Bool
  | '\r' :: '\n' :: _ => true
  | _ :: t => hasCrlf t
  | [] => false

/-- CR LF pairs turned into line feeds. -/
def toLf : Text → Text
  | '\r' :: '\n' :: t => '\n' :: toLf t
  | c :: t => c :: toLf t
  | [] => []

/-- Line feeds turned into CR LF pairs. -/
def toCrlf : Text → Text
  | '\n' :: t => '\r' :: '\n' :: toCrlf t
  | c :: t => c :: toCrlf t
  | [] => []

/-- A text with every line ending written one way. -/
def withEnding (t : Text) : LineEnding → Text
  | .lf => toLf t
  | .crlf => toCrlf (toLf t)

/-- CR LF pairs and lone carriage returns turned into line feeds. -/
def unifyEndings : Text → Text
  | '\r' :: '\n' :: t => '\n' :: unifyEndings t
  | '\r' :: t => '\n' :: unifyEndings t
  | c :: t => c :: unifyEndings t
  | [] => []

end Text

/-- A text that holds a CR LF pair uses CR LF, any other a line feed. -/
def LineEnding.detect (t : Text) : LineEnding := if t.hasCrlf then .crlf else .lf

end RouteScaffold
