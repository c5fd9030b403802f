import RouteScaffold.Edit.Cursor
import RouteScaffold.Text.Blank

/-!
# Patterns

The statements, lines and heads that edits look for in a source file. Each is
written in the usual notation of regular expressions, which messages show
(`Pattern.source`), and read by a recogniser (`Pattern.recognise`).

* An import of a symbol is an `import` statement that starts a line and
  mentions the symbol as a whole word before its semicolon; the blanks and the
  line break behind it belong to it.
* An import from a folder is one whose quoted source starts with a given
  text.
* A line with a word is a whole line that mentions the word.
* A barrel line exports everything from one file of the folder.
* An array head is an exported constant up to its opening bracket.
* A children head is the `children` key up to its opening bracket.
* A literal is itself.

A statement may run over several lines, but never over a semicolon.

## Main definitions

* `Pattern`: What can be looked for.
* `Pattern.source`: Its notation.
* `Pattern.recognise`: Its recogniser.
* `Pattern.erase`: A text without it.
-/

namespace RouteScaffold

/-- Something to look for in a source file. -/
inductive Pattern where
  /-- An import statement that mentions a symbol. -/
  | importOf (symbol : Text)
  /-- An import statement whose source starts with a text. -/
  | importFrom (folder : Text)
  /-- A whole line that mentions a word. -/
  | lineWith (word : Text)
  /-- A barrel line for a file. -/
  | barrelLine (name : Text)
  /-- The head of an exported array. -/
  | arrayHead (symbol : Text)
  /-- The head of an array of children. -/
  | childrenHead
  /-- A text itself. -/
  | literal (t : Text)
  deriving DecidableEq, Repr

namespace Pattern

/-- Characters that stand for something else in the notation of patterns,
    and the blanks among ASCII. -/
def isSpecial (c : Char) : Bool :=
  c ∈ ("\t\n\x0b\x0c\r #$&()*+-.?[\\]^\x7b|\x7d~" : String).toList

/-- A text in the notation of patterns, with a backslash before each special
    character. -/
def escape (t : Text) : Text :=
  t.flatMap fun c => if isSpecial c then ['\\', c] else [c]

/-- The notation of a pattern. -/
def source : Pattern → Text
  | importOf symbol => "^import\\s[^;]*?\\b" ++ escape symbol ++ "\\b[^;]*?;[ \\t]*\\n?"
  | importFrom folder =>
    "^import\\s[^;]*?\\bfrom\\s+[\\\"']" ++ escape folder ++ "[^\\\"']*[\\\"'];[ \\t]*\\n?"
  | lineWith word => "^[^\\n]*\\b" ++ escape word ++ "\\b[^\\n]*(?:\\n|$)"
  | barrelLine name => "^export \\* from \"\\./" ++ escape name ++ "\";[ \\t]*\\n?"
  | arrayHead symbol => "export\\s+const\\s+" ++ escape symbol ++ "\\b[^=\\n]*=\\s*\\["
  | childrenHead => "\\bchildren\\s*:\\s*\\["
  | literal t => escape t

/-- Whether a character opens or closes a quoted source. -/
def isQuote (c : Char) : Bool := c = '"' || c = '\''

/-- A word that stands here with a boundary on either side. -/
def wholeWord? (word : Text) (k : Cursor) : Option Cursor := do
  guard k.atWordBoundary
  let k ← k.literal? word
  guard k.atWordBoundary
  return k

/-- The blanks and the line break that belong to a statement. -/
def statementTail (k : Cursor) : Cursor := (k.skipAll isIndent).overBreak

/-- The rest of a statement, up to and past its semicolon. -/
def statementEnd? (k : Cursor) : Option Cursor :=
  (((k.skipAll (· ≠ ';')).literal? [';'])).map statementTail

/-- The word that begins an import, at the start of a line, and the blank
    behind it. -/
def importHead? (k : Cursor) : Option Cursor := do
  guard k.atLineStart
  let k ← k.literal? "import"
  k.one? isBlank

/-- The quoted source of an import, from its keyword to the end of the
    statement. -/
def importSource? (folder : Text) (k : Cursor) : Option Cursor := do
  guard k.atWordBoundary
  let k ← k.literal? "from"
  let k ← k.skipSome? isBlank
  let k ← k.one? isQuote
  let k ← k.literal? folder
  let k ← (k.skipAll (!isQuote ·)).one? isQuote
  let k ← k.literal? [';']
  return statementTail k

/-- The rest of an array's head, behind the symbol. -/
def arrayOpening? (symbol : Text) (k : Cursor) : Option Cursor := do
  let k ← k.literal? symbol
  guard k.atWordBoundary
  let k ← (k.skipAll fun c => c ≠ '=' && c ≠ '\n').literal? ['=']
  (k.skipAll isBlank).literal? ['[']

/-- The recogniser of a pattern. -/
def recognise : Pattern → Recogniser
  | importOf symbol, k => do
    let k ← importHead? k
    k.lazily (· ≠ ';') fun k => do statementEnd? (← wholeWord? symbol k)
  | importFrom folder, k => do
    let k ← importHead? k
    k.lazily (· ≠ ';') (importSource? folder)
  | lineWith word, k => do
    guard k.atLineStart
    k.greedily (· ≠ '\n') fun k => do
      let k ← wholeWord? word k
      return (k.skipAll (· ≠ '\n')).overBreak
  | barrelLine name, k => do
    guard k.atLineStart
    let k ← k.literal? "export * from \"./"
    let k ← k.literal? name
    let k ← k.literal? "\";"
    return statementTail k
  | arrayHead symbol, k => do
    let k ← k.literal? "export"
    let k ← k.skipSome? isBlank
    let k ← k.literal? "const"
    let k ← k.one? isBlank
    k.greedily isBlank (arrayOpening? symbol)
  | childrenHead, k => do
    guard k.atWordBoundary
    let k ← k.literal? "children"
    let k ← (k.skipAll isBlank).literal? [':']
    (k.skipAll isBlank).literal? ['[']
  | literal t, k => k.literal? t

/-- All places where a pattern stands. -/
def spans (p : Pattern) (t : Text) : List Span := Recogniser.spans p.recognise t

/-- A text without a pattern. -/
def erase (p : Pattern) (t : Text) : Text := Recogniser.erase p.recognise t

/-- Whether a pattern stands anywhere in a text. -/
def occursIn (p : Pattern) (t : Text) : Bool := (Recogniser.find? p.recognise t).isSome

end Pattern

/-- Whether a word stands in a text with a boundary on either side. -/
def Text.mentions (word t : Text) : Bool := (Recogniser.find? (Pattern.wholeWord? word) t).isSome

end RouteScaffold
