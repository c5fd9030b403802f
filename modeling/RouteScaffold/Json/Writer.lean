import RouteScaffold.Json.Basic
import RouteScaffold.Number.Shortest
import RouteScaffold.Text.Quoted

/-!
# Writing JSON

Values are written in three layouts.

* A document is what is kept in a file: every item and every field on a line
  of its own, two spaces deeper than what holds it, and characters beyond
  ASCII as they are.
* A line is one line of ASCII, with a space behind every comma and colon.
* A shown value is what a message quotes: words for null and the truth values,
  and texts between quotes unless the value is nothing but a text.

## Main definitions

* `Json.document`: A value as a document.
* `Json.line`: A value as one line of ASCII.
* `Json.shown`: A value as a message quotes it.
-/

namespace RouteScaffold

namespace Json

/-- The letter that stands behind a backslash for a character, if there is
    one. -/
def escapeLetter? : Char → Option Char
  | '"' => some '"'
  | '\\' => some '\\'
  | '\n' => some 'n'
  | '\r' => some 'r'
  | '\t' => some 't'
  | '\x08' => some 'b'
  | '\x0c' => some 'f'
  | _ => none

/-- An escape of a 16-bit unit. -/
def unitEscape (n : Nat) : Text := '\\' :: 'u' :: Utf8.hex 4 n

/-- A character in a document: escaped only if it has to be. -/
def documentChar (c : Char) : Text :=
  match escapeLetter? c with
  | some letter => ['\\', letter]
  | none => if c.toNat < 0x20 then unitEscape c.toNat else [c]

/-- A character in a line of ASCII. -/
def lineChar (c : Char) : Text :=
  match escapeLetter? c with
  | some letter => ['\\', letter]
  | none =>
    let n := c.toNat
    if 0x20 ≤ n ∧ n < 0x7F then [c]
    else if n < 0x10000 then unitEscape n
    else unitEscape (0xD800 + (n - 0x10000) / 0x400) ++ unitEscape (0xDC00 + (n - 0x10000) % 0x400)

/-- A text between double quotes, its characters written one by one. -/
def enclosed (char : Char → Text) (t : Text) : Text := '"' :: t.flatMap char ++ ['"']

/-- A truth value in JSON. -/
def boolWord (b : Bool) : Text := if b then "true" else "false"

/-- A number with a fraction or an exponent in JSON. -/
def decimalText (x : Binary64) : Text := x.text "Infinity" "NaN"

/-! ### Documents -/

/-- The break before a line of a document. -/
def lineBreak (depth : Nat) : Text := '\n' :: List.replicate (2 * depth) ' '

mutual

/-- A value in a document, at a depth. -/
def writeAt (depth : Nat) : Json → Text
  | null => "null"
  | bool b => boolWord b
  | int n => Text.ofInt n
  | decimal x => decimalText x
  | text t => enclosed documentChar t
  | list [] => "[]"
  | list (v :: vs) =>
    '[' :: lineBreak (depth + 1) ++ writeAt (depth + 1) v ++ writeItems (depth + 1) vs
      ++ lineBreak depth ++ [']']
  | record [] => "\x7b\x7d"
  | record ((key, v) :: fields) =>
    '\x7b' :: lineBreak (depth + 1) ++ enclosed documentChar key ++ ": " ++ writeAt (depth + 1) v
      ++ writeFields (depth + 1) fields ++ lineBreak depth ++ ['\x7d']

/-- The further items of a list. -/
def writeItems (depth : Nat) : List Json → Text
  | [] => []
  | v :: vs => ',' :: lineBreak depth ++ writeAt depth v ++ writeItems depth vs

/-- The further fields of an object. -/
def writeFields (depth : Nat) : Fields → Text
  | [] => []
  | (key, v) :: fields =>
    ',' :: lineBreak depth ++ enclosed documentChar key ++ ": " ++ writeAt depth v
      ++ writeFields depth fields

end

/-- A value as a document. -/
def document (v : Json) : Text := writeAt 0 v

/-! ### Lines -/

mutual

/-- A value as one line of ASCII. -/
def line : Json → Text
  | null => "null"
  | bool b => boolWord b
  | int n => Text.ofInt n
  | decimal x => decimalText x
  | text t => enclosed lineChar t
  | list items => '[' :: Text.join ", " (lineItems items) ++ [']']
  | record fields => '\x7b' :: Text.join ", " (lineFields fields) ++ ['\x7d']

/-- The items of a list, each as one line of ASCII. -/
def lineItems : List Json → List Text
  | [] => []
  | v :: vs => line v :: lineItems vs

/-- The fields of an object, each as one line of ASCII. -/
def lineFields : Fields → List Text
  | [] => []
  | (key, v) :: fields => (enclosed lineChar key ++ ": " ++ line v) :: lineFields fields

end

/-! ### Messages -/

mutual

/-- A value inside another, as a message quotes it. -/
def shownInside : Json → Text
  | null => "None"
  | bool b => if b then "True" else "False"
  | int n => Text.ofInt n
  | decimal x => x.text "inf" "nan"
  | text t => Text.quoted t
  | list items => '[' :: Text.join ", " (shownItems items) ++ [']']
  | record fields => '\x7b' :: Text.join ", " (shownFields fields) ++ ['\x7d']

/-- The items of a list, as a message quotes them. -/
def shownItems : List Json → List Text
  | [] => []
  | v :: vs => shownInside v :: shownItems vs

/-- The fields of an object, as a message quotes them. -/
def shownFields : Fields → List Text
  | [] => []
  | (key, v) :: fields => (Text.quoted key ++ ": " ++ shownInside v) :: shownFields fields

end

/-- A value as a message quotes it. -/
def shown : Json → Text
  | text t => t
  | v => shownInside v

end Json

end RouteScaffold
