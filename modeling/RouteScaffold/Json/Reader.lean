import RouteScaffold.Json.Basic
import RouteScaffold.Text.Utf8

/-!
# Reading JSON

A document is one value with blanks around it. Reading works on what remains
of the document: every reader takes the rest of the text and answers with what
it read and what is left. A fault keeps the text that remained at the faulty
place, from which line and column follow.

The grammar is the usual one, with the three words for numbers that are none
(`NaN`, `Infinity`, `-Infinity`). A number ends where no longer one can be
read, so what follows it is judged by the reader around it. In a text, a high
surrogate joins the low one that follows it.

Some of what the grammar allows is refused for its size: lists and objects
that are nested too deep, and numbers with too many digits. How deep is too
deep is for the caller to say. The caller also says whether a document is read
strictly. A surrogate that stands alone is an error in a strict reading. In any
other it is kept, though no text can hold it: its escape stands for it, behind
a null character. Neither can be in a path, so a text with either names none.

Readers of values call each other as deep as a document is nested, and are
given as many steps as twice the length of the document, which they cannot
use up: between two calls without a character read there is always one with.

## Main definitions

* `Json.Rules`: What a reading allows.
* `Json.ReadFault`: What is wrong, and where.
* `Json.read`: The value of a document.
* `Json.readRecord?`: The value of a document that keeps a record.
* `Json.ReadFault.message`: The fault with its line, column and offset.
-/

namespace RouteScaffold

namespace Json

/-- What a reading allows. -/
structure Rules where
  /-- How deep lists and objects may stand in each other. Empty ones do not
      count. -/
  depth : Nat
  /-- Whether surrogates that stand alone are refused, and all numbers are
      measured instead of the integers only. -/
  strict : Bool
  deriving DecidableEq, Repr

/-- What can be wrong with a document. -/
inductive Flaw where
  | noValue
  | noKey
  | noColon
  | noComma
  | extraData
  | unterminated
  | badEscape
  | badCodeEscape
  | controlCharacter
  | byteOrderMark
  | loneSurrogate
  | tooManyDigits
  | tooDeep
  deriving DecidableEq, Repr

/-- A flaw in words. -/
def Flaw.message : Flaw → Text
  | noValue => "Expecting value"
  | noKey => "Expecting property name enclosed in double quotes"
  | noColon => "Expecting ':' delimiter"
  | noComma => "Expecting ',' delimiter"
  | extraData => "Extra data"
  | unterminated => "Unterminated string starting at"
  | badEscape => "Invalid \\escape"
  | badCodeEscape => "Invalid \\uXXXX escape"
  | controlCharacter => "Invalid control character at"
  | byteOrderMark => "Unexpected UTF-8 BOM (decode using utf-8-sig)"
  | loneSurrogate => "Surrogate without its other half at"
  | tooManyDigits => "Number with too many digits"
  | tooDeep => "Nested too deep"

/-- A flaw, and the text that remained at its place. -/
structure ReadFault where
  flaw : Flaw
  rest : Text
  deriving DecidableEq, Repr

/-- Fails at a place. -/
def fail (flaw : Flaw) (rest : Text) : Except ReadFault α := .error ⟨flaw, rest⟩

/-- Whether a character may stand between the parts of a document. -/
def isGap (c : Char) : Bool := c = ' ' || c = '\t' || c = '\n' || c = '\r'

/-- What remains behind a gap. -/
def skipGap (t : Text) : Text := t.dropWhile isGap

/-! ### Texts -/

/-- The character that a letter behind a backslash stands for. -/
def plainEscape? : Char → Option Char
  | '"' => some '"'
  | '\\' => some '\\'
  | '/' => some '/'
  | 'b' => some '\x08'
  | 'f' => some '\x0c'
  | 'n' => some '\n'
  | 'r' => some '\r'
  | 't' => some '\t'
  | _ => none

/-- The value of a hexadecimal digit. -/
def hexDigit? (c : Char) : Option Nat :=
  if c.isDigit then some (c.toNat - '0'.toNat)
  else if 'a' ≤ c ∧ c ≤ 'f' then some (c.toNat - 'a'.toNat + 10)
  else if 'A' ≤ c ∧ c ≤ 'F' then some (c.toNat - 'A'.toNat + 10)
  else none

/-- The unit that four hexadecimal digits spell. -/
def unit? : Text → Option Nat
  | a :: b :: c :: d :: _ => do
    return (((← hexDigit? a) * 16 + (← hexDigit? b)) * 16 + (← hexDigit? c)) * 16 + (← hexDigit? d)
  | _ => none

/-- Whether a unit is the first of a pair. -/
def isHighSurrogate (n : Nat) : Bool := 0xD800 ≤ n && n < 0xDC00

/-- Whether a unit is the second of a pair. -/
def isLowSurrogate (n : Nat) : Bool := 0xDC00 ≤ n && n < 0xE000

/-- The character of a pair of units. -/
def pairedUnits (high low : Nat) : Char :=
  Char.ofNat (0x10000 + (high - 0xD800) * 0x400 + (low - 0xDC00))

/-- What a text keeps of a surrogate that stands alone. -/
def keptUnit (n : Nat) : Text := '\x00' :: '\\' :: 'u' :: Utf8.hex 4 n

/-- The character of a unit that stands alone, and how many characters its
    escape takes behind the backslash, where `whole` remains. -/
def loneUnit (strict : Bool) (whole : Text) (n : Nat) : Except ReadFault (Text × Nat) :=
  if isHighSurrogate n || isLowSurrogate n then
    if strict then fail .loneSurrogate ('\\' :: whole) else .ok (keptUnit n, 5)
  else .ok ([Char.ofNat n], 5)

/-- What an escape stands for, and how many characters it takes behind the
    backslash, where `whole` remains. The digits of a unit count only if the
    text goes on behind them. -/
def escape? (strict : Bool) (whole : Text) : Except ReadFault (Text × Nat) :=
  match whole with
  | 'u' :: t =>
    if t.length ≤ 4 then fail .badCodeEscape whole
    else match unit? t with
      | none => fail .badCodeEscape whole
      | some n =>
        match isHighSurrogate n, t.drop 4 with
        | true, '\\' :: 'u' :: s =>
          if s.length ≤ 4 then loneUnit strict whole n
          else match unit? s with
            | none => fail .badCodeEscape ('u' :: s)
            | some m =>
              if isLowSurrogate m then .ok ([pairedUnits n m], 11) else loneUnit strict whole n
        | _, _ => loneUnit strict whole n
  | c :: _ =>
    match plainEscape? c with
    | some d => .ok ([d], 1)
    | none => fail .badEscape ('\\' :: whole)
  | [] => fail .badEscape ['\\']

/-- Reads the characters of a text up to its closing quote, passing over those
    that the last escape still covers. `opening` is what remained at the
    opening quote. -/
def readChars (strict : Bool) (opening : Text) :
    (covered : Nat) → Text → Except ReadFault (Text × Text)
  | _, [] => fail .unterminated opening
  | covered + 1, _ :: t => readChars strict opening covered t
  | 0, c :: t =>
    if c = '"' then .ok ([], t)
    else if c = '\\' then
      if t.isEmpty then fail .unterminated opening
      else do
        let (piece, size) ← escape? strict t
        let (rest, after) ← readChars strict opening size t
        return (piece ++ rest, after)
    else if c.toNat < 0x20 then fail .controlCharacter (c :: t)
    else do
      let (rest, after) ← readChars strict opening 0 t
      return (c :: rest, after)

/-! ### Numbers and words -/

/-- The digits at the start of a text, and what follows them. -/
def digits (t : Text) : Text × Text := (t.takeWhile Char.isDigit, t.dropWhile Char.isDigit)

/-- The whole part of a number: zero, or digits that do not start with a
    zero. -/
def wholePart? (t : Text) : Option (Text × Text) :=
  match t with
  | '0' :: rest => some (['0'], rest)
  | _ =>
    match digits t with
    | ([], _) => none
    | parts => some parts

/-- The digits of the fraction at the start of a text, if there is one. -/
def fraction (t : Text) : Text × Text :=
  match t with
  | '.' :: rest =>
    match digits rest with
    | ([], _) => ([], t)
    | parts => parts
  | _ => ([], t)

/-- The number that digits spell. -/
def natOf (ds : Text) : Nat := ds.foldl (fun n c => n * 10 + (c.toNat - '0'.toNat)) 0

/-- Whether a text starts with a minus sign, and what follows the sign. -/
def minus (t : Text) : Bool × Text :=
  match t with
  | '-' :: rest => (true, rest)
  | _ => (false, t)

/-- What follows a plus sign at the start of a text. -/
def afterPlus (t : Text) : Text :=
  match t with
  | '+' :: rest => rest
  | _ => t

/-- A natural number, or its negative. -/
def signed (negative : Bool) (n : Nat) : Int := if negative then -n else n

/-- The exponent at the start of a text, if there is one. -/
def exponent (t : Text) : Option Int × Text :=
  match t with
  | c :: rest =>
    if c = 'e' || c = 'E' then
      let (negative, after) := minus rest
      match digits (if negative then after else afterPlus after) with
      | ([], _) => (none, t)
      | (ds, after) => (some (signed negative (natOf ds)), after)
    else (none, t)
  | [] => (none, t)

/-- A number as it is spelled. -/
structure Numeral where
  negative : Bool
  whole : Text
  fraction : Text
  exponent : Option Int
  deriving DecidableEq, Repr

/-- How many digits the whole part of a number may have. -/
def digitLimit : Nat := 4300

namespace Numeral

/-- Whether a number is an integer by its spelling. -/
def isInteger (n : Numeral) : Bool := n.fraction.isEmpty && n.exponent.isNone

/-- Whether a number has too many digits. A strict reading counts the sign of a
    number as one of them. -/
def isTooLong (strict : Bool) (n : Numeral) : Bool :=
  if strict then digitLimit < n.whole.length + (if n.negative then 1 else 0)
  else n.isInteger && digitLimit < n.whole.length

/-- The value of a number. -/
def value (n : Numeral) : Json :=
  if n.isInteger then int (signed n.negative (natOf n.whole))
  else
    decimal (.ofDecimal n.negative (natOf (n.whole ++ n.fraction))
      (n.exponent.getD 0 - n.fraction.length))

end Numeral

/-- The number at the start of a text. -/
def numeral? (t : Text) : Option (Numeral × Text) :=
  let (negative, unsigned) := minus t
  match wholePart? unsigned with
  | none => none
  | some (whole, rest) =>
    let (f, rest) := fraction rest
    let (e, rest) := exponent rest
    some (⟨negative, whole, f, e⟩, rest)

/-- The words that are values. -/
def words : List (Text × Json) :=
  [("null", null), ("true", bool true), ("false", bool false), ("NaN", decimal .undefined),
    ("Infinity", decimal (.infinite false)), ("-Infinity", decimal (.infinite true))]

/-- The word at the start of a text. -/
def word? (t : Text) : Option (Json × Text) :=
  words.findSome? fun (w, v) => (Text.after? w t).map fun rest => (v, rest)

/-- Reads a value that has no parts. -/
def readScalar (strict : Bool) (t : Text) : Except ReadFault (Json × Text) :=
  match word? t with
  | some r => .ok r
  | none =>
    match numeral? t with
    | some (n, rest) => if n.isTooLong strict then fail .tooManyDigits t else .ok (n.value, rest)
    | none => fail .noValue t

/-! ### Values -/

/-- Reads the key of a field. -/
def readKey (strict : Bool) (t : Text) : Except ReadFault (Text × Text) :=
  match t with
  | '"' :: rest => readChars strict t 0 rest
  | _ => fail .noKey t

/-- Reads the colon behind a key, with the gaps around it. -/
def readColon (t : Text) : Except ReadFault Text :=
  match skipGap t with
  | ':' :: rest => .ok (skipGap rest)
  | rest => fail .noColon rest

/-- The rules for what stands in a list or an object, unless it is nested too
    deep. -/
def Rules.inside (rules : Rules) (t : Text) : Except ReadFault Rules :=
  match rules.depth with
  | 0 => fail .tooDeep t
  | depth + 1 => .ok { rules with depth }

mutual

/-- Reads a value. -/
def readValue (rules : Rules) : (steps : Nat) → Text → Except ReadFault (Json × Text)
  | 0, t => fail .noValue t
  | steps + 1, t =>
    match t with
    | '"' :: rest => do
      let (s, after) ← readChars rules.strict t 0 rest
      return (text s, after)
    | '[' :: rest =>
      match skipGap rest with
      | ']' :: after => .ok (list [], after)
      | first => do
        let (items, after) ← readItems (← rules.inside t) steps first
        return (list items, after)
    | '\x7b' :: rest =>
      match skipGap rest with
      | '\x7d' :: after => .ok (record [], after)
      | first => do
        let (fields, after) ← readFields (← rules.inside t) steps [] first
        return (record fields, after)
    | _ => readScalar rules.strict t

/-- Reads at least one item of a list, up to its closing bracket. -/
def readItems (rules : Rules) : (steps : Nat) → Text → Except ReadFault (List Json × Text)
  | 0, t => fail .noValue t
  | steps + 1, t => do
    let (v, after) ← readValue rules steps t
    match skipGap after with
    | ']' :: rest => return ([v], rest)
    | ',' :: rest =>
      let (vs, rest) ← readItems rules steps (skipGap rest)
      return (v :: vs, rest)
    | rest => fail .noComma rest

/-- Reads at least one field of an object, up to its closing brace, after
    those read before. -/
def readFields (rules : Rules) :
    (steps : Nat) → (done : Fields) → Text → Except ReadFault (Fields × Text)
  | 0, _, t => fail .noKey t
  | steps + 1, done, t => do
    let (key, after) ← readKey rules.strict t
    let (v, after) ← readValue rules steps (← readColon after)
    let done := Fields.put key v done
    match skipGap after with
    | '\x7d' :: rest => return (done, rest)
    | ',' :: rest => readFields rules steps done (skipGap rest)
    | rest => fail .noComma rest

end

/-- The value of a document. -/
def read (rules : Rules) (t : Text) : Except ReadFault Json :=
  match t with
  | '\uFEFF' :: _ => fail .byteOrderMark t
  | _ => do
    let (v, after) ← readValue rules (2 * t.length + 2) (skipGap t)
    match skipGap after with
    | [] => return v
    | rest => fail .extraData rest

/-- The value of a document that keeps a record, which is read strictly. -/
def readRecord? (t : Text) : Option Json := (read ⟨200, true⟩ t).toOption

/-- A fault in words, with the line, the column and the offset of its place in
    the document. -/
def ReadFault.message (f : ReadFault) (document : Text) : Text :=
  let before := document.take (document.length - f.rest.length)
  let line := before.count '\n' + 1
  let column := (before.reverse.takeWhile (· ≠ '\n')).length + 1
  f.flaw.message ++ ": line " ++ Text.ofNat line ++ " column " ++ Text.ofNat column
    ++ " (char " ++ Text.ofNat before.length ++ ")"

end Json

end RouteScaffold
