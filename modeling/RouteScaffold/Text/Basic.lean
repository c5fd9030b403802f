/-!
# Text

Everything this library reads, edits or prints is a list of characters. A
list is what the edits need: finding an anchor, splicing at it and filtering
lines are all recursions on the characters, and a statement about an edit is
then an induction on the text it edits.

Strings appear only as literals and at the outer edge of a program; a literal
is taken as a text wherever a text is expected.

## Main definitions

* `Text`: A list of characters.
* `Text.splitAt`: The pieces between the occurrences of one character.
* `Text.lines`: The pieces between line breaks.
* `Text.join`: Pieces put back together around a separator.
* `Text.trimBoth`: A text without its outer characters of one class.
* `Text.replaceAll`: Every occurrence of one text replaced, left to right.
-/

namespace RouteScaffold

/-- A text is the list of its characters. -/
abbrev Text := List Char

instance : Coe String Text := ⟨String.toList⟩

/-- A property of every character of a text is decided along the text. Its
    priority puts it before running over all characters there are. -/
instance (priority := 5000) Text.decidableForall {p : Char → Prop} [DecidablePred p]
    (t : Text) : Decidable (∀ c ∈ t, p c) :=
  List.decidableBAll p t

namespace Text

/-- The pieces between the occurrences of a character. There is always at
    least one piece, and one more piece than there are occurrences. -/
def splitAt (sep : Char) : Text → List Text
  | [] => [[]]
  | c :: t =>
    if c = sep then [] :: splitAt sep t
    else match splitAt sep t with
      | [] => [[c]]
      | piece :: pieces => (c :: piece) :: pieces

/-- The non-empty runs of characters outside a class of separators. -/
def words (isSeparator : Char → Bool) : Text → List Text
  | [] => []
  | c :: t =>
    if isSeparator c then words isSeparator t
    else match t with
      | [] => [[c]]
      | d :: _ =>
        if isSeparator d then [c] :: words isSeparator t
        else match words isSeparator t with
          | [] => [[c]]
          | word :: rest => (c :: word) :: rest

/-- The lines of a text, without their line breaks. A text that ends with a
    line break has an empty last line. -/
def lines (t : Text) : List Text := splitAt '\n' t

/-- Pieces put together around a separator. -/
def join (sep : Text) : List Text → Text
  | [] => []
  | [piece] => piece
  | piece :: pieces => piece ++ sep ++ join sep pieces

/-- A text without the characters of a class at its end. -/
def trimEnd (p : Char → Bool) (t : Text) : Text :=
  (t.reverse.dropWhile p).reverse

/-- A text without the characters of a class at either end. -/
def trimBoth (p : Char → Bool) (t : Text) : Text :=
  trimEnd p (t.dropWhile p)

/-- What follows a literal at the start of a text, if the text starts with
    it. -/
def after? : (literal t : Text) → Option Text
  | [], t => some t
  | _ :: _, [] => none
  | c :: l, d :: t => if c = d then after? l t else none

/-- Whether a text starts with a literal. -/
def startsWith (literal t : Text) : Bool := (after? literal t).isSome

/-- Whether a text ends with a literal. -/
def endsWith (literal t : Text) : Bool := startsWith literal.reverse t.reverse

/-- Whether a literal occurs anywhere in a text. -/
def occurs (literal : Text) : Text → Bool
  | [] => literal.isEmpty
  | c :: t => startsWith literal (c :: t) || occurs literal t

/-- Replaces occurrences from left to right, passing over the characters that
    the occurrence just replaced still covers. -/
def replaceFrom (old new : Text) : (covered : Nat) → Text → Text
  | _, [] => []
  | covered + 1, _ :: t => replaceFrom old new covered t
  | 0, c :: t =>
    if startsWith old (c :: t) then new ++ replaceFrom old new (old.length - 1) t
    else c :: replaceFrom old new 0 t

/-- Every occurrence of a text replaced by another, from left to right and
    without overlaps. An empty text occurs before every character and at the
    end. -/
def replaceAll (old new t : Text) : Text :=
  if old.isEmpty then new ++ t.flatMap (fun c => c :: new)
  else replaceFrom old new 0 t

/-- The decimal numeral of a natural number. -/
def ofNat (n : Nat) : Text := Nat.toDigits 10 n

/-- The decimal numeral of an integer. -/
def ofInt : Int → Text
  | .ofNat n => ofNat n
  | .negSucc n => '-' :: ofNat (n + 1)

end Text

end RouteScaffold
