import RouteScaffold.Text.Basic
import RouteScaffold.Text.CaseTable

/-!
# Upper and Lower Case

The full case mappings: one letter may become several (`ß` is `SS` in upper
case, `İ` is `i` and a dot above in lower case), and the lower case of a
capital sigma depends on its neighbours.

ASCII goes by itself; everything beyond it is looked up in tables. A character
that is in none of them is its own upper and lower case.

## Main definitions

* `upperOf`, `lowerOf`: The mappings of one character, sigma aside.
* `isCased`, `isTransparent`: What a sigma asks of its neighbours.
* `Text.upper`, `Text.lower`: The mappings of a text.
-/

namespace RouteScaffold

/-- The upper case of one character. -/
def upperOf (c : Char) : Text :=
  if c.toNat < 0x80 then [c.toUpper]
  else match singularUppers.lookup c.toNat with
  | some codes => codes.map Char.ofNat
  | none =>
    match caseRuns.find? fun r => r.hasSmall c.toNat with
    | some r => [Char.ofNat (r.capitalOf c.toNat)]
    | none => [c]

/-- The lower case of one character; a capital sigma is taken to stand
    inside a word. -/
def lowerOf (c : Char) : Text :=
  if c.toNat < 0x80 then [c.toLower]
  else match singularLowers.lookup c.toNat with
  | some codes => codes.map Char.ofNat
  | none =>
    match caseRuns.find? fun r => r.hasCapital c.toNat with
    | some r => [Char.ofNat (r.smallOf c.toNat)]
    | none => [c]

/-- Whether a character has a case: it is a capital or a small letter. -/
def isCased (c : Char) : Bool :=
  if c.toNat < 0x80 then c.isAlpha
  else upperOf c != [c] || lowerOf c != [c] || CharRange.covers caselessSmallRanges c

/-- Whether a character is passed over when a sigma looks for its
    neighbours. -/
def isTransparent (c : Char) : Bool :=
  if c.toNat < 0x80 then c.toNat ∈ [0x27, 0x2E, 0x3A, 0x5E, 0x60]
  else CharRange.covers transparentRanges c

namespace Text

/-- The upper case of a text. -/
def upper (t : Text) : Text := t.flatMap upperOf

/-- Whether the first character of a text that is not transparent is a
    letter with case. -/
def casedNext (t : Text) : Bool := (t.dropWhile isTransparent).head?.any isCased

/-- The lower case of a text, told whether a letter with case came last
    before it. -/
def lowerAfter : (cased : Bool) → Text → Text
  | _, [] => []
  | cased, c :: t =>
    let here :=
      if c = 'Σ' then (if cased && !casedNext t then ['ς'] else ['σ']) else lowerOf c
    here ++ lowerAfter (if isTransparent c then cased else isCased c) t

/-- The lower case of a text. A capital sigma becomes the final form when it
    ends a word, that is, when a letter comes before it and none after. -/
def lower (t : Text) : Text := lowerAfter false t

end Text

example : Text.upper ("ß" : Text) = ("SS" : Text) := by decide +kernel
example : Text.lower ("ΑΣ" : Text) = ("ας" : Text) := by decide +kernel

end RouteScaffold
