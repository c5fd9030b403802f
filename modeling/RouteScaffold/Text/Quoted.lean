import RouteScaffold.Text.CharRange
import RouteScaffold.Text.Utf8

/-!
# Quoted Text

Messages show paths and names between quotes. Single quotes are used unless
the text holds one and holds no double quote. The quote in use and the
backslash are escaped, and every character that does not print is written as
an escape of its code point.

## Main definitions

* `isPrintable`: Whether a character stands for itself between quotes.
* `Text.quoted`: A text between quotes.
-/

namespace RouteScaffold

/-- Controls, separators other than the space, zero-width and private
    characters. -/
def unprintableRanges : List CharRange :=
  [⟨0x00, 0x1F⟩, ⟨0x7F, 0xA0⟩, .single 0xAD, ⟨0x600, 0x605⟩, .single 0x1680, .single 0x180E,
    ⟨0x2000, 0x200F⟩, ⟨0x2028, 0x202F⟩, ⟨0x205F, 0x206F⟩, .single 0x3000, ⟨0xE000, 0xF8FF⟩,
    .single 0xFEFF, ⟨0xFFF0, 0xFFFB⟩, ⟨0xFFFE, 0xFFFF⟩, ⟨0xE0000, 0x10FFFF⟩]

/-- Whether a character stands for itself between quotes. -/
def isPrintable (c : Char) : Bool := !CharRange.covers unprintableRanges c

/-- How one character is written between quotes of the given kind. -/
def quotedChar (quote c : Char) : Text :=
  if c = quote || c = '\\' then ['\\', c]
  else if c = '\n' then "\\n"
  else if c = '\r' then "\\r"
  else if c = '\t' then "\\t"
  else if isPrintable c then [c]
  else if c.toNat < 0x100 then "\\x" ++ Utf8.hex 2 c.toNat
  else if c.toNat < 0x10000 then "\\u" ++ Utf8.hex 4 c.toNat
  else "\\U" ++ Utf8.hex 8 c.toNat

/-- A text between quotes. -/
def Text.quoted (t : Text) : Text :=
  let quote := if '\'' ∈ t ∧ '"' ∉ t then '"' else '\''
  [quote] ++ t.flatMap (quotedChar quote) ++ [quote]

example : Text.quoted ("it's" : Text) = ("\"it's\"" : Text) := by decide

end RouteScaffold
