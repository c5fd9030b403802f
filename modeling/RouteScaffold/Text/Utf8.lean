import RouteScaffold.Text.Basic

/-!
# Reading UTF-8

Files hold bytes, and most hold text. This module reads bytes as UTF-8, the
shortest forms only and no surrogates, and says at which byte and why a
reading fails. A faulty sequence reaches as far as its bytes were still the
beginning of a character, so its size says how much was understood.

## Main definitions

* `Utf8.decode`: The text that bytes spell, or the first fault.
* `Utf8.Fault`: Where a reading fails, and why.
* `Utf8.Fault.message`: The fault in words.
* `Utf8.size`: How many bytes a text takes.
-/

namespace RouteScaffold

namespace Utf8

/-- Why bytes spell no character. -/
inductive Reason where
  | invalidStart
  | invalidContinuation
  | unexpectedEnd
  deriving DecidableEq, Repr

/-- The wording of a reason. -/
def Reason.message : Reason → Text
  | .invalidStart => "invalid start byte"
  | .invalidContinuation => "invalid continuation byte"
  | .unexpectedEnd => "unexpected end of data"

/-- A sequence of bytes that is no character: its first byte, its offset,
    how many bytes it takes, and the reason. -/
structure Fault where
  byte : UInt8
  offset : Nat
  size : Nat
  reason : Reason
  deriving DecidableEq, Repr

/-- What the first byte of a sequence asks for: how many bytes follow, the
    bounds of the first of them, and the bits that the byte contributes. -/
structure Lead where
  following : Nat
  least : UInt8
  most : UInt8
  bits : Nat

/-- What a byte above ASCII asks for, if it can begin a sequence. -/
def lead? (b : UInt8) : Option Lead :=
  if b < 0xC2 then none
  else if b < 0xE0 then some ⟨1, 0x80, 0xBF, b.toNat - 0xC0⟩
  else if b < 0xF0 then
    some ⟨2, if b = 0xE0 then 0xA0 else 0x80, if b = 0xED then 0x9F else 0xBF, b.toNat - 0xE0⟩
  else if b < 0xF5 then
    some ⟨3, if b = 0xF0 then 0x90 else 0x80, if b = 0xF4 then 0x8F else 0xBF, b.toNat - 0xF0⟩
  else none

/-- Reads the bytes that follow a lead. A failure carries how many bytes of
    the sequence were good. -/
def follow (least most : UInt8) : (missing good value : Nat) → List UInt8 →
    Except (Nat × Reason) Nat
  | 0, _, value, _ => .ok value
  | _ + 1, good, _, [] => .error (good, .unexpectedEnd)
  | missing + 1, good, value, b :: rest =>
    if least ≤ b && b ≤ most then
      follow 0x80 0xBF missing (good + 1) (value * 64 + (b.toNat - 0x80)) rest
    else .error (good, .invalidContinuation)

/-- Reads bytes from an offset on, passing over those that the last
    character still covers. -/
def decodeFrom : (offset covered : Nat) → List UInt8 → Except Fault Text
  | _, _, [] => .ok []
  | offset, covered + 1, _ :: rest => decodeFrom (offset + 1) covered rest
  | offset, 0, b :: rest =>
    if b < 0x80 then return Char.ofNat b.toNat :: (← decodeFrom (offset + 1) 0 rest)
    else match lead? b with
      | none => .error ⟨b, offset, 1, .invalidStart⟩
      | some l =>
        match follow l.least l.most l.following 1 l.bits rest with
        | .error (good, reason) => .error ⟨b, offset, good, reason⟩
        | .ok value => return Char.ofNat value :: (← decodeFrom (offset + 1) l.following rest)

/-- The text that bytes spell. -/
def decode (bytes : List UInt8) : Except Fault Text := decodeFrom 0 0 bytes

/-- How many bytes a text takes. -/
def size : Text → Nat
  | [] => 0
  | c :: t => c.utf8Size + size t

/-- The lower-case hexadecimal digits of a number, at least as many as
    asked for. -/
def hex (width n : Nat) : Text :=
  let digits := Nat.toDigits 16 n
  List.replicate (width - digits.length) '0' ++ digits

/-- A fault in words: the byte or the offsets of the bytes, and the
    reason. -/
def Fault.message (f : Fault) : Text :=
  let place : Text :=
    if f.size = 1 then
      "byte 0x" ++ hex 2 f.byte.toNat ++ " in position " ++ Text.ofNat f.offset
    else
      "bytes in position " ++ Text.ofNat f.offset ++ "-" ++ Text.ofNat (f.offset + f.size - 1)
  "'utf-8' codec can't decode " ++ place ++ ": " ++ f.reason.message

end Utf8

end RouteScaffold
