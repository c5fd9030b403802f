import RouteScaffold.Text.Basic

/-!
# System Errors

What a file system refuses to do, each refusal with the words under which it is
known, and with a number. A path that holds a null character is refused before
the file system hears of it, and has no number.

## Main definitions

* `SystemError`: The refusals.
* `SystemError.number?`, `SystemError.description`: Their number and words.
-/

namespace RouteScaffold

/-- What the file system refuses to do. -/
inductive SystemError where
  /-- The path to be made exists. -/
  | alreadyExists
  /-- The path leads to nothing, or through nothing. -/
  | missing
  /-- The path leads through a file. -/
  | notDirectory
  /-- The path leads to a folder where a file is wanted. -/
  | isDirectory
  /-- The path names no place of its own. -/
  | busy
  /-- The path is the folder in which paths are walked. -/
  | invalid
  /-- The path, or a name in it, is longer than any may be. -/
  | nameTooLong
  /-- The path holds a null character. -/
  | nullCharacter
  deriving DecidableEq, Repr

namespace SystemError

/-- The number under which a refusal is known, if it has one. -/
def number? : SystemError → Option Nat
  | missing => some 2
  | busy => some 16
  | alreadyExists => some 17
  | notDirectory => some 20
  | isDirectory => some 21
  | invalid => some 22
  | nameTooLong => some 36
  | nullCharacter => none

/-- A refusal in words. -/
def description : SystemError → Text
  | missing => "No such file or directory"
  | busy => "Device or resource busy"
  | alreadyExists => "File exists"
  | notDirectory => "Not a directory"
  | isDirectory => "Is a directory"
  | invalid => "Invalid argument"
  | nameTooLong => "File name too long"
  | nullCharacter => "embedded null byte"

end SystemError

end RouteScaffold
