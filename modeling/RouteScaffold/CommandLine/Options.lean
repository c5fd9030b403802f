import RouteScaffold.Text.Quoted

/-!
# Options

The arguments of a command are options and operands. An option has a long name
after two hyphens, a short one after a single hyphen, or both. A value belongs
to an option behind an equals sign after its long name, directly behind its
short name, or as the next argument, whatever that looks like. Short options
may be run together behind one hyphen, up to the first that takes a value.

Two hyphens by themselves end the options; everything behind them is an
operand. A single hyphen is an operand too. Some readings end the options at
the first operand, others go on behind it.

## Main definitions

* `Switch`: An option that is understood.
* `Arguments`: What was found.
* `Arguments.read`: Reading arguments.
-/

namespace RouteScaffold

namespace CommandLine

/-- An option that is understood. -/
structure Switch (κ : Type) where
  key : κ
  short : Option Char
  long : Text
  takesValue : Bool

/-- What can be wrong with arguments. -/
inductive UsageError where
  | unknownOption (name : Text)
  | missingValue (name : Text)
  | unwantedValue (name : Text)
  | extraArgument (argument : Text)
  | notAFolder (path : Text)
  deriving DecidableEq, Repr

/-- What is wrong, in words. -/
def UsageError.message : UsageError → Text
  | unknownOption name => "No such option " ++ name.quoted ++ "."
  | missingValue name => "Option " ++ name.quoted ++ " requires an argument."
  | unwantedValue name => "Option " ++ name.quoted ++ " does not take a value."
  | extraArgument argument => "Got unexpected extra argument (" ++ argument ++ ")"
  | notAFolder path =>
    "Invalid value for '--root' / '-C': Directory " ++ path.quoted ++ " is a file."

/-- The options that were found, with their values, and the operands. -/
structure Arguments (κ : Type) where
  options : List (κ × Text)
  operands : List Text

/-- What one argument of options says: options that are complete, and possibly
    one that wants the next argument as its value. -/
structure Found (κ : Type) where
  complete : List (κ × Text)
  wanting : Option (κ × Text)

namespace Arguments

variable {κ : Type}

/-- The value of an option: the last one that was given. -/
def value? [DecidableEq κ] (a : Arguments κ) (key : κ) : Option Text :=
  (a.options.reverse.find? fun o => o.1 = key).map Prod.snd

/-- Whether an option was given. -/
def has [DecidableEq κ] (a : Arguments κ) (key : κ) : Bool := (a.value? key).isSome

/-- Arguments with more options before them. -/
def withOptions (a : Arguments κ) (options : List (κ × Text)) : Arguments κ :=
  { a with options := options ++ a.options }

/-- Arguments with an operand before them. -/
def withOperand (a : Arguments κ) (operand : Text) : Arguments κ :=
  { a with operands := operand :: a.operands }

/-- Whether an argument is made of options. -/
def isOption : Text → Bool
  | '-' :: _ :: _ => true
  | _ => false

/-- The parts of an argument around its first equals sign. -/
def aroundEquals (arg : Text) : Text × Option Text :=
  match arg.dropWhile (· ≠ '=') with
  | [] => (arg, none)
  | _ :: value => (arg.takeWhile (· ≠ '='), some value)

/-- Reads short options that are run together. -/
def readShort (known : List (Switch κ)) : Text → Except UsageError (Found κ)
  | [] => .ok ⟨[], none⟩
  | c :: rest =>
    match known.find? fun s => s.short = some c with
    | none => .error (.unknownOption ['-', c])
    | some s =>
      if s.takesValue then
        if rest.isEmpty then .ok ⟨[], some (s.key, ['-', c])⟩
        else .ok ⟨[(s.key, rest)], none⟩
      else do
        let found ← readShort known rest
        return { found with complete := (s.key, []) :: found.complete }

/-- Reads one argument that is made of options. -/
def readOption (known : List (Switch κ)) (arg : Text) : Except UsageError (Found κ) :=
  let (name, value) := aroundEquals arg
  match known.find? fun s => "--" ++ s.long = name with
  | some s =>
    match s.takesValue, value with
    | true, some v => .ok ⟨[(s.key, v)], none⟩
    | true, none => .ok ⟨[], some (s.key, name)⟩
    | false, some _ => .error (.unwantedValue name)
    | false, none => .ok ⟨[(s.key, [])], none⟩
  | none =>
    if Text.startsWith "--" arg then .error (.unknownOption name)
    else readShort known (arg.drop 1)

/-- Reads arguments. Unless operands may stand between options, the first one
    ends the options. -/
def read (known : List (Switch κ)) (mixed : Bool) : List Text → Except UsageError (Arguments κ)
  | [] => .ok ⟨[], []⟩
  | arg :: rest =>
    if arg = ['-', '-'] then .ok ⟨[], rest⟩
    else if isOption arg then do
      let found ← readOption known arg
      match found.wanting with
      | none => return (← read known mixed rest).withOptions found.complete
      | some (key, name) =>
        match rest with
        | value :: behind =>
          return (← read known mixed behind).withOptions (found.complete ++ [(key, value)])
        | [] => .error (.missingValue name)
    else if mixed then return (← read known mixed rest).withOperand arg
    else .ok ⟨[], arg :: rest⟩

end Arguments

end CommandLine

end RouteScaffold
