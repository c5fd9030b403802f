import RouteScaffold.CommandLine.Options
import RouteScaffold.Naming

/-!
# Verbs

The first operand of the program says what is to be done. Every kind of
artifact has a verb that makes one and a verb that removes one, the latter
written with a hyphen or with a colon. Each verb understands options of its
own, and takes a number of names.

## Main definitions

* `Verb`: What can be asked for.
* `Verb.ofName?`: The verb with a name.
* `Verb.switches`, `Verb.arity`: Its options, and how many names it takes.
-/

namespace RouteScaffold

namespace CommandLine

/-- What can be asked for. -/
inductive Verb where
  | init
  | create (kind : Kind)
  | delete (kind : Kind)
  | recover
  deriving DecidableEq, Repr

/-- The options of the program and of its verbs. -/
inductive Choice where
  | help
  | root
  | verbose
  | dialect
  | list
  | discard
  deriving DecidableEq, Repr

namespace Verb

/-- Every verb. -/
def all : List Verb := [init] ++ Kind.all.map create ++ Kind.all.map delete ++ [recover]

/-- The names of a verb, the usual one first. -/
def names : Verb → List Text
  | init => ["init"]
  | create kind => [kind.name]
  | delete kind => ["delete-" ++ kind.name, "delete:" ++ kind.name]
  | recover => ["recover"]

/-- The verb with a name. -/
def ofName? (t : Text) : Option Verb := all.find? fun v => t ∈ v.names

/-- How many names a verb takes at most. -/
def arity : Verb → Nat
  | init => 0
  | recover => 1
  | create kind | delete kind =>
    match kind with
    | .package _ | .role => 1
    | .module => 2
    | .page => 3

/-- Whether a verb is for the very situation in which commands are pending, or
    comes before any could be. -/
def ignoresPending (v : Verb) : Bool := v = init || v = recover

end Verb

/-- The option that asks for help. -/
def helpSwitch : Switch Choice := ⟨.help, none, "help", false⟩

/-- The options before the verb. -/
def programSwitches : List (Switch Choice) :=
  [⟨.root, some 'C', "root", true⟩, ⟨.verbose, some 'v', "verbose", false⟩, helpSwitch]

/-- The options of a verb. -/
def Verb.switches : Verb → List (Switch Choice)
  | create .role => [⟨.dialect, some 'd', "dialect", true⟩, helpSwitch]
  | recover => [⟨.list, some 'l', "list", false⟩, ⟨.discard, none, "discard", false⟩, helpSwitch]
  | _ => [helpSwitch]

end CommandLine

end RouteScaffold
