import RouteScaffold.Disk.SystemError
import RouteScaffold.Text.Quoted

/-!
# Faults

Every way in which a command can fail, by its cause. A fault carries what its
wording needs and nothing else; the wording is one function, `Fault.message`.

Faults come in two sorts. Those with a `Category` are the failures a user is
meant to see: a bad argument, something that exists already or does not exist,
a missing anchor, bad settings, an intent that cannot be recovered. The others
are what the machine below can do to a command: a file-system error, bytes
that are no text, a document of the wrong shape or size, a value of the wrong
type or under a label that is taken.

## Main definitions

* `Fault`: The causes.
* `Fault.category`: The sort of failure, if it is one a user is meant to see.
* `Fault.message`: The wording.
-/

namespace RouteScaffold

/-- The sorts of failure that a user is meant to see. -/
inductive Category where
  | argument
  | existing
  | notFound
  | anchor
  | config
  | recovery
  deriving DecidableEq, Repr

/-- The causes of failure. Paths are given as they are printed. -/
inductive Fault where
  /-- A name that is required is absent or blank. -/
  | missingName (kind : Text)
  /-- A hook name breaks the convention for hooks. -/
  | invalidHookName (name : Text)
  /-- A util name breaks the convention for utils. -/
  | invalidUtilName (name : Text)
  /-- A role name breaks the convention for roles. -/
  | invalidRoleName (name : Text)
  /-- A name does not normalize to an identifier. -/
  | invalidName (kind raw normalized : Text)
  /-- There are no artifacts of this kind. -/
  | unknownKind (kind : Text)
  /-- There are no packages of this kind. -/
  | unknownPackageKind (kind : Text)
  /-- The catalogue has no such snippet. -/
  | unknownSnippet (name : Text)
  /-- No registry has this dialect. -/
  | unknownDialect (dialect : Text)
  /-- A path that is to be created exists. -/
  | alreadyExists (path : Text)
  /-- An identifier occurs in the file that is to receive it. -/
  | identifierTaken (identifier file : Text)
  /-- The role to be created exists. -/
  | roleExists (role : Text)
  /-- The module to be created exists. -/
  | moduleExists (role segment : Text)
  /-- A path that must exist is absent. -/
  | notFound (path : Text)
  /-- The folder of a kind of package is absent. -/
  | packageFolderMissing (folder relative : Text)
  /-- The role does not exist. -/
  | roleNotFound (role : Text)
  /-- The module does not exist. -/
  | moduleNotFound (role segment : Text)
  /-- A file lacks the place at which it is to be changed. -/
  | anchorNotFound (file anchor : Text)
  /-- A settings file cannot be read. -/
  | settingsUnreadable (file cause : Text)
  /-- A settings file holds something other than an object. -/
  | settingsNotObject (file : Text)
  /-- The settings name a default dialect that does not exist. -/
  | invalidDefaultDialect (value : Text)
  /-- A role descriptor is no valid descriptor. -/
  | invalidDescriptor (file : Text)
  /-- No intent is pending under this identifier. -/
  | noPendingIntent (id : Text)
  /-- Commands of this verb cannot be resumed. -/
  | notResumable (verb : Text)
  /-- A template has a slot for which there is no value. -/
  | undefinedSlot (slot : Text)
  /-- A name is absent where only its text was expected. -/
  | absentName
  /-- A value has a type with which nothing can be done. -/
  | wrongType
  /-- A path is not below the folder it is to be shown against. -/
  | notBelow (path folder : Text)
  /-- A document does not have the required shape. -/
  | invalidDocument
  /-- The lists and objects of a document are nested too deep. -/
  | nestedTooDeep
  /-- A number in a document has too many digits. -/
  | numberTooLong
  /-- A value is given under a label that is not for values. -/
  | reservedLabel (label : Text)
  /-- A file's bytes are no text. -/
  | undecodable (fault : Utf8.Fault)
  /-- The file system refuses. -/
  | system (error : SystemError) (path : Text)
  deriving DecidableEq, Repr

namespace Fault

/-- What a hook name must look like. -/
def hookRules : Text :=
  "Hooks must:\n  • start with \"use\"\n  • be camelCase\n  • have a capital letter after \"use\"\n\nExamples:\n  useToast\n  useUserStore\n  useFetchData"

/-- What a util name must look like. -/
def utilRules : Text :=
  "Utils must:\n  • be camelCase\n  • start with a lowercase letter\n  • contain at least one uppercase letter after the first character\n\nExamples:\n  calculateTax\n  formatDate\n  parseJsonValue"

/-- The sort of failure, if it is one a user is meant to see. -/
def category : Fault → Option Category
  | missingName _ | invalidHookName _ | invalidUtilName _ | invalidRoleName _ | invalidName ..
  | unknownKind _ | unknownPackageKind _ | unknownSnippet _ | unknownDialect _ => some .argument
  | alreadyExists _ | identifierTaken .. | roleExists _ | moduleExists .. => some .existing
  | notFound _ | packageFolderMissing .. | roleNotFound _ | moduleNotFound .. => some .notFound
  | anchorNotFound .. => some .anchor
  | settingsUnreadable .. | settingsNotObject _ | invalidDefaultDialect _
  | invalidDescriptor _ => some .config
  | noPendingIntent _ | notResumable _ => some .recovery
  | undefinedSlot _ | absentName | wrongType | notBelow .. | invalidDocument | nestedTooDeep
  | numberTooLong | reservedLabel _ | undecodable _ | system .. => none

/-- What a failure of existence is about: a path, or the name under which a
    user knows the thing. -/
def target : Fault → Option Text
  | alreadyExists path | notFound path => some path
  | identifierTaken identifier _ => some identifier
  | roleExists role | roleNotFound role => some role
  | moduleExists role segment | moduleNotFound role segment => some (role ++ "/" ++ segment)
  | packageFolderMissing folder _ => some folder
  | _ => none

/-- A fault in words. -/
def message : Fault → Text
  | missingName kind => "Missing " ++ kind ++ " name"
  | invalidHookName name => "Invalid hook name \"" ++ name ++ "\"\n\n" ++ hookRules
  | invalidUtilName name => "Invalid util name \"" ++ name ++ "\"\n\n" ++ utilRules
  | invalidRoleName name =>
    "Invalid role name \"" ++ name
      ++ "\": use letters, digits and \"_\" and start with a letter"
  | invalidName kind raw normalized =>
    "Invalid " ++ kind ++ " name \"" ++ raw ++ "\" (normalizes to \"" ++ normalized ++ "\")"
  | unknownKind kind => "Unknown artifact kind: " ++ kind
  | unknownPackageKind kind => "Unknown package kind: " ++ kind
  | unknownSnippet name => "Unknown snippet: " ++ name
  | unknownDialect dialect =>
    "Unknown dialect '" ++ dialect ++ "' (expected one of: marker, flat)"
  | alreadyExists path => "Already exists → " ++ path
  | identifierTaken identifier file =>
    "Already exists → '" ++ identifier ++ "' is already used in " ++ file
  | roleExists role => "Role exists → " ++ role
  | moduleExists role segment => "Module exists → " ++ role ++ "/" ++ segment
  | notFound path => "Not found → " ++ path
  | packageFolderMissing _ relative => "Missing " ++ relative ++ " (run 'aviators init')"
  | roleNotFound role => "Role not found → " ++ role
  | moduleNotFound role segment => "Module not found → " ++ role ++ "/" ++ segment
  | anchorNotFound file anchor => "Marker not found in " ++ file ++ ": " ++ anchor
  | settingsUnreadable file cause => "Failed to load config " ++ file ++ ": " ++ cause
  | settingsNotObject file => "Config " ++ file ++ " must contain a JSON object"
  | invalidDefaultDialect value =>
    "Invalid registry.default_dialect '" ++ value ++ "' (expected one of: marker, flat)"
  | invalidDescriptor file => "Invalid role descriptor " ++ file
  | noPendingIntent id => "No pending intent " ++ id
  | notResumable verb => "Cannot resume '" ++ verb ++ "'"
  | undefinedSlot slot => "'" ++ slot ++ "' is undefined"
  | absentName => "a name is absent"
  | wrongType => "a value has the wrong type"
  | notBelow path folder => path ++ " is not below " ++ folder
  | invalidDocument => "a document has the wrong shape"
  | nestedTooDeep => "a document is nested too deep"
  | numberTooLong => "a number has too many digits"
  | reservedLabel label => "no value can be given for '" ++ label ++ "'"
  | undecodable fault => fault.message
  | system error path =>
    match error.number? with
    | some n => "[Errno " ++ Text.ofNat n ++ "] " ++ error.description ++ ": " ++ path.quoted
    | none => error.description

end Fault

end RouteScaffold
