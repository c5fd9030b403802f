import RouteScaffold.Registry.Basic
import RouteScaffold.Registry.Descriptor

/-!
# Descriptors and Registries of Roles

The registry of a role is edited in the dialect that the role's descriptor
names. A role that has lost its descriptor is judged by the text of its
registry: the root sentinel shows the marker dialect, the head of the array
shows the flat one, and a text that shows neither is a fault.

## Main definitions

* `Descriptor.keep`, `Descriptor.load`: A descriptor in its place.
* `Descriptor.inferred?`: The dialect that a registry's text shows.
* `Registry.load`: The registry of a role.
-/

namespace RouteScaffold

namespace Descriptor

/-- Keeps the descriptor of a role. Answers with its file. -/
def keep (l : Layout) (d : Descriptor) : Job Path := do
  let file ← Job.ofExcept (l.descriptorFile d.name)
  Job.writeText file d.document
  return file

/-- The dialect that the text of a registry shows. -/
def inferred? (role content : Text) : Option Dialect :=
  if Text.occurs rootSentinel content then some .marker
  else if (Pattern.arrayHead (registrySymbol role)).occursIn content then some .flat
  else none

/-- What a registry has to show for its dialect to be seen. -/
def inferenceLabel (role : Text) : Text :=
  rootSentinel ++ " or " ++ registrySymbol role ++ " array"

/-- The descriptor of a role. A role without one is judged by the text of its
    registry. -/
def load (l : Layout) (now : Timestamp) (role : Text) : Job Descriptor := do
  unless ← Job.isFolder (← Job.ofExcept (l.roleFolder role)) do Job.fail (.roleNotFound role)
  let file ← Job.ofExcept (l.descriptorFile role)
  if ← Job.isThere file then
    match ofDocument? now (← Job.readText file) with
    | some d => return d
    | none => Job.fail (.invalidDescriptor file.text)
  else
    let registry ← Job.ofExcept (l.registryFile role)
    match inferred? role (← Job.readSource registry) with
    | some dialect => return ⟨role, dialect, now⟩
    | none => Job.fail (.anchorNotFound registry.text (inferenceLabel role))

end Descriptor

/-- The registry of a role, with the dialect that the role says it has. -/
def Registry.load (l : Layout) (now : Timestamp) (role : Text) : Job Registry := do
  let d ← Descriptor.load l now role
  Job.ofExcept (ofRole l role d.dialect)

end RouteScaffold
