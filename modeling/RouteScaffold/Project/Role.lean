import RouteScaffold.Project.Basic
import RouteScaffold.Text.Case

/-!
# Roles

A role is a folder with four folders in it, an empty registry and a
descriptor.

## Main definitions

* `Project.roleCreation`, `Project.createRole`: Makes a role.
* `Project.deleteRole`: Removes a role with everything in it.
-/

namespace RouteScaffold

namespace Project

/-- The files of a role, relative to its folder. -/
def roleFiles (role : Text) (dialect : Dialect) : Rendering :=
  Kind.role.render (some dialect) fun
    | .name => role
    | .registrySymbol => registrySymbol role
    | .path => Text.lower role
    | .sentinel => rootSentinel
    | _ => []

/-- The dialect that is asked for by name; without a name, the default. -/
def dialectFor (p : Project) (wanted : Option Text) : Except Fault Dialect :=
  match wanted with
  | none | some [] => .ok p.dialect
  | some t =>
    match Dialect.ofName? t with
    | some d => .ok d
    | none => .error (.unknownDialect t)

/-- The steps that make a role. -/
def createRolePlan (d : Descriptor) (folder descriptor : Path) : List Step :=
  .record folder :: (Layout.roleSubfolders.map fun name => .folder (folder / name))
    ++ makeSteps (filesIn folder (roleFiles d.name d.dialect)) ++ [.file descriptor d.document]

/-- The making of a role. Nothing may be there under its name. -/
def roleCreation (p : Project) (raw dialect : Option Text) : Job Order := do
  let named ← Job.ofExcept (Kind.role.named raw)
  let dialect ← Job.ofExcept (p.dialectFor dialect)
  let folder ← Job.ofExcept (p.layout.roleFolder named.name)
  if ← Job.isThere folder then Job.fail (.roleExists named.name)
  let descriptor ← Job.ofExcept (p.layout.descriptorFile named.name)
  let files := (filesIn folder (roleFiles named.name dialect)).map Prod.fst
  return {
    verb := createVerb .role
    args := [named.raw]
    mode := .create
    plan := createRolePlan ⟨named.name, dialect, p.now⟩ folder descriptor
    answer := fun _ => ⟨.role, named.raw, named.name, files ++ [descriptor], none⟩ }

/-- Makes a role. -/
def createRole (p : Project) (raw dialect : Option Text) : Job Artifact := do
  p.carryOut (← p.roleCreation raw dialect)

/-- Removes a role with everything in it. -/
def deleteRole (p : Project) (raw : Option Text) : Job Artifact := do
  let named ← Job.ofExcept (Kind.role.named raw)
  let folder ← Job.ofExcept (p.layout.roleFolder named.name)
  unless ← Job.isFolder folder do Job.fail (.roleNotFound named.name)
  let _ ← Job.remove folder false
  return ⟨.role, named.raw, named.name, [folder], none⟩

end Project

end RouteScaffold
