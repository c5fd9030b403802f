import RouteScaffold.Project.Basic

/-!
# Modules

A module of a role is a folder with a component and a folder of pages, and in
the flat dialect a route file. It is routed in the role's registry.

## Main definitions

* `Project.moduleTarget`: The registry of a role, and a module of it.
* `Project.moduleCreation`, `Project.createModule`: Makes the files, then the
  route.
* `Project.moduleDeletion`, `Project.deleteModule`: Removes the route, then the
  files.
-/

namespace RouteScaffold

namespace Project

/-- A command's role and module: the names as given, and what they stand
    for. -/
structure ModuleTarget where
  role : Named
  module : Named
  registry : Registry
  ref : ModuleRef
  deriving DecidableEq, Repr

/-- The registry of a role, and a module of it that need not exist. -/
def moduleTarget (p : Project) (role module : Option Text) : Job ModuleTarget := do
  let role ← Job.ofExcept (Kind.role.named role)
  let module ← Job.ofExcept (Kind.module.named module)
  let registry ← Registry.load p.layout p.now role.name
  return ⟨role, module, registry, ⟨role.name, Naming.segment module.raw, module.name⟩⟩

/-- The files of a module, relative to the folder of its role. -/
def moduleFiles (dialect : Dialect) (m : ModuleRef) : Rendering :=
  Kind.module.render (some dialect) fun
    | .name => m.name
    | .segment => m.segment
    | .routeSymbol => m.routeSymbol
    | _ => []

/-- The steps that make a module. -/
def createModulePlan (r : Registry) (m : ModuleRef) (roleFolder folder : Path) : List Step :=
  .record folder :: .folder (folder / "pages")
    :: makeSteps (filesIn roleFolder (moduleFiles r.dialect m))
    ++ .snapshot r.file :: reviseSteps (r.addModule m)

/-- The making of a module. Its folder must not be there, and its registry must
    have room for it. -/
def moduleCreation (p : Project) (role module : Option Text) : Job Order := do
  let t ← p.moduleTarget role module
  let folder ← Job.ofExcept (p.layout.moduleFolder t.ref.role t.ref.segment)
  if ← Job.isThere folder then Job.fail (.moduleExists t.ref.role t.ref.segment)
  (t.registry.moduleGuard t.ref).check
  let roleFolder ← Job.ofExcept (p.layout.roleFolder t.ref.role)
  let files := (filesIn roleFolder (moduleFiles t.registry.dialect t.ref)).map Prod.fst
  return {
    verb := createVerb .module
    args := [t.role.raw, t.module.raw]
    mode := .create
    plan := createModulePlan t.registry t.ref roleFolder folder
    answer := fun changed => ⟨.module, t.module.raw, t.module.name, files, some changed⟩ }

/-- Makes a module. -/
def createModule (p : Project) (role module : Option Text) : Job Artifact := do
  p.carryOut (← p.moduleCreation role module)

/-- The steps that remove a module. -/
def deleteModulePlan (r : Registry) (m : ModuleRef) (folder : Path) : List Step :=
  .snapshot r.file :: reviseSteps (r.removeModule m) ++ [.remove folder true]

/-- The removal of a module, which has to be there unless that is waived. -/
def moduleDeletion (p : Project) (role module : Option Text) (missingOk : Bool) : Job Order := do
  let t ← p.moduleTarget role module
  let folder ← Job.ofExcept (p.layout.moduleFolder t.ref.role t.ref.segment)
  unless missingOk || (← Job.isThere folder) do
    Job.fail (.moduleNotFound t.ref.role t.ref.segment)
  return {
    verb := deleteVerb .module
    args := [t.role.raw, t.module.raw]
    mode := .delete
    plan := deleteModulePlan t.registry t.ref folder
    answer := fun changed => ⟨.module, t.module.raw, t.module.name, [folder], some changed⟩ }

/-- Removes a module. -/
def deleteModule (p : Project) (role module : Option Text) (missingOk : Bool) : Job Artifact := do
  p.carryOut (← p.moduleDeletion role module missingOk)

end Project

end RouteScaffold
