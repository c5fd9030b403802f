import RouteScaffold.Project.Module

/-!
# Pages

A page of a module is a file in the module's folder of pages. It is routed
within its module.

The name of a page is looked at last, after its role and its module have been
found, and its segment before its canonical name; so an absent page name is
not noticed as one.

## Main definitions

* `Project.pageTarget`: The registry of a role, and a page of one of its
  modules.
* `Project.pageCreation`, `Project.createPage`: Makes the file, then the route.
* `Project.pageDeletion`, `Project.deletePage`: Removes the route, then the file.
-/

namespace RouteScaffold

namespace Project

/-- A command's module and page: the names as given, and what they stand
    for. -/
structure PageTarget where
  within : ModuleTarget
  page : Named
  ref : PageRef
  deriving DecidableEq, Repr

/-- The name of a page, with its segment. -/
def pageNamed (raw : Option Text) : Except Fault (Named × Text) :=
  match raw with
  | none => .error .absentName
  | some t => return (← Kind.page.named raw, Naming.segment t)

/-- The registry of a role, and a page of one of its modules. The module has to
    exist, the page need not. -/
def pageTarget (p : Project) (role module page : Option Text) : Job PageTarget := do
  let t ← p.moduleTarget role module
  let folder ← Job.ofExcept (p.layout.moduleFolder t.ref.role t.ref.segment)
  unless ← Job.isFolder folder do Job.fail (.moduleNotFound t.ref.role t.ref.segment)
  let (page, segment) ← Job.ofExcept (pageNamed page)
  return ⟨t, page, ⟨t.ref, segment, page.name⟩⟩

/-- The files of a page, relative to the folder of its role. -/
def pageFiles (r : PageRef) : Rendering :=
  Kind.page.render none fun
    | .name => r.name
    | .segment => r.module.segment
    | _ => []

/-- The steps that make a page. -/
def createPagePlan (r : Registry) (ref : PageRef) (roleFolder : Path) : List Step :=
  ((filesIn roleFolder (pageFiles ref)).flatMap fun (p, t) => [.record p, .newFile p t])
    ++ .snapshot (r.pageFile ref) :: reviseSteps (r.addPage ref)

/-- The making of a page. Its file must not be there, and its registry must have
    room for it. -/
def pageCreation (p : Project) (role module page : Option Text) : Job Order := do
  let t ← p.pageTarget role module page
  let roleFolder ← Job.ofExcept (p.layout.roleFolder t.ref.module.role)
  let files := (filesIn roleFolder (pageFiles t.ref)).map Prod.fst
  requireAbsent files
  (t.within.registry.pageGuard t.ref).check
  return {
    verb := createVerb .page
    args := [t.within.role.raw, t.within.module.raw, t.page.raw]
    mode := .create
    plan := createPagePlan t.within.registry t.ref roleFolder
    answer := fun changed => ⟨.page, t.page.raw, t.page.name, files, some changed⟩ }

/-- Makes a page. -/
def createPage (p : Project) (role module page : Option Text) : Job Artifact := do
  p.carryOut (← p.pageCreation role module page)

/-- The steps that remove a page. A route file that is absent has no route to
    remove. -/
def deletePagePlan (r : Registry) (ref : PageRef) (file : Path) : List Step :=
  let revision := r.removePage ref
  let edits : List Step :=
    if r.pageFileMayBeAbsent then revision.edits.map (.editIfPresent revision.file)
    else reviseSteps revision
  .snapshotIfPresent (r.pageFile ref) :: edits ++ [.remove file true]

/-- The removal of a page, which has to be there unless that is waived. -/
def pageDeletion (p : Project) (role module page : Option Text) (missingOk : Bool) :
    Job Order := do
  let t ← p.pageTarget role module page
  let pages ← Job.ofExcept (p.layout.pagesFolder t.ref.module.role t.ref.module.segment)
  let file := pages / (t.ref.name ++ ".tsx".toList)
  unless missingOk || (← Job.isThere file) do Job.fail (.notFound file.text)
  return {
    verb := deleteVerb .page
    args := [t.within.role.raw, t.within.module.raw, t.page.raw]
    mode := .delete
    plan := deletePagePlan t.within.registry t.ref file
    answer := fun changed => ⟨.page, t.page.raw, t.page.name, [file], some changed⟩ }

/-- Removes a page. -/
def deletePage (p : Project) (role module page : Option Text) (missingOk : Bool) :
    Job Artifact := do
  p.carryOut (← p.pageDeletion role module page missingOk)

end Project

end RouteScaffold
