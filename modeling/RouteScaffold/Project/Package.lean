import RouteScaffold.Project.Basic

/-!
# Packages

A package is a file, or for a component a folder with two files, in the folder
of its kind, and a line in the barrel of its kind.

## Main definitions

* `Project.packageCreation`, `Project.createPackage`: Makes the files, then the
  line.
* `Project.packageDeletion`, `Project.deletePackage`: Removes the line, then the
  files.
-/

namespace RouteScaffold

/-- The kind of package with a given name; any other name is a fault. -/
def PackageKind.ofName (t : Text) : Except Fault PackageKind :=
  match ofName? t with
  | some kind => .ok kind
  | none => .error (.unknownPackageKind t)

namespace Project

/-- The files of a package, relative to the folder of its kind. -/
def packageFiles (kind : PackageKind) (name : Text) : Rendering :=
  (Kind.package kind).render none fun
    | .name => name
    | _ => []

/-- What of a kind's folder belongs to a package: a folder of its own, or its
    one file. -/
def packageRoot (kind : PackageKind) (name : Text) (base : Path) : Path :=
  match kind, packageFiles kind name with
  | .component, _ => base / name
  | _, (file, _) :: _ => base / file
  | _, [] => base / name

/-- The canonical name of a package, and the folder of its kind, which has to
    be there. -/
def packageTarget (p : Project) (kind : PackageKind) (raw : Option Text) :
    Job (Named × Path) := do
  let named ← Job.ofExcept ((Kind.package kind).named raw)
  let base ← Job.ofExcept (p.layout.packageFolder kind)
  unless ← Job.isFolder base do
    let source ← Job.ofExcept p.layout.sourceRoot
    match base.relativeTo? source with
    | some relative => Job.fail (.packageFolderMissing base.text relative.text)
    | none => Job.fail (.notBelow base.text source.text)
  return (named, base)

/-- The steps that make a package. -/
def createPackagePlan (kind : PackageKind) (name : Text) (base barrel : Path) : List Step :=
  .record (packageRoot kind name base) :: makeSteps (filesIn base (packageFiles kind name))
    ++ [.snapshot barrel, .edit barrel (.append (Snippet.barrelEntry name))]

/-- The making of a package. None of its files may be there. -/
def packageCreation (p : Project) (kind : PackageKind) (raw : Option Text) : Job Order := do
  let (named, base) ← p.packageTarget kind raw
  let files := (filesIn base (packageFiles kind named.name)).map Prod.fst
  requireAbsent files
  let barrel ← Job.ofExcept (p.layout.barrel kind)
  return {
    verb := createVerb (.package kind)
    args := [named.raw]
    mode := .create
    plan := createPackagePlan kind named.name base barrel
    answer := fun changed => ⟨.package kind, named.raw, named.name, files, some changed⟩ }

/-- Makes a package. -/
def createPackage (p : Project) (kind : PackageKind) (raw : Option Text) : Job Artifact := do
  p.carryOut (← p.packageCreation kind raw)

/-- The steps that remove a package. -/
def deletePackagePlan (kind : PackageKind) (name : Text) (base barrel : Path)
    (missingOk : Bool) : List Step :=
  [.snapshotIfPresent barrel, .editIfPresent barrel (.erase (.barrelLine name)),
    .remove (packageRoot kind name base) missingOk]

/-- The removal of a package, which has to be there unless that is waived. -/
def packageDeletion (p : Project) (kind : PackageKind) (raw : Option Text) (missingOk : Bool) :
    Job Order := do
  let (named, base) ← p.packageTarget kind raw
  let target := packageRoot kind named.name base
  unless missingOk || (← Job.isThere target) do Job.fail (.notFound target.text)
  let barrel ← Job.ofExcept (p.layout.barrel kind)
  return {
    verb := deleteVerb (.package kind)
    args := [named.raw]
    mode := .delete
    plan := deletePackagePlan kind named.name base barrel missingOk
    answer := fun changed => ⟨.package kind, named.raw, named.name, [target], some changed⟩ }

/-- Removes a package. -/
def deletePackage (p : Project) (kind : PackageKind) (raw : Option Text) (missingOk : Bool) :
    Job Artifact := do
  p.carryOut (← p.packageDeletion kind raw missingOk)

end Project

end RouteScaffold
