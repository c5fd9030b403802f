import RouteScaffold.Project.Basic

/-!
# Setting Up a Project

A new project gets an empty barrel for every kind of package, and the folder of
roles. What is there already is left alone.

The folders in which the tool keeps its own books are made apart from that,
when they are wanted.

## Main definitions

* `Project.setUp`: Makes what is missing.
* `Layout.makeOwnFolders`: Makes the folders of the tool itself.
-/

namespace RouteScaffold

/-- Makes the tool's own folder, with the folders of intents and of logs in
    it. -/
def Layout.makeOwnFolders (l : Layout) : Job Unit := do
  Job.folders l.ownFolder
  Job.folder l.intentsFolder
  Job.folder l.logsFolder

namespace Project

/-- Makes the barrel of a kind of package, if nothing is there. Answers with
    what was made. -/
def setUpBarrel (p : Project) (kind : PackageKind) : Job (List Path) := do
  let barrel ← Job.ofExcept (p.layout.barrel kind)
  if ← Job.isThere barrel then return []
  Job.newFile barrel []
  return [barrel]

/-- Makes the folder of roles, if there is none. Answers with what was made. -/
def setUpRoles (p : Project) : Job (List Path) := do
  let roles ← Job.ofExcept p.layout.rolesRoot
  if ← Job.isFolder roles then return []
  Job.folders roles
  return [roles]

/-- Makes what a project needs and does not have. Answers with what was made,
    in order. -/
def setUp (p : Project) : Job (List Path) := do
  let barrels ← PackageKind.all.mapM p.setUpBarrel
  return barrels.flatten ++ (← p.setUpRoles)

end Project

end RouteScaffold
