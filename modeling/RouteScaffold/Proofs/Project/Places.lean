import RouteScaffold.Proofs.Disk.Paths
import RouteScaffold.Proofs.Edit.Insertion
import RouteScaffold.Proofs.Registry.Routed
import RouteScaffold.Project.Page
import RouteScaffold.Project.Role

/-!
# The Places of a Role

Everything that belongs to a role lies below the folder of the role, and where
it lies there does not depend on where the folder is: names of roles, segments
and canonical names are single names, so the paths that are made of them lead
straight down.

## Theorems

* `descriptorFile_eq`, `registryFile_eq`, `moduleFolder_eq`, `pagesFolder_eq`,
  `filesIn_page`, `routeFile_eq`: The places of a role.
-/

namespace RouteScaffold

open Naming Location

/-! ### Names -/

namespace Naming

theorem isName_of_no_dot {t : Text} (hslash : '/' ∉ t) (hdot : '.' ∉ t) (hne : t ≠ []) :
    Path.IsName t := by
  refine ⟨hslash, hne, ?_, ?_⟩
  · rintro rfl
    exact hdot (by simp)
  · rintro rfl
    exact hdot (by simp)

theorem isName_of_tame {t : Text} (h : ∀ c ∈ t, isTame c = true) (hne : t ≠ []) : Path.IsName t :=
  isName_of_no_dot (not_mem_of_tame h (by decide)) (not_mem_of_tame h (by decide)) hne

theorem isName_file {t suffix : Text} (hslash : '/' ∉ t) (hsuffix : '/' ∉ suffix)
    (hlen : 2 < suffix.length) : Path.IsName (t ++ suffix) := by
  refine ⟨by simp [hslash, hsuffix], ?_, ?_, ?_⟩
  all_goals
    intro heq
    have := congrArg List.length heq
    simp only [List.length_append, List.length_cons, List.length_nil] at this
    omega

/-- The characters that role names do without. -/
theorem not_mem_role {role : Text} (h : isRoleName role = true) {x : Char} (hx : x.isAlphanum = false)
    (hline : x ≠ '_') (hbreak : x ≠ '\n') : x ∉ role := by
  rcases exists_of_isRun h with ⟨c, s, rfl, hc, hs⟩
  intro hmem
  rcases List.mem_cons.mp hmem with rfl | hmem
  · exact absurd hx (by simp [Char.isAlphanum, hc])
  · rcases hs x hmem with hword | hword
    · exact absurd hword (by simp [hx, hline])
    · exact hbreak hword

/-- Role names begin with a letter and hold no slashes. -/
theorem isName_role {role : Text} (h : isRoleName role = true) : Path.IsName role := by
  refine isName_of_no_dot (not_mem_role h (by decide) (by decide) (by decide))
    (not_mem_role h (by decide) (by decide) (by decide)) ?_
  rcases exists_of_isRun h with ⟨c, s, rfl, -, -⟩
  simp

end Naming

/-! ### Paths -/

namespace Layout

variable {l : Layout} {role : Text} {folder : Path}

theorem descriptorFile_eq (h : l.roleFolder role = .ok folder) :
    l.descriptorFile role = .ok (folder.below [".aviators-role.json".toList]) := by
  rw [descriptorFile, h]
  exact congrArg Except.ok (Path.div_name ⟨by decide, by decide, by decide, by decide⟩ folder)

theorem registryFile_eq (h : l.roleFolder role = .ok folder) :
    l.registryFile role = .ok (folder.below ["routes".toList, "route.tsx".toList]) := by
  rw [registryFile, h]
  have hroutes : folder / "routes" = folder.below ["routes".toList] :=
    Path.div_name ⟨by decide, by decide, by decide, by decide⟩ folder
  have hfile : folder.below ["routes".toList] / "route.tsx"
      = (folder.below ["routes".toList]).below ["route.tsx".toList] :=
    Path.div_name ⟨by decide, by decide, by decide, by decide⟩ _
  change Except.ok (folder / "routes" / "route.tsx") = _
  rw [hroutes, hfile, Path.below_below]
  rfl

theorem modules_eq (folder : Path) : folder / "modules" = folder.below ["modules".toList] :=
  Path.div_name ⟨by decide, by decide, by decide, by decide⟩ folder

theorem moduleFolder_eq (h : l.roleFolder role = .ok folder) {segment : Text}
    (hseg : Path.IsName segment) :
    l.moduleFolder role segment = .ok (folder.below ["modules".toList, segment]) := by
  rw [moduleFolder, h]
  change Except.ok (folder / "modules" / segment) = _
  rw [modules_eq, Path.div_name hseg, Path.below_below]
  rfl

theorem pagesFolder_eq (h : l.roleFolder role = .ok folder) {segment : Text}
    (hseg : Path.IsName segment) :
    l.pagesFolder role segment = .ok (folder.below ["modules".toList, segment, "pages".toList]) := by
  have hpages : ∀ p : Path, p / "pages" = p.below ["pages".toList] := fun p =>
    Path.div_name ⟨by decide, by decide, by decide, by decide⟩ p
  rw [pagesFolder, moduleFolder_eq h hseg]
  change Except.ok (folder.below ["modules".toList, segment] / "pages") = _
  rw [hpages, Path.below_below]
  rfl

end Layout

namespace Project

variable {folder : Path}

theorem registry_eq {l : Layout} {role : Text} {dialect : Dialect} (h : l.roleFolder role = .ok folder) :
    Registry.ofRole l role dialect = .ok ⟨dialect, folder.below ["routes".toList, "route.tsx".toList],
      folder.below ["modules".toList]⟩ := by
  rw [Registry.ofRole, Layout.registryFile_eq h, h, ← Layout.modules_eq]
  rfl

/-- The text of the component of a module. -/
def moduleText (m : ModuleRef) : Text :=
  Catalogue.moduleBody.fill fun
    | .name => m.name
    | .segment => m.segment
    | .routeSymbol => m.routeSymbol
    | _ => []

/-- The text of the route file of a module without pages. -/
def moduleRouteText (m : ModuleRef) : Text :=
  Catalogue.moduleRouteBody.fill fun
    | .name => m.name
    | .segment => m.segment
    | .routeSymbol => m.routeSymbol
    | _ => []

/-- The text of a page. -/
def pageText (p : PageRef) : Text :=
  Catalogue.viewBody.fill fun
    | .name => p.name
    | .segment => p.module.segment
    | _ => []

theorem moduleFiles_marker (m : ModuleRef) : moduleFiles .marker m
    = [("modules".toList ++ '/' :: (m.segment ++ '/' :: (m.name ++ ".tsx".toList)), moduleText m)] := by
  rw [show moduleFiles .marker m = [("modules/".toList ++ (m.segment ++ ("/".toList ++ (m.name
    ++ (".tsx".toList ++ [])))), moduleText m)] from rfl]
  simp

theorem moduleFiles_flat {m : ModuleRef} (h : ∀ c ∈ m.name, isTame c = true) : moduleFiles .flat m
    = [("modules".toList ++ '/' :: (m.segment ++ '/' :: (m.name ++ ".tsx".toList)), moduleText m),
      ("modules".toList ++ '/' :: (m.segment ++ '/' :: (m.segment ++ ".route.tsx".toList)),
        moduleRouteText m)] := by
  -- The component has no dot in its name, so the two files are different.
  have hne : "modules/".toList ++ (m.segment ++ ("/".toList ++ (m.name ++ (".tsx".toList ++ []))))
      ≠ "modules/".toList ++ (m.segment ++ ("/".toList ++ (m.segment ++ (".route.tsx".toList ++ [])))) := by
    intro heq
    have heq := List.append_cancel_left (List.append_cancel_left (List.append_cancel_left heq))
    rw [show ".route.tsx".toList ++ [] = ".route".toList ++ (".tsx".toList ++ []) from rfl,
      ← List.append_assoc m.segment] at heq
    have hname := List.append_cancel_right heq
    have hdot : '.' ∈ m.name := by
      rw [hname]
      simp
    exact absurd (h '.' hdot) (by decide)
  rw [show moduleFiles .flat m = Rendering.put ("modules/".toList ++ (m.segment ++ ("/".toList
    ++ (m.segment ++ (".route.tsx".toList ++ []))))) (moduleRouteText m) [("modules/".toList
    ++ (m.segment ++ ("/".toList ++ (m.name ++ (".tsx".toList ++ [])))), moduleText m)] from rfl,
    Rendering.put, if_neg hne, Rendering.put]
  simp

theorem pageFiles_eq (p : PageRef) : pageFiles p
    = [("modules".toList ++ '/' :: (p.module.segment ++ '/' :: ("pages".toList ++ '/' :: (p.name
      ++ ".tsx".toList))), pageText p)] := by
  rw [show pageFiles p = [("modules/".toList ++ (p.module.segment ++ ("/pages/".toList ++ (p.name
    ++ (".tsx".toList ++ [])))), pageText p)] from rfl]
  simp

theorem div_page {segment file : Text} (hseg : Path.IsName segment) (hfile : Path.IsName file)
    (folder : Path) : folder / ("modules".toList ++ '/' :: (segment ++ '/' :: ("pages".toList ++ '/' :: file)))
      = folder.below ["modules".toList, segment, "pages".toList, file] := by
  apply Path.div_text
  rw [Path.IsName.ofText_cons ⟨by decide, by decide, by decide, by decide⟩, hseg.ofText_cons,
    Path.IsName.ofText_cons ⟨by decide, by decide, by decide, by decide⟩, hfile.ofText]

/-- The name of the file of a component. -/
theorem isName_component {name : Text} (h : ∀ c ∈ name, isTame c = true) :
    Path.IsName (name ++ ".tsx".toList) :=
  isName_file (not_mem_of_tame h (by decide)) (by decide) (by decide)

/-- The name of the route file of a module. -/
theorem isName_routeFile {segment : Text} (h : ∀ c ∈ segment, isTame c = true) :
    Path.IsName (segment ++ ".route.tsx".toList) :=
  isName_file (not_mem_of_tame h (by decide)) (by decide) (by decide)

theorem filesIn_page {p : PageRef} (h : p.Spelled) (hseg : p.module.segment ≠ []) (folder : Path) :
    filesIn folder (pageFiles p) = [(folder.below ["modules".toList, p.module.segment, "pages".toList,
      p.name ++ ".tsx".toList], pageText p)] := by
  rw [pageFiles_eq, filesIn, List.map_singleton]
  dsimp only
  rw [div_page (isName_of_tame h.module.segment hseg)
    (isName_component h.name)]

/-- The route file of a module lies in the folder of the module. -/
theorem routeFile_eq {m : ModuleRef} (h : m.Spelled) (hseg : m.segment ≠ []) (dialect : Dialect)
    (file folder : Path) :
    Registry.routeFile ⟨dialect, file, folder.below ["modules".toList]⟩ m
      = folder.below ["modules".toList, m.segment, m.segment ++ ".route.tsx".toList] := by
  change folder.below ["modules".toList] / m.segment / (m.segment ++ ".route.tsx".toList) = _
  rw [Path.div_name (isName_of_tame h.segment hseg), Path.div_name (isName_routeFile h.segment),
    Path.below_below, Path.below_below]
  rfl

end Project

end RouteScaffold
