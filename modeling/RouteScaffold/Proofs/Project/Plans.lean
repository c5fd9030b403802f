import RouteScaffold.Proofs.Journal.Making
import RouteScaffold.Proofs.Project.Commands
import RouteScaffold.Proofs.Registry.Adding
import RouteScaffold.Project.Package

/-!
# What Commands Make

Every command that makes something records one path, makes everything below one
place, and goes on to one file that it changes: roles to none, modules and pages
to a registry, packages to a barrel. What a command makes is told by its
rendering, whose relative paths are the ways down.

## Main definitions

* `Project.filesOf`: The files of a rendering as things to be made.
* `Project.roleThings`, `Project.moduleThings`: What is made for a role and for
  a module.

## Theorems

* `createRolePlan_eq`, `createModulePlan_eq`, `createPagePlan_eq`,
  `createPackagePlan_eq`: The plans, as making and what comes behind it.
* `makable_role`, `makable_module`, `makable_page`, `makable_package`: Where
  nothing was in the way, everything can be made.
-/

namespace RouteScaffold

open Naming Disk

namespace Project

/-- The files of a rendering as things to be made. -/
def filesOf (r : Rendering) : List (List Text × Made) :=
  r.map fun x => ((Path.ofText x.1).names, .newFile x.2)

variable {top : Path} {r : Rendering}

/-- The files of a rendering lie where their relative paths lead. -/
theorem filesIn_eq (h : ∀ x ∈ r, (Path.ofText x.1).anchor = .here) :
    filesIn top r = r.map fun x => (top.below (Path.ofText x.1).names, x.2) := by
  rw [filesIn]
  refine List.map_congr_left fun x hx => ?_
  rcases x with ⟨name, t⟩
  rw [Prod.mk.injEq]
  refine ⟨Path.div_text ?_ top, rfl⟩
  rw [← h _ hx]

theorem makeSteps_eq (h : ∀ x ∈ r, (Path.ofText x.1).anchor = .here) :
    makeSteps (filesIn top r) = making top (filesOf r) := by
  rw [filesIn_eq h, makeSteps, making, filesOf, List.map_map, List.map_map]
  rfl

/-! ### Roles -/

/-- The file in which the modules of a role are routed, relative to the role. -/
def registryNames : List Text := ["routes".toList, "route.tsx".toList]

/-- What is made for a role. -/
def roleThings (d : Descriptor) : List (List Text × Made) :=
  Layout.roleSubfolders.map (fun name => ([name], .folder)) ++ filesOf (roleFiles d.name d.dialect)
    ++ [([".aviators-role.json".toList], .file d.document)]

/-- A role has one file, its registry. -/
theorem exists_roleFiles (role : Text) (dialect : Dialect) :
    ∃ t, roleFiles role dialect = [("routes/route.tsx".toList, t)] := by
  cases dialect <;> exact ⟨_, rfl⟩

theorem ofText_registry : Path.ofText "routes/route.tsx".toList = ⟨.here, registryNames⟩ := by decide

theorem roleThings_eq (d : Descriptor) : ∃ t, roleThings d
    = [(["assets".toList], .folder), (["api".toList], .folder), (["modules".toList], .folder),
      (["routes".toList], .folder), (registryNames, .newFile t),
      ([".aviators-role.json".toList], .file d.document)] := by
  rcases exists_roleFiles d.name d.dialect with ⟨t, ht⟩
  refine ⟨t, ?_⟩
  rw [roleThings, ht, filesOf, List.map_singleton]
  dsimp only
  rw [ofText_registry]
  rfl

theorem createRolePlan_eq (d : Descriptor) (folder : Path) :
    createRolePlan d folder (folder.below [".aviators-role.json".toList])
      = .record folder :: making folder (roleThings d) := by
  have hfolders : (Layout.roleSubfolders.map fun name => Step.folder (folder / name))
      = making folder (Layout.roleSubfolders.map fun name => ([name], .folder)) := by
    rw [making, List.map_map]
    refine List.map_congr_left fun name hname => congrArg Step.folder ?_
    refine Path.div_name ?_ folder
    -- The four folders of a role have plain names.
    revert name
    simp only [Layout.roleSubfolders]
    intro name hname
    simp only [List.mem_cons, List.not_mem_nil, or_false] at hname
    rcases hname with rfl | rfl | rfl | rfl <;> exact ⟨by decide, by decide, by decide, by decide⟩
  have hfiles : makeSteps (filesIn folder (roleFiles d.name d.dialect))
      = making folder (filesOf (roleFiles d.name d.dialect)) := by
    rcases exists_roleFiles d.name d.dialect with ⟨t, ht⟩
    refine makeSteps_eq fun x hx => ?_
    rw [ht, List.mem_singleton] at hx
    rw [hx]
    exact congrArg Path.anchor ofText_registry
  rw [createRolePlan, hfolders, hfiles, roleThings, making, making, making, List.map_append,
    List.map_append]
  rfl

/-! ### Modules and pages -/

/-- What is made for a module. -/
def moduleThings (dialect : Dialect) (m : ModuleRef) : List (List Text × Made) :=
  (["modules".toList, m.segment, "pages".toList], .folder) :: filesOf (moduleFiles dialect m)

theorem ofText_module {segment file : Text} (hseg : Path.IsName segment) (hfile : Path.IsName file) :
    Path.ofText ("modules".toList ++ '/' :: (segment ++ '/' :: file))
      = ⟨.here, ["modules".toList, segment, file]⟩ := by
  rw [Path.IsName.ofText_cons ⟨by decide, by decide, by decide, by decide⟩, hseg.ofText_cons,
    hfile.ofText]

/-- The files of a module, with their ways down. -/
theorem moduleThings_eq {m : ModuleRef} (h : m.Spelled) (hseg : m.segment ≠ []) (dialect : Dialect) :
    (∀ x ∈ moduleFiles dialect m, (Path.ofText x.1).anchor = .here) ∧ moduleThings dialect m
      = (["modules".toList, m.segment, "pages".toList], .folder)
        :: (["modules".toList, m.segment, m.name ++ ".tsx".toList], .newFile (moduleText m))
        :: match dialect with
          | .marker => []
          | .flat => [(["modules".toList, m.segment, m.segment ++ ".route.tsx".toList],
              .newFile (moduleRouteText m))] := by
  have hname := isName_of_tame h.segment hseg
  have hcomponent := ofText_module hname (isName_component h.name)
  cases dialect with
  | marker =>
      -- One file for a module of a marker role, two for one of a flat role.
      rw [moduleThings, moduleFiles_marker, filesOf, List.map_singleton]
      dsimp only
      rw [hcomponent]
      refine ⟨fun x hx => ?_, rfl⟩
      rw [List.mem_singleton.mp hx, hcomponent]
  | flat =>
      have hroute := ofText_module hname (isName_routeFile h.segment)
      rw [moduleThings, moduleFiles_flat h.name, filesOf, List.map_cons, List.map_singleton]
      dsimp only
      rw [hcomponent, hroute]
      refine ⟨fun x hx => ?_, rfl⟩
      rcases List.mem_cons.mp hx with rfl | hx
      · rw [hcomponent]
      · rw [List.mem_singleton.mp hx, hroute]

theorem createModulePlan_eq {m : ModuleRef} (h : m.Spelled) (hseg : m.segment ≠ []) (r : Registry)
    (roleFolder : Path) :
    createModulePlan r m roleFolder (roleFolder.below ["modules".toList, m.segment])
      = (.record (roleFolder.below ["modules".toList, m.segment])
          :: making roleFolder (moduleThings r.dialect m))
        ++ .snapshot (r.guard (.module m)).file
          :: (r.add (.module m)).edits.map (.edit (r.guard (.module m)).file) := by
  have hpages : roleFolder.below ["modules".toList, m.segment] / "pages"
      = roleFolder.below ["modules".toList, m.segment, "pages".toList] := by
    have hdiv : roleFolder.below ["modules".toList, m.segment] / "pages"
        = (roleFolder.below ["modules".toList, m.segment]).below ["pages".toList] :=
      Path.div_name ⟨by decide, by decide, by decide, by decide⟩ _
    rw [hdiv, Path.below_below]
    rfl
  have hfile : (r.guard (.module m)).file = r.file := by
    rcases r with ⟨dialect, file, modules⟩
    cases dialect <;> rfl
  have hsame : (r.add (.module m)).file = (r.guard (.module m)).file := by rw [Registry.add_eq]
  rw [createModulePlan, hpages, makeSteps_eq (moduleThings_eq h hseg r.dialect).1, reviseSteps, show r.addModule m
    = r.add (.module m) from rfl, hsame, hfile]
  rfl

/-- What is made for a page. -/
theorem filesOf_page {p : PageRef} (h : p.Spelled) (hseg : p.module.segment ≠ []) :
    filesOf (pageFiles p) = [(["modules".toList, p.module.segment, "pages".toList,
      p.name ++ ".tsx".toList], .newFile (pageText p))] := by
  rw [pageFiles_eq, filesOf, List.map_singleton]
  dsimp only
  rw [Path.IsName.ofText_cons ⟨by decide, by decide, by decide, by decide⟩,
    Path.IsName.ofText_cons (isName_of_tame h.module.segment hseg),
    Path.IsName.ofText_cons ⟨by decide, by decide, by decide, by decide⟩,
    (isName_component h.name).ofText]

theorem createPagePlan_eq {p : PageRef} (h : p.Spelled) (hseg : p.module.segment ≠ []) (r : Registry)
    (roleFolder : Path) : createPagePlan r p roleFolder
      = (.record (roleFolder.below ["modules".toList, p.module.segment, "pages".toList,
            p.name ++ ".tsx".toList]) :: making roleFolder (filesOf (pageFiles p)))
        ++ .snapshot (r.guard (.page p)).file
          :: (r.add (.page p)).edits.map (.edit (r.guard (.page p)).file) := by
  have hfile : r.pageFile p = (r.guard (.page p)).file := by
    rcases r with ⟨dialect, file, modules⟩
    cases dialect <;> rfl
  have hsame : (r.add (.page p)).file = (r.guard (.page p)).file := by rw [Registry.add_eq]
  rw [createPagePlan, filesIn_page h hseg, filesOf_page h hseg, reviseSteps, show r.addPage p
    = r.add (.page p) from rfl, hsame, hfile]
  rfl

/-! ### Packages -/

/-- The extension of the file of a package that is one file. -/
def sourceExtension : PackageKind → Text
  | .component | .context | .partialView => ".tsx".toList
  | .hook | .util | .store => ".ts".toList

theorem exists_packageFile {kind : PackageKind} (h : kind ≠ .component) (name : Text) :
    ∃ t, packageFiles kind name = [(name ++ sourceExtension kind, t)] := by
  have hone : ∀ t u : Text, [(name ++ (t ++ []), u)] = [(name ++ t, u)] := fun t u => by simp
  cases kind with
  | component => exact absurd rfl h
  | hook => exact ⟨_, hone _ _⟩
  | util => exact ⟨_, hone _ _⟩
  | store => exact ⟨_, hone _ _⟩
  | context => exact ⟨_, hone _ _⟩
  | partialView => exact ⟨_, hone _ _⟩

theorem exists_componentFiles (name : Text) : ∃ t u, packageFiles .component name
    = [(name ++ '/' :: (name ++ ".tsx".toList), t), (name ++ '/' :: "index.ts".toList, u)] := by
  have hne : name ++ ("/".toList ++ (name ++ (".tsx".toList ++ [])))
      ≠ name ++ ("/index.ts".toList ++ []) := by
    intro heq
    have hlast := congrArg (fun t : Text => t.reverse.head?) (List.append_cancel_left heq)
    simp at hlast
  have hput : ∃ t u, packageFiles .component name = Rendering.put (name ++ ("/index.ts".toList ++ [])) u
      [(name ++ ("/".toList ++ (name ++ (".tsx".toList ++ []))), t)] := ⟨_, _, rfl⟩
  rcases hput with ⟨t, u, hput⟩
  refine ⟨t, u, ?_⟩
  rw [hput, Rendering.put, if_neg hne, Rendering.put]
  simp

/-- The ways down to the files of a package. -/
theorem filesOf_package {name : Text} (h : Path.IsName name) (kind : PackageKind) :
    (∀ x ∈ packageFiles kind name, (Path.ofText x.1).anchor = .here)
      ∧ ((kind = .component ∧ ∃ t u, filesOf (packageFiles kind name)
          = [([name, name ++ ".tsx".toList], .newFile t), ([name, "index.ts".toList], .newFile u)])
        ∨ (kind ≠ .component ∧ ∃ t, filesOf (packageFiles kind name)
          = [([name ++ sourceExtension kind], .newFile t)])) := by
  -- A component is a folder with two files, any other package is one file.
  by_cases hkind : kind = .component
  · subst hkind
    rcases exists_componentFiles name with ⟨t, u, hfiles⟩
    have hfirst : Path.ofText (name ++ '/' :: (name ++ ".tsx".toList))
        = ⟨.here, [name, name ++ ".tsx".toList]⟩ := by
      rw [h.ofText_cons, (isName_file h.1 (by decide) (by decide)).ofText]
    have hsecond : Path.ofText (name ++ '/' :: "index.ts".toList)
        = ⟨.here, [name, "index.ts".toList]⟩ := by
      rw [h.ofText_cons, Path.IsName.ofText ⟨by decide, by decide, by decide, by decide⟩]
    refine ⟨fun x hx => ?_, Or.inl ⟨rfl, t, u, ?_⟩⟩
    · rw [hfiles] at hx
      rcases List.mem_cons.mp hx with rfl | hx
      · rw [hfirst]
      · rw [List.mem_singleton.mp hx, hsecond]
    · rw [hfiles, filesOf, List.map_cons, List.map_singleton]
      dsimp only
      rw [hfirst, hsecond]
  · rcases exists_packageFile hkind name with ⟨t, hfiles⟩
    have hname : Path.ofText (name ++ sourceExtension kind) = ⟨.here, [name ++ sourceExtension kind]⟩ := by
      refine (isName_file h.1 ?_ ?_).ofText <;> cases kind <;> decide
    refine ⟨fun x hx => ?_, Or.inr ⟨hkind, t, ?_⟩⟩
    · rw [hfiles, List.mem_singleton] at hx
      rw [hx, hname]
    · rw [hfiles, filesOf, List.map_singleton]
      dsimp only
      rw [hname]

/-- The way down to what belongs to a package. -/
def packageWay (kind : PackageKind) (name : Text) : List Text :=
  if kind = .component then [name] else [name ++ sourceExtension kind]

theorem packageRoot_eq {name : Text} (h : Path.IsName name) (kind : PackageKind) (base : Path) :
    packageRoot kind name base = base.below (packageWay kind name) := by
  by_cases hkind : kind = .component
  · subst hkind
    exact Path.div_name h base
  · have hname : Path.IsName (name ++ sourceExtension kind) := by
      refine isName_file h.1 ?_ ?_ <;> cases kind <;> decide
    rw [packageWay, if_neg hkind]
    cases kind <;> first | exact absurd rfl hkind | exact Path.div_name hname base

theorem isName_packageWay {name : Text} (h : Path.IsName name) (kind : PackageKind) :
    ∀ n ∈ packageWay kind name, Path.IsName n := by
  intro n hn
  rw [packageWay] at hn
  split at hn
  · rw [List.mem_singleton.mp hn]
    exact h
  · rw [List.mem_singleton.mp hn]
    exact isName_file h.1 (by cases kind <;> decide) (by cases kind <;> decide)

/-- What is made for a package lies in what belongs to it. -/
theorem packageWay_prefix {name : Text} (h : Path.IsName name) (kind : PackageKind) :
    ∀ x ∈ filesOf (packageFiles kind name), packageWay kind name <+: x.1 := by
  intro x hx
  rcases (filesOf_package h kind).2 with ⟨hkind, t, u, hthings⟩ | ⟨hkind, t, hthings⟩
  · rw [packageWay, if_pos hkind]
    rw [hthings] at hx
    rcases List.mem_cons.mp hx with rfl | hx
    · exact ⟨[_], rfl⟩
    · rw [List.mem_singleton.mp hx]
      exact ⟨[_], rfl⟩
  · rw [hthings, List.mem_singleton] at hx
    rw [packageWay, if_neg hkind, hx]

theorem createPackagePlan_eq {name : Text} (h : Path.IsName name) (kind : PackageKind)
    (base barrel : Path) : createPackagePlan kind name base barrel
      = (.record (base.below (packageWay kind name)) :: making base (filesOf (packageFiles kind name)))
        ++ [.snapshot barrel, .edit barrel (.append (Snippet.barrelEntry name))] := by
  rw [createPackagePlan, makeSteps_eq (filesOf_package h kind).1, packageRoot_eq h]

/-! ### What can be made -/

variable {d : Disk} {base : Location}

theorem source_tsx (stem : Text) : Path.IsSource (stem ++ ".tsx".toList) := ⟨stem, Or.inr rfl⟩

/-- A role can be made where nothing is seen. -/
theorem makable_role (desc : Descriptor) (hlevel : d.Level top) (hclosed : d.tree.Closed)
    (hno : (Job.isThere top).on d = (.ok false, d)) : Makable d top (roleThings desc) := by
  rcases roleThings_eq desc with ⟨t, hthings⟩
  have hnames : (roleThings desc).map Prod.fst = [["assets".toList], ["api".toList], ["modules".toList],
      ["routes".toList], registryNames, [".aviators-role.json".toList]] := by
    rw [hthings]
    rfl
  have hstraight : ∀ x ∈ roleThings desc, ['.', '.'] ∉ x.1 := by
    rw [← List.forall_mem_map (f := Prod.fst) (P := fun names => ['.', '.'] ∉ names), hnames]
    decide
  refine ⟨hlevel, hstraight, ?_, fun names u hx => ?_, fun names u hx => ?_⟩
  -- No two of them lie inside each other.
  · rw [← List.pairwise_map (f := Prod.fst) (R := fun xs ys => ¬ ys <+: xs), hnames]
    decide
  · exact hlevel.absent_below hclosed hno (hstraight _ hx)
  · rw [hthings] at hx
    simp only [List.mem_cons, List.not_mem_nil, or_false, Prod.mk.injEq, reduceCtorEq, and_false,
      false_or] at hx
    rw [hx.1]
    exact ⟨["routes".toList], "route.tsx".toList, rfl, source_tsx "route".toList⟩

/-- The names on the way to a file of a module. -/
theorem isName_module {segment : Text} (hseg : Path.IsName segment) {names : List Text}
    (h : ∀ name ∈ names, Path.IsName name) :
    ∀ name ∈ "modules".toList :: segment :: names, Path.IsName name := by
  intro name hname
  rcases List.mem_cons.mp hname with rfl | hname
  · exact ⟨by decide, by decide, by decide, by decide⟩
  · rcases List.mem_cons.mp hname with rfl | hname
    · exact hseg
    · exact h name hname

/-- The component of a module is none of the other things in its folder. -/
theorem component_ne {m : ModuleRef} (h : m.Spelled) : m.name ++ ".tsx".toList ≠ "pages".toList
    ∧ m.segment ++ ".route.tsx".toList ≠ "pages".toList
    ∧ m.segment ++ ".route.tsx".toList ≠ m.name ++ ".tsx".toList := by
  have hdot : ∀ {t stem : Text} (rest : Text), t = stem ++ '.' :: rest → '.' ∈ t := by
    rintro t stem rest rfl
    simp
  refine ⟨fun heq => ?_, fun heq => ?_, fun heq => ?_⟩
  · exact absurd (hdot "tsx".toList heq.symm) (by decide)
  · exact absurd (hdot "route.tsx".toList heq.symm) (by decide)
  · rw [show ".route.tsx".toList = ".route".toList ++ ".tsx".toList from rfl, ← List.append_assoc] at heq
    have hmem := hdot "route".toList (List.append_cancel_right heq).symm
    exact absurd (h.name '.' hmem) (by decide)

theorem prefix_last (xs : List Text) {y z : Text} (h : xs ++ [z] <+: xs ++ [y]) : z = y := by
  rw [List.prefix_append_right_inj] at h
  exact (List.cons_prefix_cons.mp h).1

/-- Everything that is made for a module lies in its folder. -/
theorem mem_moduleThings {m : ModuleRef} (h : m.Spelled) (hseg : m.segment ≠ []) {dialect : Dialect}
    {x : List Text × Made} (hx : x ∈ moduleThings dialect m) : ∃ file,
      x.1 = ["modules".toList, m.segment, file] ∧ Path.IsName file
        ∧ ∀ t, x.2 = .newFile t → Path.IsSource file := by
  rw [(moduleThings_eq h hseg dialect).2] at hx
  rcases List.mem_cons.mp hx with rfl | hx
  · exact ⟨"pages".toList, rfl, ⟨by decide, by decide, by decide, by decide⟩,
      fun t ht => absurd ht (by simp)⟩
  · rcases List.mem_cons.mp hx with rfl | hx
    · exact ⟨_, rfl, isName_component h.name, fun _ _ => source_tsx _⟩
    -- Only a flat module has a route file of its own.
    · cases dialect with
      | marker => exact absurd hx (by simp)
      | flat =>
          rw [List.mem_singleton.mp hx]
          refine ⟨_, rfl, isName_routeFile h.segment, fun _ _ => ⟨m.segment ++ ".route".toList, Or.inr ?_⟩⟩
          rw [List.append_assoc]
          rfl

/-- No two things that are made for a module have one name. -/
theorem apart_moduleThings {m : ModuleRef} (h : m.Spelled) (hseg : m.segment ≠ []) (dialect : Dialect) :
    (moduleThings dialect m).Pairwise fun x y => ¬ y.1 <+: x.1 := by
  have hlast : ∀ {y z : Text}, ["modules".toList, m.segment, z] <+: ["modules".toList, m.segment, y] →
      z = y := fun h =>
    prefix_last ["modules".toList, m.segment] h
  rcases component_ne h with ⟨hpages, hpages', hother⟩
  rw [(moduleThings_eq h hseg dialect).2]
  cases dialect with
  | marker => simpa using fun hpre => hpages (hlast hpre)
  | flat =>
      simp only [List.pairwise_cons, List.mem_cons, List.not_mem_nil, or_false, forall_eq_or_imp,
        forall_eq, List.Pairwise.nil, and_true]
      exact ⟨⟨fun hpre => hpages (hlast hpre), fun hpre => hpages' (hlast hpre)⟩,
        fun hpre => hother (hlast hpre), fun _ h => h.elim⟩

/-- A module can be made in the folder of its role where nothing is seen at its
    own. -/
theorem makable_module {m : ModuleRef} (h : m.Spelled) (hseg : m.segment ≠ []) (dialect : Dialect)
    (hfound : d.find top = .ok base) (hfolder : d.tree.get? base = some .folder)
    (hclosed : d.tree.Closed)
    (hno : (Job.isThere (top.below ["modules".toList, m.segment])).on d = (.ok false, d)) :
    Makable d top (moduleThings dialect m) := by
  have hname := isName_of_tame h.segment hseg
  have hlevel := level_of_found hfound hfolder
  refine ⟨hlevel, fun x hx => ?_, apart_moduleThings h hseg dialect, fun names t hx => ?_,
    fun names t hx => ?_⟩
  · rcases mem_moduleThings h hseg hx with ⟨file, hx, hfile, -⟩
    rw [hx]
    exact Path.not_up_of_names (isName_module hname (by simpa using hfile))
  · rcases mem_moduleThings h hseg hx with ⟨file, hx, hfile, -⟩
    dsimp only at hx
    have hown : d.Level (top.below ["modules".toList, m.segment]) :=
      hlevel.below (Path.not_up_of_names (isName_module hname fun _ h => absurd h (by simp)))
    -- The module was not there, so nothing below it was.
    have hup : ['.', '.'] ∉ [file] := Path.not_up_of_names (by simpa using hfile)
    have hbelow := hown.absent_below hclosed hno hup
    rw [Path.below_below] at hbelow
    rw [hx]
    exact hbelow
  · rcases mem_moduleThings h hseg hx with ⟨file, hx, -, hsource⟩
    exact ⟨["modules".toList, m.segment], file, hx, hsource t rfl⟩

/-- A page can be made in the folder of its role where nothing is seen at its
    file. -/
theorem makable_page {p : PageRef} (h : p.Spelled) (hseg : p.module.segment ≠ [])
    (hfound : d.find top = .ok base) (hfolder : d.tree.get? base = some .folder)
    (hclosed : d.tree.Closed)
    (hno : ∀ file ∈ (filesIn top (pageFiles p)).map Prod.fst, (Job.isThere file).on d = (.ok false, d)) :
    Makable d top (filesOf (pageFiles p)) := by
  have hlevel := level_of_found hfound hfolder
  have hnames : ['.', '.'] ∉ ["modules".toList, p.module.segment, "pages".toList,
      p.name ++ ".tsx".toList] := by
    refine Path.not_up_of_names (isName_module (isName_of_tame h.module.segment hseg) ?_)
    intro name hname
    simp only [List.mem_cons, List.not_mem_nil, or_false] at hname
    rcases hname with rfl | rfl
    · exact ⟨by decide, by decide, by decide, by decide⟩
    · exact isName_component h.name
  rw [filesIn_page h hseg] at hno
  rw [filesOf_page h hseg]
  refine ⟨hlevel, fun x hx => ?_, List.pairwise_singleton _ _, fun names t hx => ?_, fun names t hx => ?_⟩
  · rw [List.mem_singleton.mp hx]
    exact hnames
  · rw [List.mem_singleton, Prod.mk.injEq] at hx
    rw [hx.1]
    exact (hlevel.below hnames).absent hclosed (hno _ (by simp))
  · rw [List.mem_singleton, Prod.mk.injEq] at hx
    exact ⟨["modules".toList, p.module.segment, "pages".toList], p.name ++ ".tsx".toList, hx.1,
      source_tsx _⟩

/-- The files of a package have names of their own. -/
theorem mem_filesOf_package {name : Text} (h : Path.IsName name) {kind : PackageKind}
    {x : List Text × Made} (hx : x ∈ filesOf (packageFiles kind name)) :
    ∃ ns file t, x = (ns ++ [file], .newFile t) ∧ (∀ n ∈ ns ++ [file], Path.IsName n)
      ∧ Path.IsSource file ∧ (ns = [] ∨ ns = [name]) := by
  have hfile : ∀ {suffix : Text}, '/' ∉ suffix → 2 < suffix.length → Path.IsName (name ++ suffix) :=
    fun hslash hlen => isName_file h.1 hslash hlen
  rcases (filesOf_package h kind).2 with ⟨-, t, u, hthings⟩ | ⟨hkind, t, hthings⟩
  -- A component has its file and its barrel in one folder.
  · rw [hthings] at hx
    rcases List.mem_cons.mp hx with rfl | hx
    · refine ⟨[name], _, t, rfl, ?_, source_tsx _, Or.inr rfl⟩
      simpa using ⟨h, hfile (by decide) (by decide)⟩
    · rw [List.mem_singleton.mp hx]
      refine ⟨[name], _, u, rfl, ?_, ⟨"index".toList, Or.inl rfl⟩, Or.inr rfl⟩
      simpa using ⟨h, by decide, by decide, by decide, by decide⟩
  · rw [hthings, List.mem_singleton] at hx
    rw [hx]
    refine ⟨[], _, t, rfl, ?_, ⟨name, ?_⟩, Or.inl rfl⟩
    · simpa using hfile (by cases kind <;> decide) (by cases kind <;> decide)
    · cases kind <;> first | exact Or.inl rfl | exact Or.inr rfl

/-- A package can be made in the folder of its kind where nothing is seen at its
    files. -/
theorem makable_package {name : Text} (h : Path.IsName name) (kind : PackageKind)
    (hfound : d.find top = .ok base) (hfolder : d.tree.get? base = some .folder)
    (hclosed : d.tree.Closed) (hno : ∀ file ∈ (filesIn top (packageFiles kind name)).map Prod.fst,
      (Job.isThere file).on d = (.ok false, d)) :
    Makable d top (filesOf (packageFiles kind name)) := by
  have hlevel := level_of_found hfound hfolder
  have hstraight : ∀ x ∈ filesOf (packageFiles kind name), ['.', '.'] ∉ x.1 := by
    intro x hx
    rcases mem_filesOf_package h hx with ⟨ns, file, t, rfl, hnames, -, -⟩
    exact Path.not_up_of_names hnames
  refine ⟨hlevel, hstraight, ?_, fun names t hx => ?_, fun names t hx => ?_⟩
  · rcases (filesOf_package h kind).2 with ⟨-, t, u, hthings⟩ | ⟨-, t, hthings⟩
    · rw [hthings]
      -- A barrel does not have the name of a component.
      have hne : "index.ts".toList ≠ name ++ ".tsx".toList := by
        intro heq
        have hlast := congrArg (fun t : Text => t.reverse.head?) heq
        simp at hlast
      simpa using fun heq => hne (prefix_last [name] heq)
    · rw [hthings]
      exact List.pairwise_singleton _ _
  · refine (hlevel.below (hstraight _ hx)).absent hclosed (hno _ ?_)
    rw [filesIn_eq (filesOf_package h kind).1, List.map_map]
    rcases List.mem_map.mp hx with ⟨f, hf, heq⟩
    exact List.mem_map.mpr ⟨f, hf, congrArg (fun x : List Text × Made => top.below x.1) heq⟩
  · rcases mem_filesOf_package h hx with ⟨ns, file, u, heq, -, hsource, -⟩
    rw [Prod.mk.injEq] at heq
    exact ⟨ns, file, heq.1, hsource⟩

end Project

end RouteScaffold
