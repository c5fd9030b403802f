import RouteScaffold.Proofs.Journal.Footprint
import RouteScaffold.Proofs.Project.Creation
import RouteScaffold.Proofs.Registry.Removal

/-!
# The Footprints of Commands

A command is about one artifact, and whatever becomes of the command, the files
that it adds, changes or removes belong to that artifact, or are the one file in
which it is listed: the barrel of its kind, the registry of its role, or the route
file of its module. Nothing that a command is given leads further. Names and
segments are single names, so where they lead is one step down from a folder that
only the settings tell.

What is made is new. A command that makes something changes no file that was there
before but the one in which the artifact is listed. Again there is one exception: a
role that hides behind a folder that is missing may be there already, and then it
gets a new descriptor.

The tool's own folder is left out, since the documents of intents come and go in
it.

## Main definitions

* `Deletion`, `Command`: The commands that remove something, and all of them.
* `Target.Footprint`: Where the files of an artifact are, and the file in which it
  is listed.
* `Creation.Relists`: What a command that makes something may change.

## Theorems

* `Creation.order_within`: What a command is about to do lies in its footprint.
* `Command.changes_in_footprint`: What a command has changed lies in its footprint.
-/

namespace RouteScaffold

open Job Disk RouteScaffold.Tree Naming

/-- The commands that remove something, with what they are given. -/
inductive Deletion where
  | role (raw : Option Text)
  | module (ofRole raw : Option Text) (missingOk : Bool)
  | page (ofRole ofModule raw : Option Text) (missingOk : Bool)
  | package (kind : PackageKind) (raw : Option Text) (missingOk : Bool)

/-- The command itself. -/
def Deletion.run (p : Project) : Deletion → Job Artifact
  | .role raw => p.deleteRole raw
  | .module ofRole raw missingOk => p.deleteModule ofRole raw missingOk
  | .page ofRole ofModule raw missingOk => p.deletePage ofRole ofModule raw missingOk
  | .package kind raw missingOk => p.deletePackage kind raw missingOk

/-- The commands that make or remove an artifact. -/
inductive Command where
  | create (c : Creation)
  | delete (c : Deletion)

/-- What a command is about. -/
inductive Target where
  | role (raw : Option Text)
  | module (ofRole raw : Option Text)
  | page (ofRole ofModule raw : Option Text)
  | package (kind : PackageKind) (raw : Option Text)

namespace Command

/-- The command itself. -/
def run (p : Project) : Command → Job Artifact
  | create c => c.run p
  | delete c => c.run p

/-- What a command is about. -/
def target : Command → Target
  | create (.role raw _) | delete (.role raw) => .role raw
  | create (.module ofRole raw) | delete (.module ofRole raw _) => .module ofRole raw
  | create (.page ofRole ofModule raw) | delete (.page ofRole ofModule raw _) => .page ofRole ofModule raw
  | create (.package kind raw) | delete (.package kind raw _) => .package kind raw

end Command

/-! ### Footprints -/

namespace Project

/-- The barrel of a kind, or where a package of it is. -/
def PackageFootprint (p : Project) (d : Disk) (kind : PackageKind) (name : Text) (l : Location) : Prop :=
  Path.IsName name ∧ ∃ base, p.layout.packageFolder kind = .ok base
    ∧ (l = spot d.here base ++ ["index.ts".toList] ∨ spot d.here base ++ packageWay kind name <+: l)

/-- The folder of a role. -/
def RoleFootprint (p : Project) (d : Disk) (role : Text) (l : Location) : Prop :=
  Path.IsName role ∧ ∃ roles, p.layout.rolesRoot = .ok roles ∧ spot d.here roles ++ [role] <+: l

/-- The folder of a module, or the registry of its role. -/
def ModuleFootprint (p : Project) (d : Disk) (m : ModuleRef) (l : Location) : Prop :=
  Path.IsName m.role ∧ Path.IsName m.segment ∧ ∃ roles, p.layout.rolesRoot = .ok roles
    ∧ (l = spot d.here roles ++ (m.role :: registryNames)
      ∨ spot d.here roles ++ [m.role, "modules".toList, m.segment] <+: l)

/-- The file in which a page is routed, by the dialect of its role: the registry of
    the role, or the route file of the module. -/
def pageListing (dialect : Dialect) (m : ModuleRef) : List Text :=
  match dialect with
  | .marker => m.role :: registryNames
  | .flat => [m.role, "modules".toList, m.segment, m.segment ++ ".route.tsx".toList]

/-- The file of a page, or the one in which it is routed. -/
def PageFootprint (p : Project) (d : Disk) (dialect : Dialect) (r : PageRef) (l : Location) : Prop :=
  Path.IsName r.module.role ∧ Path.IsName r.module.segment ∧ Path.IsName r.name ∧ ∃ roles,
    p.layout.rolesRoot = .ok roles ∧ (l = spot d.here roles ++ pageListing dialect r.module
      ∨ spot d.here roles ++ [r.module.role, "modules".toList, r.module.segment, "pages".toList,
        r.name ++ ".tsx".toList] <+: l)

end Project

/-- Where the files of an artifact are, and the file in which it is listed. There is
    neither unless what is given has a name. -/
def Target.Footprint (p : Project) (d : Disk) : Target → Location → Prop
  | .role raw, l => ∃ named, Kind.role.named raw = .ok named ∧ p.RoleFootprint d named.name l
  | .module ofRole raw, l => ∃ t, (p.moduleTarget ofRole raw).on d = (.ok t, d)
    ∧ p.ModuleFootprint d t.ref l
  | .page ofRole ofModule raw, l => ∃ t, (p.pageTarget ofRole ofModule raw).on d = (.ok t, d)
    ∧ p.PageFootprint d t.within.registry.dialect t.ref l
  | .package kind raw, l => ∃ named, (Kind.package kind).named raw = .ok named
    ∧ p.PackageFootprint d kind named.name l

/-- What a command that makes something may change of what is there: the file in
    which the artifact is listed, or, if the role may be hidden, the two files of the
    role. -/
def Creation.Relists (p : Project) (d : Disk) : Creation → Location → Prop
  | .role raw _, l => ∃ named folder, Kind.role.named raw = .ok named
    ∧ p.layout.roleFolder named.name = .ok folder ∧ ¬ d.Level folder
    ∧ (l = spot d.here folder ++ Project.registryNames
      ∨ l = spot d.here folder ++ [".aviators-role.json".toList])
  | .module ofRole raw, l => ∃ t folder, (p.moduleTarget ofRole raw).on d = (.ok t, d)
    ∧ p.layout.roleFolder t.ref.role = .ok folder ∧ l = spot d.here folder ++ Project.registryNames
  | .page ofRole ofModule raw, l => ∃ t roles, (p.pageTarget ofRole ofModule raw).on d = (.ok t, d)
    ∧ p.layout.rolesRoot = .ok roles
    ∧ l = spot d.here roles ++ Project.pageListing t.within.registry.dialect t.ref.module
  | .package kind _, l => ∃ base, p.layout.packageFolder kind = .ok base
    ∧ l = spot d.here base ++ ["index.ts".toList]

/-- Where a command that makes something puts a file. -/
def Creation.Puts (p : Project) (d : Disk) (c : Creation) (l : Location) : Prop :=
  (Command.create c).target.Footprint p d l ∧ (c.Relists p d l ∨ d.tree.get? l = none)

/-! ### What is made -/

namespace Layout

/-- The folder of a role is one step down from that of all roles. -/
theorem rolesRoot_of_roleFolder {l : Layout} {role : Text} {folder : Path} (hrole : Path.IsName role)
    (h : l.roleFolder role = .ok folder) : ∃ roles, l.rolesRoot = .ok roles ∧ folder = roles.below [role] := by
  rw [roleFolder] at h
  cases hroot : l.rolesRoot with
  | error f =>
      rw [hroot] at h
      exact absurd h (by simp [bind, Except.bind])
  | ok roles =>
      rw [hroot] at h
      exact ⟨roles, rfl, by rw [← Path.div_name hrole]; exact (Except.ok.inj h).symm⟩

/-- The folder of a kind of package is one step down from that of all packages. -/
theorem packagesRoot_of_packageFolder {l : Layout} {kind : PackageKind} {folder : Path}
    (h : l.packageFolder kind = .ok folder) :
    ∃ packages, l.packagesRoot = .ok packages ∧ folder = packages.below [kind.folder] := by
  have hkind : Path.IsName kind.folder := by
    cases kind <;> exact ⟨by decide, by decide, by decide, by decide⟩
  rw [packageFolder, folderIn] at h
  cases hroot : l.packagesRoot with
  | error f =>
      rw [hroot] at h
      exact absurd h (by simp [bind, Except.bind])
  | ok packages =>
      rw [hroot] at h
      exact ⟨packages, rfl, by rw [← Path.div_name hkind]; exact (Except.ok.inj h).symm⟩

end Layout

namespace Project

variable {p : Project} {d : Disk}

/-- The order of a command, every step of which works within a footprint. -/
def PlanWithin (d : Disk) (S : Location → Prop) (o : Order) : Prop := ∀ s ∈ o.plan, s.Confined d.here S

theorem packageCreation_within (kind : PackageKind) (raw : Option Text) (hclosed : d.tree.Closed) :
    Decides d (PlanWithin d (Creation.Puts p d (.package kind raw))) (p.packageCreation kind raw) := by
  refine decides_bind (looks_packageTarget p kind raw) fun t ht => ?_
  rcases t with ⟨named, base⟩
  rcases packageTarget_ok ht with ⟨hnamed, hbase, loc, hfind, hfolder⟩
  have hname := (named_package hnamed).1
  refine decides_bind (looks_requireAbsent _) fun _ habsent => decides_ofExcept fun barrel hbarrel =>
    decides_pure ?_
  rw [barrel_eq hbase, Except.ok.injEq] at hbarrel
  subst hbarrel
  have hmakable := makable_package hname kind hfind hfolder hclosed (requireAbsent_ok habsent)
  have hbarrel : spot d.here (base.below ["index.ts".toList]) = spot d.here base ++ ["index.ts".toList] :=
    spot_below _ _ (by decide)
  change ∀ s ∈ createPackagePlan kind named.name base (base.below ["index.ts".toList]), _
  rw [createPackagePlan_eq hname]
  refine List.forall_mem_append.mpr ⟨List.forall_mem_cons.mpr ⟨trivial, ?_⟩, ?_⟩
  -- The files are new, and lie in the folder of the package.
  · refine confined_making hmakable.straight fun x hx _ hwalk => ?_
    rcases mem_filesOf_package hname hx with ⟨ns, file, t, rfl, -, -, -⟩
    have habsent := hmakable.absent _ t hx hwalk
    rw [hmakable.spot_eq hx] at habsent
    have hbelow := packageWay_prefix hname kind _ hx
    exact ⟨⟨named, hnamed, hname, base, hbase, Or.inr ((List.prefix_append_right_inj _).mpr hbelow)⟩, Or.inr habsent⟩
  -- The barrel is the one file of others that may change.
  · have hlisted : Creation.Puts p d (.package kind raw) (spot d.here (base.below ["index.ts".toList])) := by
      rw [hbarrel]
      exact ⟨⟨named, hnamed, hname, base, hbase, Or.inl rfl⟩, Or.inl ⟨base, hbase, rfl⟩⟩
    simp only [List.forall_mem_cons, List.not_mem_nil, false_imp_iff, implies_true, and_true]
    exact ⟨trivial, fun _ => hlisted⟩

theorem roleCreation_within (raw dialect : Option Text) (hclosed : d.tree.Closed) :
    Decides d (PlanWithin d (Creation.Puts p d (.role raw dialect))) (p.roleCreation raw dialect) := by
  refine decides_ofExcept fun named hnamed => decides_ofExcept fun wanted _ =>
    decides_ofExcept fun folder hfolder => ?_
  refine decides_bind (looks_isThere folder) fun there hthere => decides_refuse fun hno => ?_
  refine decides_ofExcept fun descriptor hdescriptor => decides_pure ?_
  rw [Bool.not_eq_true] at hno
  subst hno
  have hrole := isName_role (Kind.role_named hnamed).2.2
  rcases Layout.rolesRoot_of_roleFolder hrole hfolder with ⟨roles, hroles, hbelow⟩
  have hspot : spot d.here folder = spot d.here roles ++ [named.name] := by
    rw [hbelow]
    exact spot_below _ _ (Path.not_up_of_names (by simpa using hrole))
  rw [Layout.descriptorFile_eq hfolder, Except.ok.injEq] at hdescriptor
  subst hdescriptor
  rcases roleThings_eq ⟨named.name, wanted, p.now⟩ with ⟨t, hthings⟩
  have hstraight : ∀ x ∈ roleThings ⟨named.name, wanted, p.now⟩, ['.', '.'] ∉ x.1 := by
    rw [hthings]
    simp only [List.forall_mem_cons, List.not_mem_nil, false_imp_iff, implies_true, and_true]
    decide
  change ∀ s ∈ createRolePlan ⟨named.name, wanted, p.now⟩ folder _, _
  rw [createRolePlan_eq]
  refine List.forall_mem_cons.mpr ⟨trivial, confined_making hstraight fun x hx hmade hwalk => ?_⟩
  refine ⟨⟨named, hnamed, hrole, roles, hroles, by rw [hspot]; exact List.prefix_append _ _⟩, ?_⟩
  by_cases hlevel : d.Level folder
  · have habsent := hlevel.absent_below hclosed hthere (hstraight x hx) hwalk
    rw [spot_below _ _ (hstraight x hx)] at habsent
    exact Or.inr habsent
  · -- The role may be there already, behind the folder that is missing.
    refine Or.inl ⟨named, folder, hnamed, hfolder, hlevel, ?_⟩
    rw [hthings] at hx
    simp only [List.mem_cons, List.not_mem_nil, or_false] at hx
    rcases hx with rfl | rfl | rfl | rfl | rfl | rfl
    all_goals first | exact absurd rfl hmade | exact Or.inl rfl | exact Or.inr rfl

section Modules

variable {role module page : Option Text} {t : ModuleTarget} {folder : Path} {base : Location}
  {S : Location → Prop}

theorem ModuleFound.spot_folder (h : ModuleFound p role module d t folder base) :
    ∃ roles, p.layout.rolesRoot = .ok roles ∧ spot d.here folder = spot d.here roles ++ [t.ref.role] := by
  have hrole := isName_role h.roleName
  rcases Layout.rolesRoot_of_roleFolder hrole h.folder_eq with ⟨roles, hroles, hbelow⟩
  refine ⟨roles, hroles, ?_⟩
  rw [hbelow]
  exact spot_below _ _ (Path.not_up_of_names (by simpa using hrole))

/-- A file in which something is routed is the registry, or the route file of the
    module. -/
theorem ModuleFound.spot_pageFile (h : ModuleFound p role module d t folder base) {ref : PageRef}
    (href : ref.module = t.ref) {roles : Path}
    (hspot : spot d.here folder = spot d.here roles ++ [t.ref.role]) :
    spot d.here (t.registry.pageFile ref) = spot d.here roles ++ pageListing t.registry.dialect t.ref := by
  have hseg := h.isName_segment
  rw [Registry.pageFile]
  cases hdialect : t.registry.dialect with
  | marker =>
      rw [h.registry_eq]
      dsimp only
      rw [spot_below _ _ (by decide), hspot, List.append_assoc]
      rfl
  | flat =>
      have hroute := routeFile_eq h.accepted.spelled (accepts_segment_ne h.accepted) t.registry.dialect
        (folder.below registryNames) folder
      -- The file is named after the module, so its way is straight.
      have hstraight : ['.', '.'] ∉ ["modules".toList, t.ref.segment, t.ref.segment ++ ".route.tsx".toList] :=
        Path.not_up_of_names (isName_module hseg fun name hname => by
          rw [List.mem_singleton.mp hname]
          exact isName_routeFile h.accepted.spelled.segment)
      dsimp only
      rw [href, h.registry_eq]
      change spot d.here (Registry.routeFile ⟨_, folder.below registryNames, _⟩ t.ref) = _
      rw [hroute, spot_below _ _ hstraight, hspot, List.append_assoc]
      rfl

/-- The steps of a revision work in its file. -/
theorem confined_revision {here : Location} {file : Path} (h : S (spot here file)) (edits : List Edit) :
    ∀ s ∈ Step.snapshot file :: edits.map (Step.edit file), s.Confined here S := by
  refine List.forall_mem_cons.mpr ⟨trivial, fun s hs => ?_⟩
  rcases List.mem_map.mp hs with ⟨e, -, rfl⟩
  exact fun _ => h

theorem moduleCreation_within (role module : Option Text) (hclosed : d.tree.Closed) :
    Decides d (PlanWithin d (Creation.Puts p d (.module role module))) (p.moduleCreation role module) := by
  refine decides_bind (looks_moduleTarget p role module) fun t ht => ?_
  rcases moduleTarget_ok ht with ⟨folder, base, hfound⟩
  rcases hfound.spot_folder with ⟨roles, hroles, hspot⟩
  have hspelled := hfound.accepted.spelled
  have hseg := accepts_segment_ne hfound.accepted
  have hrole := isName_role hfound.roleName
  refine decides_ofExcept fun own hown => ?_
  rw [hfound.moduleFolder_eq, Except.ok.injEq] at hown
  subst hown
  refine decides_bind (looks_isThere _) fun there hthere => decides_refuse fun hno => ?_
  refine decides_bind (looks_guard _) fun _ _ => decides_ofExcept fun roleFolder hfolder =>
    decides_pure ?_
  rw [Bool.not_eq_true] at hno
  subst hno
  rw [hfound.folder_eq, Except.ok.injEq] at hfolder
  subst hfolder
  have hmakable := makable_module hspelled hseg t.registry.dialect hfound.found hfound.isFolder hclosed hthere
  change ∀ s ∈ createModulePlan t.registry t.ref folder _, _
  rw [createModulePlan_eq hspelled hseg]
  refine List.forall_mem_append.mpr ⟨List.forall_mem_cons.mpr ⟨trivial, ?_⟩, confined_revision ?_ _⟩
  · refine confined_making hmakable.straight fun x hx hmade hwalk => ?_
    rcases mem_moduleThings hspelled hseg hx with ⟨file, hway, -, -⟩
    refine ⟨⟨t, ht, hrole, hfound.isName_segment, roles, hroles, Or.inr ?_⟩, Or.inr ?_⟩
    · rw [hspot, hway, List.append_assoc]
      exact (List.prefix_append_right_inj _).mpr ⟨[file], rfl⟩
    · rw [← hmakable.spot_eq hx]
      rcases x with ⟨names, made⟩
      -- The files of a module are all new, so each of them has been looked for.
      rw [(moduleThings_eq hspelled hseg t.registry.dialect).2] at hx
      cases made with
      | folder => exact absurd rfl hmade
      | newFile u =>
          rw [← (moduleThings_eq hspelled hseg t.registry.dialect).2] at hx
          exact hmakable.absent names u hx hwalk
      | file u =>
          cases hdialect : t.registry.dialect <;> rw [hdialect] at hx <;> simp at hx
  · have hfile : spot d.here (t.registry.guard (.module t.ref)).file
        = spot d.here roles ++ (t.ref.role :: registryNames) := by
      rw [hfound.guard_module_file, spot_below _ _ (by decide), hspot, List.append_assoc]
      rfl
    rw [hfile]
    refine ⟨⟨t, ht, hrole, hfound.isName_segment, roles, hroles, Or.inl rfl⟩,
      Or.inl ⟨t, folder, ht, hfound.folder_eq, ?_⟩⟩
    rw [hspot, List.append_assoc]
    rfl

theorem pageCreation_within (role module page : Option Text) (hclosed : d.tree.Closed) :
    Decides d (PlanWithin d (Creation.Puts p d (.page role module page))) (p.pageCreation role module page) := by
  refine decides_bind (looks_pageTarget p role module page) fun t ht => ?_
  rcases pageTarget_ok ht with ⟨folder, base, hfound, href, haccepted, -, -⟩
  rcases hfound.spot_folder with ⟨roles, hroles, hspot⟩
  have hspelled := haccepted.spelled
  have hseg : t.ref.module.segment ≠ [] := accepts_segment_ne haccepted.1
  refine decides_ofExcept fun roleFolder hfolder => ?_
  rw [href, hfound.folder_eq, Except.ok.injEq] at hfolder
  subst hfolder
  refine decides_bind (looks_requireAbsent _) fun _ habsent => ?_
  refine decides_bind (looks_guard _) fun _ _ => decides_pure ?_
  have hmakable := makable_page hspelled hseg hfound.found hfound.isFolder hclosed
    (requireAbsent_ok habsent)
  have hnames : Path.IsName t.ref.module.role ∧ Path.IsName t.ref.module.segment
      ∧ Path.IsName t.ref.name := by
    rw [href]
    exact ⟨isName_role hfound.roleName, hfound.isName_segment,
      isName_of_tame hspelled.name (accepts_name_ne haccepted.2)⟩
  change ∀ s ∈ createPagePlan t.within.registry t.ref folder, _
  rw [createPagePlan_eq hspelled hseg]
  refine List.forall_mem_append.mpr ⟨List.forall_mem_cons.mpr ⟨trivial, ?_⟩, confined_revision ?_ _⟩
  · refine confined_making hmakable.straight fun x hx _ hwalk => ?_
    rw [← hmakable.spot_eq hx]
    rw [filesOf_page hspelled hseg, List.mem_singleton] at hx
    subst hx
    refine ⟨⟨t, ht, hnames.1, hnames.2.1, hnames.2.2, roles, hroles, Or.inr ?_⟩,
      Or.inr (hmakable.absent _ (pageText t.ref) (by rw [filesOf_page hspelled hseg]; simp) hwalk)⟩
    rw [hmakable.spot_eq (by rw [filesOf_page hspelled hseg]; simp), hspot, List.append_assoc, href]
    exact List.prefix_refl _
  -- The registry is that of the role in one dialect, and that of the module in the other.
  · have hfile : (t.within.registry.guard (.page t.ref)).file = t.within.registry.pageFile t.ref := by
      rcases t.within.registry with ⟨dialect, file, modules⟩
      cases dialect <;> rfl
    rw [hfile, hfound.spot_pageFile href hspot, ← href]
    exact ⟨⟨t, ht, hnames.1, hnames.2.1, hnames.2.2, roles, hroles, Or.inl rfl⟩,
      Or.inl ⟨t, roles, ht, hroles, rfl⟩⟩

/-! ### What is removed -/

theorem moduleDeletion_within (role module : Option Text) (missingOk : Bool) :
    Decides d (PlanWithin d ((Target.module role module).Footprint p d))
      (p.moduleDeletion role module missingOk) := by
  refine decides_bind (looks_moduleTarget p role module) fun t ht => ?_
  rcases moduleTarget_ok ht with ⟨folder, base, hfound⟩
  rcases hfound.spot_folder with ⟨roles, hroles, hspot⟩
  have hrole := isName_role hfound.roleName
  have hseg := hfound.isName_segment
  refine decides_ofExcept fun own hown => ?_
  rw [hfound.moduleFolder_eq, Except.ok.injEq] at hown
  subst hown
  refine decides_bind (looks_isThere _) fun there _ => decides_require fun _ => decides_pure ?_
  have hregistry : (t.registry.removeModule t.ref).file = t.registry.file := by
    rw [Registry.removeModule]
    cases t.registry.dialect <;> rfl
  have hfile : spot d.here t.registry.file = spot d.here roles ++ (t.ref.role :: registryNames) := by
    rw [hfound.registry_eq]
    dsimp only
    rw [spot_below _ _ (by decide), hspot, List.append_assoc]
    rfl
  have hown : spot d.here (folder.below ["modules".toList, t.ref.segment])
      = spot d.here roles ++ [t.ref.role, "modules".toList, t.ref.segment] := by
    rw [spot_below _ _ (Path.not_up_of_names (isName_module hseg fun _ h => absurd h (by simp))), hspot,
      List.append_assoc]
    rfl
  change ∀ s ∈ Step.snapshot t.registry.file :: ((t.registry.removeModule t.ref).edits.map
    (Step.edit (t.registry.removeModule t.ref).file) ++ [Step.remove _ true]), _
  rw [hregistry, ← List.cons_append]
  -- The registry may change, and everything below the folder of the module goes.
  refine List.forall_mem_append.mpr ⟨confined_revision ?_ _, List.forall_mem_singleton.mpr fun l hl => ?_⟩
  · rw [hfile]
    exact ⟨t, ht, hrole, hseg, roles, hroles, Or.inl rfl⟩
  · rw [hown] at hl
    exact ⟨t, ht, hrole, hseg, roles, hroles, Or.inr hl⟩

theorem pageDeletion_within (role module page : Option Text) (missingOk : Bool) :
    Decides d (PlanWithin d ((Target.page role module page).Footprint p d))
      (p.pageDeletion role module page missingOk) := by
  refine decides_bind (looks_pageTarget p role module page) fun t ht => ?_
  rcases pageTarget_ok ht with ⟨folder, base, hfound, href, haccepted, -, -⟩
  rcases hfound.spot_folder with ⟨roles, hroles, hspot⟩
  have hrole := isName_role hfound.roleName
  have hseg := hfound.isName_segment
  have hname := isName_of_tame haccepted.spelled.name (accepts_name_ne haccepted.2)
  have hview := isName_component haccepted.spelled.name
  refine decides_ofExcept fun pages hpages => ?_
  rw [href, Layout.pagesFolder_eq hfound.folder_eq hseg, Except.ok.injEq] at hpages
  subst hpages
  refine decides_bind (looks_isThere _) fun there _ => decides_require fun _ => decides_pure ?_
  -- The file that is revised is the one that is looked at, whatever the dialect.
  have hedits : ∀ s ∈ (if t.within.registry.pageFileMayBeAbsent then
      (t.within.registry.removePage t.ref).edits.map
        (Step.editIfPresent (t.within.registry.removePage t.ref).file)
      else reviseSteps (t.within.registry.removePage t.ref)),
      ∃ e, s = .edit (t.within.registry.pageFile t.ref) e
        ∨ s = .editIfPresent (t.within.registry.pageFile t.ref) e := by
    have hfile : (t.within.registry.removePage t.ref).file = t.within.registry.pageFile t.ref := by
      rw [Registry.removePage, Registry.pageFile]
      cases t.within.registry.dialect <;> rfl
    intro s hs
    rw [hfile] at hs
    split at hs
    · rcases List.mem_map.mp hs with ⟨e, -, rfl⟩
      exact ⟨e, Or.inr rfl⟩
    · rw [reviseSteps, hfile] at hs
      rcases List.mem_map.mp hs with ⟨e, -, rfl⟩
      exact ⟨e, Or.inl rfl⟩
  have hown : spot d.here (folder.below ["modules".toList, t.within.ref.segment, "pages".toList]
      / (t.ref.name ++ ".tsx".toList)) = spot d.here roles ++ [t.ref.module.role, "modules".toList,
        t.ref.module.segment, "pages".toList, t.ref.name ++ ".tsx".toList] := by
    have hstraight : ['.', '.'] ∉ ["modules".toList, t.within.ref.segment, "pages".toList,
        t.ref.name ++ ".tsx".toList] := by
      refine Path.not_up_of_names (isName_module hseg ?_)
      simp only [List.forall_mem_cons, List.not_mem_nil, false_imp_iff, implies_true, and_true]
      exact ⟨⟨by decide, by decide, by decide, by decide⟩, hview⟩
    rw [Path.div_name hview, Path.below_below]
    change spot d.here (folder.below ["modules".toList, t.within.ref.segment, "pages".toList,
      t.ref.name ++ ".tsx".toList]) = _
    rw [spot_below _ _ hstraight, hspot, List.append_assoc, href]
    rfl
  have hlisted : ∀ l, l = spot d.here roles ++ pageListing t.within.registry.dialect t.ref.module →
      (Target.page role module page).Footprint p d l := fun l hl =>
    ⟨t, ht, by rw [href]; exact hrole, by rw [href]; exact hseg, hname, roles, hroles, Or.inl hl⟩
  rw [href] at hlisted
  change ∀ s ∈ Step.snapshotIfPresent _ :: ((if t.within.registry.pageFileMayBeAbsent then _ else _)
    ++ [Step.remove _ true]), _
  refine List.forall_mem_cons.mpr ⟨trivial, List.forall_mem_append.mpr ⟨fun s hs => ?_,
    List.forall_mem_singleton.mpr fun l hl => ?_⟩⟩
  · rcases hedits s hs with ⟨e, rfl | rfl⟩
    all_goals exact fun _ => hlisted _ (hfound.spot_pageFile href hspot)
  · rw [hown] at hl
    exact ⟨t, ht, by rw [href]; exact hrole, by rw [href]; exact hseg, hname, roles, hroles, Or.inr hl⟩

end Modules

theorem packageDeletion_within (kind : PackageKind) (raw : Option Text) (missingOk : Bool) :
    Decides d (PlanWithin d ((Target.package kind raw).Footprint p d))
      (p.packageDeletion kind raw missingOk) := by
  refine decides_bind (looks_packageTarget p kind raw) fun t ht => ?_
  rcases t with ⟨named, base⟩
  rcases packageTarget_ok ht with ⟨hnamed, hbase, -⟩
  have hname := (named_package hnamed).1
  have hown : spot d.here (packageRoot kind named.name base)
      = spot d.here base ++ packageWay kind named.name := by
    rw [packageRoot_eq hname]
    exact spot_below _ _ (Path.not_up_of_names (isName_packageWay hname kind))
  refine decides_bind (looks_isThere _) fun there _ => decides_require fun _ =>
    decides_ofExcept fun barrel hbarrel => decides_pure ?_
  rw [barrel_eq hbase, Except.ok.injEq] at hbarrel
  subst hbarrel
  refine List.forall_mem_cons.mpr ⟨trivial, List.forall_mem_cons.mpr ⟨fun _ => ?_,
    List.forall_mem_singleton.mpr fun l hl => ?_⟩⟩
  · exact ⟨named, hnamed, hname, base, hbase, Or.inl (spot_below _ _ (by decide))⟩
  · rw [hown] at hl
    exact ⟨named, hnamed, hname, base, hbase, Or.inr hl⟩

/-- A role is removed without an intent. -/
theorem deleteRole_confined (d : Disk) (raw : Option Text) :
    Does d.here (Confined ((Target.role raw).Footprint p d)) (p.deleteRole raw) := by
  refine (does_ofExcept _).bind_of fun _ named d₁ _ hnamed hhere => ?_
  rw [on_ofExcept, Prod.mk.injEq] at hnamed
  have hrole := isName_role (Kind.role_named hnamed.1).2.2
  refine (Does.bind_of (does_ofExcept _) fun _ folder d₂ _ hfolder hhere₂ => ?_) d₁ hhere
  rw [on_ofExcept, Prod.mk.injEq] at hfolder
  rcases Layout.rolesRoot_of_roleFolder hrole hfolder.1 with ⟨roles, hroles, hbelow⟩
  refine (does_isFolder.bind fun _ => .require fun _ => (confined_remove fun l hl => ?_).bind
    fun _ => does_pure _) d₂ hhere₂
  rw [hbelow, spot_below _ _ (Path.not_up_of_names (by simpa using hrole))] at hl
  exact ⟨named, hnamed.1, hrole, roles, hroles, hl⟩

/-- The journal of a project lies in the tool's own folder. -/
theorem journal_of_settings {s : Settings} {root : Path} {now : Timestamp}
    (h : ofSettings s root now = .ok p) : p.journal.folder = p.layout.intentsFolder := by
  rw [ofSettings] at h
  cases hdialect : s.defaultDialect with
  | error f =>
      rw [hdialect] at h
      exact absurd h (by simp [bind, Except.bind])
  | ok dialect =>
      rw [hdialect] at h
      rw [← Except.ok.inj h]

/-- Intents have their documents in the tool's own folder. -/
theorem own_of_document (hj : p.journal.folder = p.layout.intentsFolder) (here : Location) {id : Text}
    (hid : ∀ c ∈ id, isTame c = true) : spot here p.layout.ownFolder <+: spot here (p.journal.file id) := by
  have hset : p.journal.Set p.layout.root := hj.trans (Journal.set_intentsFolder p.layout true)
  have hown : p.layout.ownFolder = p.layout.root.below [".aviators".toList] :=
    Path.div_name ⟨by decide, by decide, by decide, by decide⟩ _
  have hname : id ++ ".json".toList ≠ ['.', '.'] := fun heq => by
    have := congrArg List.length heq
    simp at this
  rw [Journal.file_eq hset hid, hown, spot_below _ _ (by decide), spot_below _ _ ?_]
  · exact (List.prefix_append_right_inj _).mpr ⟨_, rfl⟩
  · simp only [List.mem_cons, List.not_mem_nil, or_false, not_or]
    exact ⟨by decide, by decide, hname.symm⟩

/-- What is carried out within a footprint leaves all other files as they are. -/
theorem carryOut_outside (hj : p.journal.folder = p.layout.intentsFolder) {S : Location → Prop}
    {c : Job Order} (h : Decides d (PlanWithin d S) c) {r : Except Fault Artifact} {d' : Disk}
    (hrun : (c >>= p.carryOut).on d = (r, d')) {l : Location}
    (hown : ¬ spot d.here p.layout.ownFolder <+: l) (hl : ¬ S l) : d.tree.SameFile d'.tree l := by
  rcases carryOut_cases h hrun with ⟨rfl, -⟩ | ⟨o, q, hwithin, htrack, -⟩
  · exact SameFile.refl _ _
  · -- The footprint of the whole command has the tool's own folder in it.
    have hmono : ∀ s ∈ o.plan, s.Confined d.here fun l => S l ∨ spot d.here p.layout.ownFolder <+: l :=
      fun s hs => (hwithin s hs).mono fun _ => Or.inl
    exact ((Journal.confined_track hmono fun id hid => Or.inr (own_of_document hj d.here hid)).outside
      htrack (by tauto)).2

end Project

namespace Creation

variable {p : Project} {d : Disk}

/-- What a command is about to make lies in its footprint. -/
theorem order_within (hclosed : d.tree.Closed) (c : Creation) :
    Decides d (Project.PlanWithin d (c.Puts p d)) (c.order p) := by
  cases c with
  | role raw dialect => exact Project.roleCreation_within raw dialect hclosed
  | module ofRole raw => exact Project.moduleCreation_within ofRole raw hclosed
  | page ofRole ofModule raw => exact Project.pageCreation_within ofRole ofModule raw hclosed
  | package kind raw => exact Project.packageCreation_within kind raw hclosed

end Creation

namespace Command

variable {p : Project} {d d' : Disk}

/-- Whatever becomes of a command, the files that it has added, changed or removed
    lie in its footprint; and one that makes something has changed no file that was
    there before, except where its artifact is listed. -/
theorem changes_in_footprint {s : Settings} {root : Path} {now : Timestamp}
    (hp : Project.ofSettings s root now = .ok p) (hclosed : d.tree.Closed) (c : Command)
    {r : Except Fault Artifact} (hrun : (c.run p).on d = (r, d')) :
    (∀ l, ¬ spot d.here p.layout.ownFolder <+: l → ¬ d.tree.SameFile d'.tree l → c.target.Footprint p d l)
      ∧ ∀ k, c = .create k → ∀ l content, ¬ spot d.here p.layout.ownFolder <+: l →
        d.tree.get? l = some (.file content) → ¬ k.Relists p d l →
        d'.tree.get? l = some (.file content) := by
  have hj := Project.journal_of_settings hp
  cases c with
  | create k =>
      rw [run, Creation.run_eq] at hrun
      have hwithin := k.order_within (p := p) hclosed
      -- What is put anywhere else would be outside what the command may change.
      refine ⟨fun l hown hchanged => ?_, fun k' hk l content hown hfile hl => ?_⟩
      · by_contra hl
        exact hchanged (Project.carryOut_outside hj hwithin hrun hown fun hputs => hl hputs.1)
      · rw [Command.create.injEq] at hk
        subst hk
        -- A file that was there is only changed if the creation relists it.
        have hsame := Project.carryOut_outside (l := l) hj hwithin hrun hown fun hputs => by
          rcases hputs.2 with hrelists | hnone
          · exact hl hrelists
          · exact absurd (hnone.symm.trans hfile) (by simp)
        exact (hsame content).mpr hfile
  | delete k =>
      refine ⟨fun l hown hchanged => ?_, fun k' hk => absurd hk (by simp)⟩
      by_contra hl
      refine hchanged ?_
      cases k with
      | role raw => exact ((Project.deleteRole_confined d raw).outside hrun hl).2
      | module ofRole raw missingOk =>
          exact Project.carryOut_outside hj (Project.moduleDeletion_within ofRole raw missingOk) hrun hown hl
      | page ofRole ofModule raw missingOk =>
          exact Project.carryOut_outside hj
            (Project.pageDeletion_within ofRole ofModule raw missingOk) hrun hown hl
      | package kind raw missingOk =>
          exact Project.carryOut_outside hj (Project.packageDeletion_within kind raw missingOk) hrun hown hl

end Command

namespace Footprints

/-- The root of a project. -/
def root : Path := .ofText "proj".toList

/-- The moment of a command. -/
def now : Timestamp := ⟨2026, 1, 1, 0, 0, 0, 0, true⟩

/-- A disk with an empty project. -/
def empty : Disk := .fresh ⟨[(["proj".toList], .folder)]⟩ []

/-- A project whose sources lie behind a folder that is missing. -/
def hidden : Project :=
  ⟨⟨root, some "new/../src".toList, some "packages".toList, some "Roles".toList⟩, .marker,
    ⟨(Layout.ofRoot root).intentsFolder, false⟩, now⟩

/-- Where the folder of a role is. -/
def place : Location := ["proj".toList, "src".toList, "Roles".toList, "inst".toList]

/-- A disk with a role that has lost its registry. -/
def stripped : Disk := .fresh ⟨[(["proj".toList], .folder), (["proj".toList, "src".toList], .folder),
  (["proj".toList, "src".toList, "Roles".toList], .folder), (place, .folder),
  (place ++ [".aviators-role.json".toList], .file (.text "{}".toList))]⟩ []

end Footprints

open Footprints in
theorem Command.changes_in_footprint_role : ∃ p, Project.ofSettings .defaults root now = .ok p
    ∧ empty.tree.Closed ∧ ∀ l, ¬ spot [] p.layout.ownFolder <+: l →
      ¬ empty.tree.SameFile ((p.createRole (some "inst".toList) none).on empty).2.tree l →
      (Target.role (some "inst".toList)).Footprint p empty l := by
  have hp : Project.ofSettings .defaults root now
      = .ok ⟨.ofRoot root, .marker, ⟨(Layout.ofRoot root).intentsFolder, true⟩, now⟩ := by decide
  have hclosed : empty.tree.Closed := by decide
  have hrun : ∀ p : Project, (Command.run p (.create (.role (some "inst".toList) none))).on empty
      = (((p.createRole (some "inst".toList) none).on empty).1,
        ((p.createRole (some "inst".toList) none).on empty).2) := fun _ => rfl
  exact ⟨_, hp, hclosed, (Command.changes_in_footprint hp hclosed _ (hrun _)).1⟩

open Footprints in
/-- A role that hides is made once more, and its descriptor is lost. -/
theorem creation_rewrites_descriptor :
    stripped.tree.get? (place ++ [".aviators-role.json".toList]) = some (.file (.text "\x7b\x7d".toList))
      ∧ ((hidden.createRole (some "inst".toList) none).on stripped).1.isOk = true
      ∧ ((hidden.createRole (some "inst".toList) none).on stripped).2.tree.get?
          (place ++ [".aviators-role.json".toList])
        = some (.file (.text (Descriptor.document ⟨"inst".toList, .marker, now⟩))) := by
  refine ⟨by decide, by decide +kernel, by decide +kernel⟩

end RouteScaffold
