import RouteScaffold.Proofs.Journal.Bookkeeping
import RouteScaffold.Proofs.Project.Footprint
import RouteScaffold.Project.Setup

/-!
# Journaling Is Transparent

Whether intents are kept makes no difference to a command: it answers the same or
fails with the same fault, and it leaves the same tree outside the tool's own
folder. When it returns, the intents that were pending are pending still, and no
others.

This holds as long as the command and the journal keep out of each other's way: the
settings must not tell a folder for packages or roles in the tool's own folder or
behind it, and what is removed must not contain the way to that folder. Names do not
matter, since no artifact is called like the tool's own folder.

## Main definitions

* `Layout.Apart`: Settings that tell no places in the tool's own folder.
* `Project.keeping`: A project that keeps intents, or does not.
* `Project.Transparent`: A command for which that makes no difference.
* `Command.Orders`, `Command.Removes`: What a command is about to do, and what it
  removes.

## Theorems

* `adds_moduleCreation`, `off_moduleDeletion` and the like: The plans of commands stay beside the tool's
  own folder.
* `journaling_transparent`: Journaling makes no difference to any command.
-/

namespace RouteScaffold

open Job Disk RouteScaffold.Tree Naming Location

/-! ### Paths beside the tool's own folder -/

/-- A name that leads to a place of its own, and not to the tool's own folder. -/
def Foreign (n : Text) : Prop := n ≠ ['.', '.'] ∧ n ≠ ".aviators".toList

theorem foreign_of_no_dot {n : Text} (h : '.' ∉ n) : Foreign n :=
  ⟨fun heq => h (by rw [heq]; decide), fun heq => h (by rw [heq]; decide)⟩

theorem foreign_of_source {n : Text} (h : Path.IsSource n) : Foreign n := by
  rcases h with ⟨stem, rfl | rfl⟩
  · have hts : ".ts".toList <:+ stem ++ ".ts".toList := List.suffix_append _ _
    constructor
    all_goals
      intro heq
      rw [heq] at hts
      exact absurd hts (by decide)
  · have htsx : ".tsx".toList <:+ stem ++ ".tsx".toList := List.suffix_append _ _
    constructor
    all_goals
      intro heq
      rw [heq] at htsx
      exact absurd htsx (by decide)

theorem foreign_of_tame {n : Text} (h : ∀ c ∈ n, isTame c = true) : Foreign n :=
  foreign_of_no_dot (not_mem_of_tame h (by decide))

theorem Disk.Off.foreign {here : Location} {root p : Path} (h : Off (ownPlace here root) here p)
    {names : List Text} (hnames : ∀ n ∈ names, Foreign n) : Off (ownPlace here root) here (p.below names) :=
  h.below (fun hmem => (hnames _ hmem).1 rfl) fun hmem => (hnames _ hmem).2 rfl

/-- Settings that tell no folder of packages or roles in the tool's own folder, or
    behind it. -/
structure Layout.Apart (l : Layout) (here : Location) : Prop where
  packages : ∀ path, l.packagesRoot = .ok path → Off (ownPlace here l.root) here path
  roles : ∀ path, l.rolesRoot = .ok path → Off (ownPlace here l.root) here path

namespace Layout.Apart

variable {l : Layout} {here : Location} {folder : Path}

theorem off_roleFolder (h : l.Apart here) {role : Text} (hrole : isRoleName role = true)
    (hfolder : l.roleFolder role = .ok folder) : Off (ownPlace here l.root) here folder := by
  rcases rolesRoot_of_roleFolder (isName_role hrole) hfolder with ⟨roles, hroles, rfl⟩
  refine (h.roles roles hroles).foreign (List.forall_mem_singleton.mpr (foreign_of_no_dot ?_))
  exact not_mem_role hrole (by decide) (by decide) (by decide)

theorem off_packageFolder (h : l.Apart here) {kind : PackageKind} (hfolder : l.packageFolder kind = .ok folder) :
    Off (ownPlace here l.root) here folder := by
  rcases packagesRoot_of_packageFolder hfolder with ⟨packages, hpackages, rfl⟩
  refine (h.packages packages hpackages).foreign (List.forall_mem_singleton.mpr (foreign_of_no_dot ?_))
  cases kind <;> decide

end Layout.Apart

/-! ### Plans beside the tool's own folder -/

namespace Project

variable {p : Project} {d : Disk}

/-- An order none of whose steps leads into a folder. -/
def PlanOff (own : Location) (d : Disk) (o : Order) : Prop := ∀ s ∈ o.plan, s.Off own d.here

/-- An order none of whose steps leads into a folder, or removes anything. -/
def PlanAdds (own : Location) (d : Disk) (o : Order) : Prop :=
  ∀ s ∈ o.plan, s.makes = true ∧ s.Off own d.here

theorem adds_making {own here : Location} {top : Path} {things : List (List Text × Made)}
    (h : ∀ x ∈ things, Off own here (top.below x.1)) :
    ∀ s ∈ making top things, s.makes = true ∧ s.Off own here := by
  intro s hs
  rcases mem_making.mp hs with ⟨⟨names, made⟩, hx, rfl⟩
  cases made <;> exact ⟨rfl, h _ hx⟩

theorem adds_revision {own here : Location} {file : Path} (h : Off own here file) (edits : List Edit) :
    ∀ s ∈ Step.snapshot file :: edits.map (Step.edit file), s.makes = true ∧ s.Off own here := by
  refine List.forall_mem_cons.mpr ⟨⟨rfl, h⟩, fun s hs => ?_⟩
  rcases List.mem_map.mp hs with ⟨e, -, rfl⟩
  exact ⟨rfl, h⟩

variable (hapart : p.layout.Apart d.here)
include hapart

theorem adds_roleCreation (raw dialect : Option Text) :
    Decides d (PlanAdds (ownPlace d.here p.layout.root) d) (p.roleCreation raw dialect) := by
  refine decides_ofExcept fun named hnamed => decides_ofExcept fun wanted _ => decides_ofExcept fun folder hfolder => ?_
  refine decides_bind (looks_isThere _) fun there _ => decides_refuse fun _ => ?_
  refine decides_ofExcept fun descriptor hdescriptor => decides_pure ?_
  rw [Layout.descriptorFile_eq hfolder, Except.ok.injEq] at hdescriptor
  subst hdescriptor
  have hoff := hapart.off_roleFolder (Kind.role_named hnamed).2.2 hfolder
  rcases roleThings_eq ⟨named.name, wanted, p.now⟩ with ⟨t, hthings⟩
  change ∀ s ∈ createRolePlan ⟨named.name, wanted, p.now⟩ folder _, _
  rw [createRolePlan_eq]
  refine List.forall_mem_cons.mpr ⟨⟨rfl, trivial⟩, adds_making fun x hx => hoff.foreign ?_⟩
  rw [hthings] at hx
  -- None of the names leads up, or into the folder of the tool.
  have hnames : ∀ names ∈ [["assets".toList], ["api".toList], ["modules".toList], ["routes".toList], registryNames,
      [".aviators-role.json".toList]], ∀ n ∈ names, n ≠ ['.', '.'] ∧ n ≠ ".aviators".toList := by decide
  refine hnames x.1 ?_
  simp only [List.mem_cons, List.not_mem_nil, or_false] at hx ⊢
  rcases hx with rfl | rfl | rfl | rfl | rfl | rfl <;> simp

section Modules

variable {role module page : Option Text} {t : ModuleTarget} {folder : Path} {base : Location}

theorem ModuleFound.off (h : ModuleFound p role module d t folder base) :
    Off (ownPlace d.here p.layout.root) d.here folder := hapart.off_roleFolder h.roleName h.folder_eq

omit hapart in
theorem ModuleFound.foreign_segment (h : ModuleFound p role module d t folder base) : Foreign t.ref.segment :=
  foreign_of_tame h.accepted.spelled.segment

/-- What lies in the folder of a module. -/
theorem ModuleFound.off_module (h : ModuleFound p role module d t folder base) {names : List Text}
    (hnames : ∀ n ∈ names, Foreign n) :
    Off (ownPlace d.here p.layout.root) d.here (folder.below ("modules".toList :: t.ref.segment :: names)) :=
  (h.off hapart).foreign (List.forall_mem_cons.mpr
    ⟨foreign_of_no_dot (by decide), List.forall_mem_cons.mpr ⟨h.foreign_segment, hnames⟩⟩)

theorem ModuleFound.off_registry (h : ModuleFound p role module d t folder base) :
    Off (ownPlace d.here p.layout.root) d.here t.registry.file := by
  rw [h.registry_eq]
  exact (h.off hapart).foreign (show ∀ n ∈ registryNames, n ≠ ['.', '.'] ∧ n ≠ ".aviators".toList by decide)

theorem ModuleFound.off_pageFile (h : ModuleFound p role module d t folder base) {ref : PageRef}
    (href : ref.module = t.ref) : Off (ownPlace d.here p.layout.root) d.here (t.registry.pageFile ref) := by
  rw [Registry.pageFile]
  cases t.registry.dialect with
  | marker => exact h.off_registry hapart
  | flat =>
      have hroute := routeFile_eq h.accepted.spelled (accepts_segment_ne h.accepted) t.registry.dialect
        (folder.below registryNames) folder
      have hmodules : t.registry = ⟨t.registry.dialect, folder.below registryNames, folder.below ["modules".toList]⟩ :=
        h.registry_eq
      dsimp only
      rw [href, hmodules, hroute]
      exact h.off_module hapart (List.forall_mem_singleton.mpr
        (foreign_of_source ⟨t.ref.segment ++ ".route".toList, Or.inr (by simp)⟩))

theorem adds_moduleCreation (role module : Option Text) :
    Decides d (PlanAdds (ownPlace d.here p.layout.root) d) (p.moduleCreation role module) := by
  refine decides_bind (looks_moduleTarget p role module) fun t ht => ?_
  rcases moduleTarget_ok ht with ⟨folder, base, hfound⟩
  have hspelled := hfound.accepted.spelled
  have hseg := accepts_segment_ne hfound.accepted
  refine decides_ofExcept fun own hown => ?_
  rw [hfound.moduleFolder_eq, Except.ok.injEq] at hown
  subst hown
  refine decides_bind (looks_isThere _) fun there _ => decides_refuse fun _ => ?_
  refine decides_bind (looks_guard _) fun _ _ => decides_ofExcept fun roleFolder hfolder => decides_pure ?_
  rw [hfound.folder_eq, Except.ok.injEq] at hfolder
  subst hfolder
  change ∀ s ∈ createModulePlan t.registry t.ref folder _, _
  rw [createModulePlan_eq hspelled hseg]
  refine List.forall_mem_append.mpr ⟨List.forall_mem_cons.mpr ⟨⟨rfl, trivial⟩, adds_making fun x hx => ?_⟩,
    adds_revision ?_ _⟩
  · rw [(moduleThings_eq hspelled hseg t.registry.dialect).2] at hx
    -- The names of the things that are made are none that lead to the folder of the tool.
    have hpages := hfound.off_module hapart (List.forall_mem_singleton.mpr
      (foreign_of_no_dot (show '.' ∉ "pages".toList by decide)))
    have hcomponent := hfound.off_module hapart (List.forall_mem_singleton.mpr
      (foreign_of_source (source_tsx t.ref.name)))
    have hroute := hfound.off_module hapart (List.forall_mem_singleton.mpr
      (foreign_of_source (n := t.ref.segment ++ ".route.tsx".toList)
        ⟨t.ref.segment ++ ".route".toList, Or.inr (by simp)⟩))
    cases hdialect : t.registry.dialect <;> rw [hdialect] at hx <;>
      simp only [List.mem_cons, List.not_mem_nil, or_false] at hx
    · rcases hx with rfl | rfl
      · exact hpages
      · exact hcomponent
    · rcases hx with rfl | rfl | rfl
      · exact hpages
      · exact hcomponent
      · exact hroute
  · rw [hfound.guard_module_file]
    exact (hfound.off hapart).foreign (show ∀ n ∈ registryNames, n ≠ ['.', '.'] ∧ n ≠ ".aviators".toList by decide)

theorem adds_pageCreation (role module page : Option Text) :
    Decides d (PlanAdds (ownPlace d.here p.layout.root) d) (p.pageCreation role module page) := by
  refine decides_bind (looks_pageTarget p role module page) fun t ht => ?_
  rcases pageTarget_ok ht with ⟨folder, base, hfound, href, haccepted, -, -⟩
  have hspelled := haccepted.spelled
  have hseg : t.ref.module.segment ≠ [] := accepts_segment_ne haccepted.1
  refine decides_ofExcept fun roleFolder hfolder => ?_
  rw [href, hfound.folder_eq, Except.ok.injEq] at hfolder
  subst hfolder
  refine decides_bind (looks_requireAbsent _) fun _ _ => decides_bind (looks_guard _) fun _ _ => decides_pure ?_
  change ∀ s ∈ createPagePlan t.within.registry t.ref folder, _
  rw [createPagePlan_eq hspelled hseg]
  refine List.forall_mem_append.mpr ⟨List.forall_mem_cons.mpr ⟨⟨rfl, trivial⟩, adds_making fun x hx => ?_⟩,
    adds_revision ?_ _⟩
  · rw [filesOf_page hspelled hseg, List.mem_singleton] at hx
    subst hx
    dsimp only
    rw [href]
    exact hfound.off_module hapart (List.forall_mem_cons.mpr ⟨foreign_of_no_dot (by decide),
      List.forall_mem_singleton.mpr (foreign_of_source (source_tsx t.ref.name))⟩)
  · have hfile : (t.within.registry.guard (.page t.ref)).file = t.within.registry.pageFile t.ref := by
      rcases t.within.registry with ⟨dialect, file, modules⟩
      cases dialect <;> rfl
    rw [hfile]
    exact hfound.off_pageFile hapart href

theorem off_moduleDeletion (role module : Option Text) (missingOk : Bool) :
    Decides d (PlanOff (ownPlace d.here p.layout.root) d) (p.moduleDeletion role module missingOk) := by
  refine decides_bind (looks_moduleTarget p role module) fun t ht => ?_
  rcases moduleTarget_ok ht with ⟨folder, base, hfound⟩
  refine decides_ofExcept fun own hown => ?_
  rw [hfound.moduleFolder_eq, Except.ok.injEq] at hown
  subst hown
  refine decides_bind (looks_isThere _) fun there _ => decides_require fun _ => decides_pure ?_
  have hregistry : (t.registry.removeModule t.ref).file = t.registry.file := by
    rw [Registry.removeModule]
    cases t.registry.dialect <;> rfl
  change ∀ s ∈ Step.snapshot t.registry.file :: ((t.registry.removeModule t.ref).edits.map
    (Step.edit (t.registry.removeModule t.ref).file) ++ [Step.remove _ true]), _
  rw [hregistry, ← List.cons_append]
  exact List.forall_mem_append.mpr ⟨fun s hs => (adds_revision (hfound.off_registry hapart) _ s hs).2,
    List.forall_mem_singleton.mpr (hfound.off_module hapart fun n hn => absurd hn (by simp))⟩

theorem off_pageDeletion (role module page : Option Text) (missingOk : Bool) :
    Decides d (PlanOff (ownPlace d.here p.layout.root) d) (p.pageDeletion role module page missingOk) := by
  refine decides_bind (looks_pageTarget p role module page) fun t ht => ?_
  rcases pageTarget_ok ht with ⟨folder, base, hfound, href, haccepted, -, -⟩
  have hseg := hfound.isName_segment
  refine decides_ofExcept fun pages hpages => ?_
  rw [href, Layout.pagesFolder_eq hfound.folder_eq hseg, Except.ok.injEq] at hpages
  subst hpages
  refine decides_bind (looks_isThere _) fun there _ => decides_require fun _ => decides_pure ?_
  have hfile := hfound.off_pageFile hapart href
  -- The file that is revised is the registry of the pages.
  have hrevised : (t.within.registry.removePage t.ref).file = t.within.registry.pageFile t.ref := by
    rw [Registry.removePage, Registry.pageFile]
    cases t.within.registry.dialect <;> rfl
  change ∀ s ∈ Step.snapshotIfPresent _ :: ((if t.within.registry.pageFileMayBeAbsent then _ else _)
    ++ [Step.remove _ true]), _
  refine List.forall_mem_cons.mpr ⟨hfile, List.forall_mem_append.mpr ⟨fun s hs => ?_,
    List.forall_mem_singleton.mpr ?_⟩⟩
  · rw [hrevised] at hs
    split at hs
    · rcases List.mem_map.mp hs with ⟨e, -, rfl⟩
      exact hfile
    · rw [reviseSteps, hrevised] at hs
      rcases List.mem_map.mp hs with ⟨e, -, rfl⟩
      exact hfile
  · change Off _ _ (_ / (t.ref.name ++ ".tsx".toList))
    rw [Path.div_name (isName_component haccepted.spelled.name), Path.below_below]
    exact hfound.off_module hapart (List.forall_mem_cons.mpr ⟨foreign_of_no_dot (by decide),
      List.forall_mem_singleton.mpr (foreign_of_source (source_tsx t.ref.name))⟩)

end Modules

section Packages

variable {kind : PackageKind} {named : Named} {base : Path}

/-- What lies in the folder of a kind. -/
theorem off_package (hbase : p.layout.packageFolder kind = .ok base) {names : List Text}
    (hnames : ∀ n ∈ names, Foreign n) : Off (ownPlace d.here p.layout.root) d.here (base.below names) :=
  (hapart.off_packageFolder hbase).foreign hnames

omit hapart in
theorem foreign_packageWay (hnamed : (Kind.package kind).named (some named.raw) = .ok named) :
    ∀ n ∈ packageWay kind named.name, Foreign n := by
  rw [packageWay]
  split
  · exact List.forall_mem_singleton.mpr (foreign_of_no_dot (named_package hnamed).2)
  · refine List.forall_mem_singleton.mpr (foreign_of_source ⟨named.name, ?_⟩)
    cases kind
    all_goals first | exact Or.inl rfl | exact Or.inr rfl

theorem adds_packageCreation (kind : PackageKind) (raw : Option Text) :
    Decides d (PlanAdds (ownPlace d.here p.layout.root) d) (p.packageCreation kind raw) := by
  refine decides_bind (looks_packageTarget p kind raw) fun t ht => ?_
  rcases t with ⟨named, base⟩
  rcases packageTarget_ok ht with ⟨hnamed, hbase, -⟩
  rcases named_package hnamed with ⟨hname, hdot⟩
  refine decides_bind (looks_requireAbsent _) fun _ _ => decides_ofExcept fun barrel hbarrel => decides_pure ?_
  rw [barrel_eq hbase, Except.ok.injEq] at hbarrel
  subst hbarrel
  have hlist : Off (ownPlace d.here p.layout.root) d.here (base.below ["index.ts".toList]) :=
    off_package hapart hbase (show ∀ n ∈ ["index.ts".toList], n ≠ ['.', '.'] ∧ n ≠ ".aviators".toList by decide)
  change ∀ s ∈ createPackagePlan kind named.name base _, _
  rw [createPackagePlan_eq hname]
  refine List.forall_mem_append.mpr ⟨List.forall_mem_cons.mpr ⟨⟨rfl, trivial⟩, adds_making fun x hx => ?_⟩,
    List.forall_mem_cons.mpr ⟨⟨rfl, hlist⟩, List.forall_mem_singleton.mpr ⟨rfl, hlist⟩⟩⟩
  rcases mem_filesOf_package hname hx with ⟨ns, file, t, rfl, -, hsource, hns⟩
  refine off_package hapart hbase (List.forall_mem_append.mpr
    ⟨?_, List.forall_mem_singleton.mpr (foreign_of_source hsource)⟩)
  rcases hns with rfl | rfl
  · exact fun n hn => absurd hn (by simp)
  · exact List.forall_mem_singleton.mpr (foreign_of_no_dot hdot)

theorem off_packageDeletion (kind : PackageKind) (raw : Option Text) (missingOk : Bool) :
    Decides d (PlanOff (ownPlace d.here p.layout.root) d) (p.packageDeletion kind raw missingOk) := by
  refine decides_bind (looks_packageTarget p kind raw) fun t ht => ?_
  rcases t with ⟨named, base⟩
  rcases packageTarget_ok ht with ⟨hnamed, hbase, -⟩
  refine decides_bind (looks_isThere _) fun there _ => decides_require fun _ =>
    decides_ofExcept fun barrel hbarrel => decides_pure ?_
  rw [barrel_eq hbase, Except.ok.injEq] at hbarrel
  subst hbarrel
  have hlist : Off (ownPlace d.here p.layout.root) d.here (base.below ["index.ts".toList]) :=
    off_package hapart hbase (show ∀ n ∈ ["index.ts".toList], n ≠ ['.', '.'] ∧ n ≠ ".aviators".toList by decide)
  have hraw := (Kind.named_eq_ok hnamed).1
  refine List.forall_mem_cons.mpr ⟨hlist, List.forall_mem_cons.mpr ⟨hlist, List.forall_mem_singleton.mpr ?_⟩⟩
  change Off _ _ (packageRoot kind named.name base)
  rw [packageRoot_eq (named_package hnamed).1]
  exact off_package hapart hbase (foreign_packageWay (hraw ▸ hnamed))

end Packages

/-! ### Commands without an intent -/

/-- A role is removed beside the tool's own folder. -/
theorem beside_deleteRole (raw : Option Text)
    (hway : ∀ named folder, Kind.role.named raw = .ok named → p.layout.roleFolder named.name = .ok folder →
      ∀ l, OnWay d.here p.layout.root l → ¬ spot d.here folder <+: l) :
    Does d.here (Beside (ownPlace d.here p.layout.root) (OnWay d.here p.layout.root)) (p.deleteRole raw) := by
  refine (does_ofExcept _).bind_of fun _ named d₁ _ hnamed hhere => ?_
  rw [on_ofExcept, Prod.mk.injEq] at hnamed
  refine (Does.bind_of (does_ofExcept _) fun _ folder d₂ _ hfolder hhere₂ => ?_) d₁ hhere
  rw [on_ofExcept, Prod.mk.injEq] at hfolder
  have hoff := hapart.off_roleFolder (Kind.role_named hnamed.1).2.2 hfolder.1
  exact (does_isFolder.bind fun _ => .require fun _ =>
    (beside_remove_of_way hoff (hway named folder hnamed.1 hfolder.1)).bind fun _ => does_pure _) d₂ hhere₂

/-- A project is set up beside the tool's own folder. -/
theorem beside_setUp :
    Does d.here (Beside (ownPlace d.here p.layout.root) (OnWay d.here p.layout.root)) p.setUp := by
  have hbarrel : ∀ kind, Does d.here (Beside (ownPlace d.here p.layout.root) (OnWay d.here p.layout.root))
      (p.setUpBarrel kind) := by
    intro kind
    refine (does_ofExcept _).bind_of fun _ barrel d₁ _ hbarrel hhere => ?_
    rw [on_ofExcept, Prod.mk.injEq] at hbarrel
    have hoff : Off (ownPlace d.here p.layout.root) d.here barrel := by
      have hfolder := hbarrel.1
      cases hbase : p.layout.packageFolder kind with
      | error f =>
          rw [Layout.barrel, Layout.barrelIn, show p.layout.folderIn kind.folder = .error f from hbase] at hfolder
          exact absurd hfolder (by simp [bind, Except.bind])
      | ok base =>
          rw [barrel_eq hbase, Except.ok.injEq] at hfolder
          rw [← hfolder]
          exact off_package hapart hbase
            (show ∀ n ∈ ["index.ts".toList], n ≠ ['.', '.'] ∧ n ≠ ".aviators".toList by decide)
    -- A barrel that is there is left alone, and any other is a new file.
    refine (does_isThere.bind fun there => ?_) d₁ hhere
    split
    · exact does_pure _
    · exact (beside_newFile hoff []).bind fun _ => does_pure _
  have hroles : Does d.here (Beside (ownPlace d.here p.layout.root) (OnWay d.here p.layout.root)) p.setUpRoles := by
    refine (does_ofExcept _).bind_of fun _ roles d₁ _ hroles hhere => ?_
    -- So is the folder of the roles.
    rw [on_ofExcept, Prod.mk.injEq] at hroles
    refine (does_isFolder.bind fun there => ?_) d₁ hhere
    split
    · exact does_pure _
    · exact (beside_folders (hapart.roles roles hroles.1)).bind fun _ => does_pure _
  have hbarrels : ∀ kinds : List PackageKind, Does d.here
      (Beside (ownPlace d.here p.layout.root) (OnWay d.here p.layout.root)) (kinds.mapM p.setUpBarrel) := by
    intro kinds
    induction kinds with
    | nil => exact does_pure _
    | cons kind kinds ih =>
        rw [List.mapM_cons]
        exact (hbarrel kind).bind fun _ => ih.bind fun _ => does_pure _
  exact (hbarrels _).bind fun _ => hroles.bind fun _ => does_pure _

end Project

/-! ### Commands with and without a journal -/

namespace Project

/-- The same project, which keeps intents or does not. -/
def keeping (p : Project) (keeps : Bool) : Project := { p with journal := { p.journal with keeps } }

/-- Whether intents are kept makes no difference to what a command answers, nor to the
    tree outside the tool's own folder; and a command that returns leaves the intents
    that are pending as they were. -/
structure Transparent {α : Type} (p : Project) (run : Project → Job α) (d : Disk) : Prop where
  answer : ((run (p.keeping true)).on d).1 = ((run (p.keeping false)).on d).1
  tree : ∀ l, ¬ spot d.here p.layout.ownFolder <+: l →
    ((run (p.keeping true)).on d).2.tree.get? l = ((run (p.keeping false)).on d).2.tree.get? l
  pending : ∀ keeps a d', (run (p.keeping keeps)).on d = (.ok a, d') →
    ((p.journal.pending p.now).on d').1 = ((p.journal.pending p.now).on d).1

end Project

namespace Command

/-- What a command is about to do when nothing stands in its way. -/
def Orders (p : Project) (d : Disk) : Command → Order → Prop
  | create c, o => (c.order p).on d = (.ok o, d)
  | delete (.role _), _ => False
  | delete (.module ofRole raw missingOk), o => (p.moduleDeletion ofRole raw missingOk).on d = (.ok o, d)
  | delete (.page ofRole ofModule raw missingOk), o =>
    (p.pageDeletion ofRole ofModule raw missingOk).on d = (.ok o, d)
  | delete (.package kind raw missingOk), o => (p.packageDeletion kind raw missingOk).on d = (.ok o, d)

/-- What a command is about to remove. -/
def Removes (p : Project) (d : Disk) : Command → Path → Prop
  | create _, _ => False
  | delete (.role raw), path => ∃ named, Kind.role.named raw = .ok named ∧ p.layout.roleFolder named.name = .ok path
  | c, path => ∃ o missingOk, c.Orders p d o ∧ .remove path missingOk ∈ o.plan

end Command

namespace Project

variable {p : Project} {d : Disk} {root : Path} {α : Type}

theorem ownFolder_eq (l : Layout) (here : Location) : spot here l.ownFolder = ownPlace here l.root := by
  rw [show l.ownFolder = l.root.below [".aviators".toList] from
    Path.div_name ⟨by decide, by decide, by decide, by decide⟩ _, spot_below _ _ (by decide)]
  rfl

theorem root_of_settings {s : Settings} {now : Timestamp} (h : ofSettings s root now = .ok p) :
    p.layout.root = root := by
  rw [ofSettings] at h
  cases hdialect : s.defaultDialect with
  | error f =>
      rw [hdialect] at h
      exact absurd h (by simp [bind, Except.bind])
  | ok dialect =>
      rw [hdialect] at h
      rw [← Except.ok.inj h]
      rfl

/-- A command that has nothing to do with the journal. -/
theorem transparent_of_beside {run : Project → Job α} (hd : d.Orderly p.layout.root)
    (hj : p.journal.Set p.layout.root) (hsame : ∀ keeps, run (p.keeping keeps) = run p)
    (hbeside : Does d.here (Beside (ownPlace d.here p.layout.root) (OnWay d.here p.layout.root)) (run p)) :
    p.Transparent run d := by
  refine ⟨by rw [hsame, hsame], fun l _ => by rw [hsame, hsame], fun keeps a d' hrun => ?_⟩
  -- No name of a document is empty, so this is as good as no document.
  have habsent : d.tree.get? (intentsPlace d.here p.layout.root ++ [[]]) = none := by
    by_contra hthere
    exact (hd.names _ (mem_namesIn.mpr hthere)).2.1 rfl
  rcases hbeside d rfl with ⟨ws, hws, hruns⟩
  rw [hsame] at hrun
  rw [hrun] at hws
  have htends : Tends p.layout.root [] d d' := by
    rw [show d' = d.after ws from hws]
    exact hruns.after_preserves (hd.tends habsent) fun _ _ he hw => he.beside hw
  have hgone : d'.tree.get? (intentsPlace d.here p.layout.root ++ [[]]) = none := by
    rw [show d' = d.after ws from hws, after_tree, hruns.beside_within own_prefix_document]
    exact habsent
  rcases Journal.pending_of_tends hd hj htends hgone p.now with ⟨r, hr₀, hr⟩
  rw [hr₀, hr]

/-- A command that carries out an order. -/
theorem transparent_of_order {c : Project → Job Order} (hd : d.Orderly p.layout.root)
    (hj : p.journal.Set p.layout.root) (hsame : ∀ keeps, c (p.keeping keeps) = c p)
    (hplan : Decides d (fun o => ∀ s ∈ o.plan, s.Beside d.here p.layout.root) (c p))
    (habsent : ∀ o, (c p).on d = (.ok o, d) →
      d.tree.get? (spot d.here (p.journal.file (Intent.identifier o.verb o.args o.mode p.now))) = none) :
    p.Transparent (fun q => c q >>= q.carryOut) d := by
  have hset : ∀ keeps, (p.keeping keeps).journal.Set p.layout.root := fun _ => hj
  rcases hplan with ⟨f, hf⟩ | ⟨o, ho, hsteps⟩
  -- A command that is refused is refused in the same way with both journals.
  · have hrun : ∀ keeps, (c (p.keeping keeps) >>= (p.keeping keeps).carryOut).on d = (.error f, d) := by
      intro keeps
      rw [hsame]
      exact on_bind_error hf
    refine ⟨by rw [hrun, hrun], fun l _ => by rw [hrun, hrun], fun keeps a d' h => ?_⟩
    rw [hrun] at h
    exact absurd (Prod.mk.inj h).1 (by simp)
  · have hrun : ∀ keeps, (c (p.keeping keeps) >>= (p.keeping keeps).carryOut).on d
        = ((p.keeping keeps).journal.track p.now o.verb o.args o.mode o.plan
          >>= fun changed => pure (o.answer changed)).on d := by
      intro keeps
      rw [hsame, on_bind_ok ho]
      rfl
    have hid := Intent.isIdentifier o.verb o.args o.mode p.now
    have hdoc : intentsPlace d.here p.layout.root ++ [Intent.identifier o.verb o.args o.mode p.now ++ ".json".toList]
        = spot d.here (p.journal.file (Intent.identifier o.verb o.args o.mode p.now)) := by
      rw [Journal.spot_file hj hid, intentsPlace, List.append_assoc]
    -- Under both journals the invariant holds at the start.
    have hstart : Tends p.layout.root (Intent.identifier o.verb o.args o.mode p.now ++ ".json".toList) d d :=
      hd.tends (by rw [hdoc]; exact habsent o ho)
    have hmatch : Match (ownPlace d.here p.layout.root)
        (Tends p.layout.root (Intent.identifier o.verb o.args o.mode p.now ++ ".json".toList) d)
        ((p.keeping true).journal.track p.now o.verb o.args o.mode o.plan)
        ((p.keeping false).journal.track p.now o.verb o.args o.mode o.plan) :=
      Journal.match_track hd (hset true) (hset false) hid rfl hsteps
    rcases (hmatch.bind fun changed => match_pure (o.answer changed)) d d hstart hstart (.refl _ d)
      with ⟨r, d', e', hd', he', -, -, halike⟩
    -- The answers agree, the disks agree outside, and the intent of a command that ends well is gone.
    refine ⟨by rw [hrun, hrun, hd', he'], fun l hl => ?_, fun keeps a d₁ h => ?_⟩
    · rw [hrun, hrun, hd', he']
      rw [ownFolder_eq] at hl
      exact halike.tree l hl
    · rw [hrun] at h
      rcases on_bind_eq_ok.mp h with ⟨b, d₂, htrack, hpure⟩
      rw [on_pure, Prod.mk.injEq] at hpure
      rw [hpure.2] at htrack
      rcases Journal.tends_of_track hd (hset keeps) hsteps hstart htrack with ⟨htends, hgone⟩
      rcases Journal.pending_of_tends hd hj htends hgone p.now with ⟨q, hq₀, hq⟩
      rw [hq₀, hq]

/-- A plan that only adds to the tree stays beside the tool's own folder. -/
theorem PlanAdds.beside {o : Order} (h : PlanAdds (ownPlace d.here root) d o) :
    ∀ s ∈ o.plan, s.Beside d.here root := by
  refine fun s hs => ⟨(h s hs).2, fun path missingOk heq => ?_⟩
  have := (h s hs).1
  rw [heq] at this
  simp [Step.makes] at this

/-- Journaling makes no difference to any command, as long as the settings tell no
    folder of packages or roles in the tool's own folder or behind it, the intent of the
    command is new, and nothing is removed that lies on the way to that folder. -/
theorem journaling_transparent {s : Settings} {now : Timestamp} (hp : ofSettings s root now = .ok p)
    (hd : d.Orderly root) (hapart : p.layout.Apart d.here) : p.Transparent setUp d
      ∧ ∀ c : Command, (∀ o, c.Orders p d o →
          d.tree.get? (spot d.here (p.journal.file (Intent.identifier o.verb o.args o.mode p.now))) = none) →
        (∀ path, c.Removes p d path → ∀ l, OnWay d.here root l → ¬ spot d.here path <+: l) →
        p.Transparent (fun q => c.run q) d := by
  have hroot := root_of_settings hp
  have hj : p.journal.Set p.layout.root := (journal_of_settings hp).trans (Journal.set_intentsFolder p.layout true)
  subst hroot
  refine ⟨transparent_of_beside hd hj (fun _ => rfl) (beside_setUp hapart), fun c habsent hremoves => ?_⟩
  -- Creations only add; deletions also remove, but nothing on the way to the root.
  cases c with
  | create c =>
      have hplan : Decides d (PlanAdds (ownPlace d.here p.layout.root) d) (c.order p) := by
        cases c with
        | role raw dialect => exact adds_roleCreation hapart raw dialect
        | module ofRole raw => exact adds_moduleCreation hapart ofRole raw
        | page ofRole ofModule raw => exact adds_pageCreation hapart ofRole ofModule raw
        | package kind raw => exact adds_packageCreation hapart kind raw
      have hrun : (fun q : Project => (Command.create c).run q) = fun q => c.order q >>= q.carryOut :=
        funext fun q => c.run_eq q
      rw [hrun]
      refine transparent_of_order hd hj (fun _ => ?_) (hplan.imp fun o _ h => h.beside) habsent
      cases c <;> rfl
  | delete c =>
      cases c with
      | role raw =>
          refine transparent_of_beside hd hj (fun _ => rfl) (beside_deleteRole hapart raw ?_)
          exact fun named folder hnamed hfolder => hremoves folder ⟨named, hnamed, hfolder⟩
      | module ofRole raw missingOk =>
          refine transparent_of_order (c := fun q => q.moduleDeletion ofRole raw missingOk) hd hj (fun _ => rfl)
            ((off_moduleDeletion hapart ofRole raw missingOk).imp fun o ho h t ht => ⟨h t ht, ?_⟩) habsent
          rintro path b rfl
          exact hremoves path ⟨o, b, ho, ht⟩
      | page ofRole ofModule raw missingOk =>
          refine transparent_of_order (c := fun q => q.pageDeletion ofRole ofModule raw missingOk) hd hj (fun _ => rfl)
            ((off_pageDeletion hapart ofRole ofModule raw missingOk).imp fun o ho h t ht => ⟨h t ht, ?_⟩) habsent
          rintro path b rfl
          exact hremoves path ⟨o, b, ho, ht⟩
      | package kind raw missingOk =>
          refine transparent_of_order (c := fun q => q.packageDeletion kind raw missingOk) hd hj (fun _ => rfl)
            ((off_packageDeletion hapart kind raw missingOk).imp fun o ho h t ht => ⟨h t ht, ?_⟩) habsent
          rintro path b rfl
          exact hremoves path ⟨o, b, ho, ht⟩

end Project

namespace Footprints

/-- Settings that tell the tool's own folder for that of the roles. -/
def inward : Settings :=
  Json.mergeFields Settings.defaults [("project".toList, .record [("roles_dir".toList, .text "../.aviators".toList)])]

/-- The project of such settings. -/
def confused : Project :=
  ⟨⟨root, some "src".toList, some "packages".toList, some "../.aviators".toList⟩, .marker,
    ⟨(Layout.ofRoot root).intentsFolder, true⟩, now⟩

/-- A disk on which an intent is pending. -/
def interrupted : Disk := .fresh ⟨[(["proj".toList], .folder), (["proj".toList, "src".toList], .folder),
  (["proj".toList, ".aviators".toList], .folder), (["proj".toList, ".aviators".toList, "intents".toList], .folder),
  (["proj".toList, ".aviators".toList, "intents".toList, "k.json".toList], .file (.text
    "\x7b\"intent_id\":\"k\",\"verb\":\"page\",\"args\":[],\"mode\":\"create\"\x7d".toList))]⟩ []

end Footprints

open Footprints in
theorem journaling_transparent_inst : ∃ p, Project.ofSettings .defaults root now = .ok p
    ∧ Footprints.empty.Orderly root ∧ p.layout.Apart Footprints.empty.here
    ∧ p.Transparent (fun q => Command.run q (.create (.role (some "inst".toList) none))) Footprints.empty := by
  have hp : Project.ofSettings .defaults root now
      = .ok ⟨.ofRoot root, .marker, ⟨(Layout.ofRoot root).intentsFolder, true⟩, now⟩ := by decide
  have horderly : Footprints.empty.Orderly root := by
    have hshelves : ∀ ys ∈ intentsWay.inits, Footprints.empty.tree.get? (spot [] root ++ ys) = some .folder
        ∨ Footprints.empty.tree.get? (spot [] root ++ ys) = none := by decide
    have hnames : Footprints.empty.tree.namesIn (intentsPlace [] root) = [] := by decide
    refine ⟨by decide, by decide, by decide, by decide, roomy_of_short (by decide) (by decide) (by decide) (by decide),
      fun ys hys => hshelves ys ((List.mem_inits _ _).mpr hys), fun n hn => ?_⟩
    rw [show Footprints.empty.here = [] from rfl, hnames] at hn
    exact absurd hn (by simp)
  have hapart : (Layout.ofRoot root).Apart Footprints.empty.here := by
    constructor
    all_goals
      intro path hpath
      rw [← Except.ok.inj hpath]
      exact off_iff.mpr (by decide)
  refine ⟨_, hp, horderly, hapart, (Project.journaling_transparent hp horderly hapart).2 _ (fun o _ => ?_)
    fun path hpath => absurd hpath id⟩
  -- Nothing lies below the root.
  rw [Journal.spot_file (Journal.set_intentsFolder (.ofRoot root) true) (Intent.isIdentifier _ _ _ _),
    show spot Footprints.empty.here (Layout.ofRoot root).root = ["proj".toList] from by decide]
  simp [Footprints.empty, Disk.fresh, get?, entryAt, intentsWay]

open Footprints in
/-- A role that is called like the folder of intents takes every intent with it. -/
theorem role_deletion_forgets_intents : Project.ofSettings inward root now = .ok confused
    ∧ confused.layout.sourceRoot = .ok (root / "src")
    ∧ ¬ spot [] confused.layout.ownFolder <+: spot [] (root / "src")
    ∧ interrupted.tree.get? (spot [] confused.layout.intentsFolder) = some .folder
    ∧ ((confused.deleteRole (some "intents".toList)).on interrupted).1.isOk = true
    ∧ ((confused.journal.pending now).on interrupted).1.toOption.map List.length = some 1
    ∧ ((confused.journal.pending now).on
        ((confused.deleteRole (some "intents".toList)).on interrupted).2).1.toOption.map List.length = some 0 := by
  refine ⟨by decide +kernel, by decide +kernel, by decide, by decide +kernel, by decide +kernel, by decide +kernel,
    by decide +kernel⟩

end RouteScaffold
