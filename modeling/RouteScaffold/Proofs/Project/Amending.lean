import RouteScaffold.Proofs.Journal.Retaining
import RouteScaffold.Proofs.Project.Creation
import RouteScaffold.Proofs.Registry.FlatRoundTrip
import RouteScaffold.Proofs.Registry.Removal

/-!
# Plans That Amend a Registry

A command about a module or a page of a role makes some edits to the registry of the
role. All else that it does is done in the folder of the module: other steps touch
neither the registry nor the descriptor, and take away no folder but those of modules.
A page of the flat dialect is routed in the folder of its module, too, so there no edit
is left for the registry.

## Main definitions

* `Elsewhere`: A step that touches neither the registry nor the descriptor.
* `Tidy`: A step that takes away no folder but those of modules.
* `Amends`: A plan that makes some edits to the registry.

## Theorems

* `moduleCreation_amends`, `pageCreation_amends`, `moduleDeletion_amends`,
  `pageDeletion_amends`: Which edits the commands make to the registry.
* `Amends.track`, `Amends.track_beside`: What such a command leaves of the registry, and
  of all else.
* `createRole_places`: A new role has its registry and its descriptor.
-/

namespace RouteScaffold

open Naming Text Job Disk RouteScaffold.Tree Journal

namespace Project

variable {folder : Path} {r : Registry} {m : ModuleRef} {p : PageRef} {segment : Text} {names : List Text}

/-- A step that touches neither the registry of a role nor its descriptor. -/
def Elsewhere (folder : Path) (s : Step) : Prop :=
  ∀ here, s.Spares here (spot here folder ++ registryNames)
    ∧ s.Spares here (spot here folder ++ [".aviators-role.json".toList])

/-- A step that takes away no folder of a role but those of modules. -/
def Tidy (folder : Path) (s : Step) : Prop :=
  ∀ here, s.Retains here fun l => ¬ spot here folder ++ ["modules".toList] <+: l

/-- A plan that makes some edits to the registry of a role, and works elsewhere before
    that and behind it. -/
def Amends (folder : Path) (edits : List Edit) (plan : List Step) : Prop :=
  ∃ before behind, plan = before ++ (edits.map (.edit (folder.below registryNames)) ++ behind)
    ∧ ∀ s ∈ before ++ behind, Elsewhere folder s ∧ Tidy folder s

theorem Amends.of_elsewhere {plan : List Step} (h : ∀ s ∈ plan, Elsewhere folder s ∧ Tidy folder s) :
    Amends folder [] plan := ⟨plan, [], by simp, by simpa using h⟩

/-! ### Steps -/

/-- Nothing of a module is where the registry or the descriptor is. -/
theorem module_names_ne : "modules".toList :: segment :: names ≠ registryNames
    ∧ "modules".toList :: segment :: names ≠ [".aviators-role.json".toList] :=
  ⟨fun heq => absurd (List.cons.inj heq).1 (by decide), fun heq => absurd (List.cons.inj heq).1 (by decide)⟩

theorem module_names_not_prefix : ¬ "modules".toList :: segment :: names <+: registryNames
    ∧ ¬ "modules".toList :: segment :: names <+: [".aviators-role.json".toList] :=
  ⟨fun hpre => absurd (List.cons_prefix_cons.mp hpre).1 (by decide),
    fun hpre => absurd (List.cons_prefix_cons.mp hpre).1 (by decide)⟩

/-- A step that tells the intent something. -/
theorem aside_snapshot (file : Path) : (Elsewhere folder (.snapshot file) ∧ Tidy folder (.snapshot file))
    ∧ Elsewhere folder (.snapshotIfPresent file) ∧ Tidy folder (.snapshotIfPresent file) :=
  ⟨⟨fun _ => ⟨trivial, trivial⟩, fun _ => trivial⟩, fun _ => ⟨trivial, trivial⟩, fun _ => trivial⟩

theorem aside_making {things : List (List Text × Made)} (hstraight : ∀ x ∈ things, ['.', '.'] ∉ x.1)
    (h : ∀ x ∈ things, ∃ segment names, x.1 = "modules".toList :: segment :: names) {made : Path} :
    ∀ s ∈ Step.record made :: making folder things, Elsewhere folder s ∧ Tidy folder s := by
  have hne : ∀ x ∈ things, x.1 ≠ registryNames ∧ x.1 ≠ [".aviators-role.json".toList] := fun x hx => by
    rcases h x hx with ⟨segment, names, heq⟩
    rw [heq]
    exact module_names_ne
  exact fun s hs => ⟨fun here => ⟨spares_making hstraight (fun x hx => (hne x hx).1) here s hs,
    spares_making hstraight (fun x hx => (hne x hx).2) here s hs⟩,
    fun _ => Step.retains_of_makes (makes_making s hs)⟩

theorem aside_edit (hdots : ['.', '.'] ∉ "modules".toList :: segment :: names) (e : Edit) {s : Step}
    (hs : s = .edit (folder.below ("modules".toList :: segment :: names)) e
      ∨ s = .editIfPresent (folder.below ("modules".toList :: segment :: names)) e) :
    Elsewhere folder s ∧ Tidy folder s := by
  have hne : ∀ here, spot here (folder.below ("modules".toList :: segment :: names))
        ≠ spot here folder ++ registryNames
      ∧ spot here (folder.below ("modules".toList :: segment :: names))
        ≠ spot here folder ++ [".aviators-role.json".toList] := fun here => by
    rw [spot_below here folder hdots]
    exact ⟨fun heq => module_names_ne.1 (List.append_cancel_left heq),
      fun heq => module_names_ne.2 (List.append_cancel_left heq)⟩
  rcases hs with rfl | rfl <;> exact ⟨hne, fun _ => trivial⟩

theorem aside_remove (hdots : ['.', '.'] ∉ "modules".toList :: segment :: names) (missingOk : Bool) :
    Elsewhere folder (.remove (folder.below ("modules".toList :: segment :: names)) missingOk)
      ∧ Tidy folder (.remove (folder.below ("modules".toList :: segment :: names)) missingOk) := by
  refine ⟨fun here => ⟨?_, ?_⟩, fun here l hl hpre => hl ?_⟩
  · change ¬ spot here (folder.below _) <+: _
    rw [spot_below here folder hdots, List.prefix_append_right_inj]
    exact module_names_not_prefix.1
  · change ¬ spot here (folder.below _) <+: _
    rw [spot_below here folder hdots, List.prefix_append_right_inj]
    exact module_names_not_prefix.2
  · rw [spot_below here folder hdots] at hpre
    refine List.IsPrefix.trans ?_ hpre
    rw [List.prefix_append_right_inj]
    exact ⟨segment :: names, rfl⟩

/-! ### Plans -/

theorem amends_createModule (h : m.Spelled) (hseg : Path.IsName m.segment)
    (hfile : (r.guard (.module m)).file = folder.below registryNames) :
    Amends folder (r.add (.module m)).edits
      (createModulePlan r m folder (folder.below ["modules".toList, m.segment])) := by
  have hne : m.segment ≠ [] := hseg.2.1
  refine ⟨(.record (folder.below ["modules".toList, m.segment]) :: making folder (moduleThings r.dialect m))
    ++ [.snapshot (folder.below registryNames)], [], ?_, ?_⟩
  · rw [createModulePlan_eq h hne, hfile]
    simp
  · rw [List.append_nil]
    refine List.forall_mem_append.mpr ⟨aside_making (fun x hx => ?_) fun x hx => ?_, ?_⟩
    · rcases mem_moduleThings h hne hx with ⟨file, hx, hisName, -⟩
      rw [hx]
      exact Path.not_up_of_names (isName_module hseg (by simpa using hisName))
    · rcases mem_moduleThings h hne hx with ⟨file, hx, -⟩
      exact ⟨m.segment, [file], hx⟩
    · exact List.forall_mem_singleton.mpr (aside_snapshot _).1

/-- The file of a page is in the folder of its module. -/
theorem aside_pageFile (h : p.Spelled) (hseg : Path.IsName p.module.segment) {made : Path} :
    ∀ s ∈ Step.record made :: making folder (filesOf (pageFiles p)), Elsewhere folder s ∧ Tidy folder s := by
  rw [filesOf_page h hseg.2.1]
  refine aside_making (List.forall_mem_singleton.mpr ?_) (List.forall_mem_singleton.mpr ⟨_, _, rfl⟩)
  refine Path.not_up_of_names (isName_module hseg fun n hn => ?_)
  simp only [List.mem_cons, List.not_mem_nil, or_false] at hn
  rcases hn with rfl | rfl
  · exact ⟨by decide, by decide, by decide, by decide⟩
  · exact isName_component h.name

/-- Where a page is routed in the flat dialect. -/
theorem pageFile_flat (h : p.Spelled) (hseg : Path.IsName p.module.segment) (hflat : r.dialect = .flat)
    (hmodules : r.modules = folder.below ["modules".toList]) :
    (r.guard (.page p)).file = folder.below ["modules".toList, p.module.segment,
        p.module.segment ++ ".route.tsx".toList]
      ∧ ['.', '.'] ∉ ["modules".toList, p.module.segment, p.module.segment ++ ".route.tsx".toList] := by
  rcases r with ⟨dialect, file, modules⟩
  dsimp only at hflat hmodules
  subst hflat hmodules
  refine ⟨routeFile_eq h.module hseg.2.1 .flat file folder, Path.not_up_of_names (isName_module hseg ?_)⟩
  exact List.forall_mem_singleton.mpr (isName_routeFile h.module.segment)

/-- Of the edits that route a page, those to the registry of its role. -/
def sharedEdits (r : Registry) (edits : List Edit) : List Edit :=
  match r.dialect with
  | .marker => edits
  | .flat => []

theorem amends_createPage (h : p.Spelled) (hseg : Path.IsName p.module.segment)
    (hfile : r.file = folder.below registryNames) (hmodules : r.modules = folder.below ["modules".toList]) :
    Amends folder (sharedEdits r (r.add (.page p)).edits) (createPagePlan r p folder) := by
  rw [createPagePlan_eq h hseg.2.1, sharedEdits]
  cases hr : r.dialect with
  | marker =>
      have hlisted : (r.guard (.page p)).file = folder.below registryNames := by
        change (r.pageGuard p).file = _
        rw [Registry.pageGuard, hr]
        exact hfile
      refine ⟨(.record (folder.below ["modules".toList, p.module.segment, "pages".toList,
          p.name ++ ".tsx".toList]) :: making folder (filesOf (pageFiles p)))
        ++ [.snapshot (folder.below registryNames)], [], ?_, ?_⟩
      · rw [hlisted]
        simp
      · rw [List.append_nil]
        exact List.forall_mem_append.mpr
          ⟨aside_pageFile h hseg, List.forall_mem_singleton.mpr (aside_snapshot _).1⟩
  | flat =>
      rcases pageFile_flat h hseg hr hmodules with ⟨hlisted, hdots⟩
      -- A page is routed in a file of its module, and the registry is left alone.
      rw [hlisted]
      refine .of_elsewhere (List.forall_mem_append.mpr ⟨aside_pageFile h hseg,
        List.forall_mem_cons.mpr ⟨(aside_snapshot _).1, fun s hs => ?_⟩⟩)
      rcases List.mem_map.mp hs with ⟨e, -, rfl⟩
      exact aside_edit hdots e (Or.inl rfl)

theorem amends_deleteModule (hseg : Path.IsName m.segment) (hfile : r.file = folder.below registryNames) :
    Amends folder (r.remove (.module m)).edits
      (deleteModulePlan r m (folder.below ["modules".toList, m.segment])) := by
  have hremoved : (r.removeModule m).file = folder.below registryNames := by
    rw [Registry.removeModule, ← hfile]
    cases r.dialect <;> rfl
  refine ⟨[.snapshot (folder.below registryNames)],
    [.remove (folder.below ["modules".toList, m.segment]) true], ?_, ?_⟩
  · rw [deleteModulePlan, reviseSteps, hremoved, hfile]
    rfl
  · refine List.forall_mem_append.mpr ⟨List.forall_mem_singleton.mpr (aside_snapshot _).1,
      List.forall_mem_singleton.mpr (aside_remove ?_ true)⟩
    exact Path.not_up_of_names (isName_module hseg fun _ h => absurd h (by simp))

/-- The file of a page can be removed. -/
theorem aside_removePage (h : p.Spelled) (hseg : Path.IsName p.module.segment) (missingOk : Bool) :
    Elsewhere folder (.remove (folder.below ["modules".toList, p.module.segment, "pages".toList,
        p.name ++ ".tsx".toList]) missingOk)
      ∧ Tidy folder (.remove (folder.below ["modules".toList, p.module.segment, "pages".toList,
        p.name ++ ".tsx".toList]) missingOk) := by
  refine aside_remove (Path.not_up_of_names (isName_module hseg fun n hn => ?_)) missingOk
  simp only [List.mem_cons, List.not_mem_nil, or_false] at hn
  rcases hn with rfl | rfl
  · exact ⟨by decide, by decide, by decide, by decide⟩
  · exact isName_component h.name

theorem amends_deletePage (h : p.Spelled) (hseg : Path.IsName p.module.segment)
    (hfile : r.file = folder.below registryNames) (hmodules : r.modules = folder.below ["modules".toList]) :
    Amends folder (sharedEdits r (r.remove (.page p)).edits) (deletePagePlan r p
      (folder.below ["modules".toList, p.module.segment, "pages".toList, p.name ++ ".tsx".toList])) := by
  rw [deletePagePlan, sharedEdits, Registry.pageFileMayBeAbsent]
  cases hr : r.dialect with
  | marker =>
      have hremoved : (r.removePage p).file = folder.below registryNames := by
        rw [Registry.removePage, hr]
        exact hfile
      have hpageFile : r.pageFile p = folder.below registryNames := by
        rw [Registry.pageFile, hr]
        exact hfile
      refine ⟨[.snapshotIfPresent (folder.below registryNames)], [.remove (folder.below ["modules".toList,
        p.module.segment, "pages".toList, p.name ++ ".tsx".toList]) true], ?_, ?_⟩
      -- The registry is the one file that is kept and changed; the page is removed behind it.
      · rw [if_neg (by simp), reviseSteps, hremoved, hpageFile]
        rfl
      · exact List.forall_mem_append.mpr ⟨List.forall_mem_singleton.mpr (aside_snapshot _).2,
          List.forall_mem_singleton.mpr (aside_removePage h hseg true)⟩
  | flat =>
      rcases pageFile_flat h hseg hr hmodules with ⟨hlisted, hdots⟩
      have hremoved : (r.removePage p).file = folder.below ["modules".toList, p.module.segment,
          p.module.segment ++ ".route.tsx".toList] := by
        rw [← hlisted]
        exact (Registry.flat_file_eq hr (.page p)).2.1
      -- The module has a registry of its own, so the shared one is left alone.
      refine .of_elsewhere fun s hs => ?_
      rw [if_pos (by simp), hremoved] at hs
      rcases List.mem_append.mp hs with hs | hs
      · rcases List.mem_cons.mp hs with rfl | hs
        · exact (aside_snapshot _).2
        · rcases List.mem_map.mp hs with ⟨e, -, rfl⟩
          exact aside_edit hdots e (Or.inr rfl)
      · rw [List.mem_singleton.mp hs]
        exact aside_removePage h hseg true

/-! ### Edits -/

theorem operation_add (r : Registry) (x : Routed) :
    (∀ e ∈ (r.add x).edits, e.operation ≠ .append) ∧ (r.add x).edits ≠ [] := by
  rw [Registry.add_eq]
  refine ⟨fun e he => ?_, by simp⟩
  simp only [List.mem_cons, List.not_mem_nil, or_false] at he
  rcases he with rfl | rfl <;> cases r.dialect <;> simp [Routed.importEdit, Routed.entryEdit, Edit.operation]

theorem mem_sharedEdits {edits : List Edit} {e : Edit} (h : e ∈ sharedEdits r edits) : e ∈ edits := by
  rw [sharedEdits] at h
  split at h
  · exact h
  · exact absurd h (by simp)

theorem operation_remove (r : Registry) (x : Routed) :
    (∀ e ∈ (r.remove x).edits, e.operation ≠ .append) ∧ (r.remove x).edits ≠ [] := by
  cases hr : r.dialect with
  | marker =>
      rw [Registry.remove_eq hr]
      refine ⟨fun e he => ?_, by simp⟩
      rcases List.mem_append.mp he with he | he
      · rcases List.mem_map.mp he with ⟨q, -, rfl⟩
        simp [Edit.operation]
      · rw [List.mem_singleton.mp he]
        cases x <;> simp [Routed.cut, Edit.operation]
  | flat =>
      rw [(Registry.flat_file_eq hr x).2.2]
      exact ⟨List.forall_mem_singleton.mpr (by simp [Edit.operation]), by simp⟩

/-! ### Orders -/

section Orders

/-- What the guard has admitted that looked at the registry of a role. -/
theorem registry_admits {g : Guard} {d : Disk} {t : Text} (hfile : g.file = folder.below registryNames)
    (hregistry : d.tree.get? (spot d.here folder ++ registryNames) = some (.file (.text t))) (ht : '\r' ∉ t)
    (hguard : g.check.on d = (.ok (), d)) : g.admits t = .ok () := by
  rcases guard_ok hguard with ⟨loc, c, u, hfind, hloc, hread, hadmits⟩
  rw [hfile] at hfind
  rw [spot_of_find hfind, spot_below _ _ (by decide), hregistry, Option.some.injEq, Entry.file.injEq] at hloc
  subst hloc
  rw [Content.read, Except.ok.injEq] at hread
  subst hread
  rwa [Text.toLf_of_no_return ht] at hadmits

variable {q : Project} {role raw module : Option Text} {d : Disk}

/-- A page that a command has found, with its module. -/
structure PageFound (q : Project) (role module raw : Option Text) (d : Disk) (t : PageTarget) (folder : Path)
    (base : Location) : Prop where
  within : ModuleFound q role module d t.within folder base
  module_eq : t.ref.module = t.within.ref
  accepted : t.ref.Accepted
  raw_eq : raw = some t.page.raw
  segment_eq : t.ref.segment = Naming.segment t.page.raw
  name_eq : t.ref.name = pascal t.page.raw

variable (hfolder : ∀ t, role = some t → q.layout.roleFolder t = .ok folder)
include hfolder

/-- The module that is found is one of the role in its folder. -/
theorem moduleTarget_found {t : ModuleTarget} (h : (q.moduleTarget role raw).on d = (.ok t, d)) :
    ∃ base, ModuleFound q role raw d t folder base := by
  rcases moduleTarget_ok h with ⟨own, base, hfound⟩
  have hown := hfound.folder_eq
  rw [hfolder _ hfound.role_eq, Except.ok.injEq] at hown
  exact ⟨base, hown ▸ hfound⟩

/-- So is the module of the page that is found. -/
theorem pageTarget_found {t : PageTarget} (h : (q.pageTarget role module raw).on d = (.ok t, d)) :
    ∃ base, PageFound q role module raw d t folder base := by
  rcases pageTarget_ok h with ⟨own, base, hfound, hwithin, haccepted, hraw, hsegment, hname⟩
  have hown := hfound.folder_eq
  rw [hfolder _ hfound.role_eq, Except.ok.injEq] at hown
  exact ⟨base, hown ▸ hfound, hwithin, haccepted, hraw, hsegment, hname⟩

/-- What the making of a module does to the registry, whose guard has admitted it. -/
theorem moduleCreation_amends : Decides d (fun o => ∃ t base, ModuleFound q role raw d t folder base
      ∧ (t.registry.guard (.module t.ref)).check.on d = (.ok (), d)
      ∧ Amends folder (t.registry.add (.module t.ref)).edits o.plan) (q.moduleCreation role raw) := by
  refine decides_bind (looks_moduleTarget q _ _) fun t ht => ?_
  rcases moduleTarget_found hfolder ht with ⟨base, hfound⟩
  refine decides_ofExcept fun place hplace => ?_
  rw [hfound.moduleFolder_eq, Except.ok.injEq] at hplace
  subst hplace
  refine decides_bind (looks_isThere _) fun there _ => decides_refuse fun _ => ?_
  refine decides_bind (looks_guard _) fun _ hguard => decides_ofExcept fun roleFolder hrole =>
    decides_pure ⟨t, base, hfound, hguard, ?_⟩
  rw [hfound.folder_eq, Except.ok.injEq] at hrole
  subst hrole
  exact amends_createModule hfound.accepted.spelled hfound.isName_segment hfound.guard_module_file

/-- What the making of a page does to the registry of its role. -/
theorem pageCreation_amends : Decides d (fun o => ∃ t base, PageFound q role module raw d t folder base
      ∧ (t.within.registry.guard (.page t.ref)).check.on d = (.ok (), d)
      ∧ Amends folder (sharedEdits t.within.registry (t.within.registry.add (.page t.ref)).edits) o.plan)
    (q.pageCreation role module raw) := by
  refine decides_bind (looks_pageTarget q _ _ _) fun t ht => ?_
  rcases pageTarget_found hfolder ht with ⟨base, hfound⟩
  have hwithin := hfound.within
  refine decides_ofExcept fun roleFolder hrole => ?_
  rw [hfound.module_eq, hwithin.folder_eq, Except.ok.injEq] at hrole
  subst hrole
  refine decides_bind (looks_requireAbsent _) fun _ _ => ?_
  refine decides_bind (looks_guard _) fun _ hguard =>
    decides_pure ⟨t, base, hfound, hguard, ?_⟩
  exact amends_createPage hfound.accepted.spelled (hfound.module_eq ▸ hwithin.isName_segment)
    (by rw [hwithin.registry_eq]; rfl) (by rw [hwithin.registry_eq])

/-- What the removal of a module does to the registry. -/
theorem moduleDeletion_amends (missingOk : Bool) : Decides d (fun o => ∃ t base,
      ModuleFound q role raw d t folder base
      ∧ Amends folder (t.registry.remove (.module t.ref)).edits o.plan) (q.moduleDeletion role raw missingOk) := by
  refine decides_bind (looks_moduleTarget q _ _) fun t ht => ?_
  rcases moduleTarget_found hfolder ht with ⟨base, hfound⟩
  refine decides_ofExcept fun place hplace => ?_
  rw [hfound.moduleFolder_eq, Except.ok.injEq] at hplace
  subst hplace
  refine decides_bind (looks_isThere _) fun there _ => decides_require fun _ =>
    decides_pure ⟨t, base, hfound, amends_deleteModule hfound.isName_segment (by rw [hfound.registry_eq]; rfl)⟩

/-- What the removal of a page does to the registry of its role. -/
theorem pageDeletion_amends (missingOk : Bool) : Decides d (fun o => ∃ t base,
      PageFound q role module raw d t folder base
      ∧ Amends folder (sharedEdits t.within.registry (t.within.registry.remove (.page t.ref)).edits) o.plan)
    (q.pageDeletion role module raw missingOk) := by
  refine decides_bind (looks_pageTarget q _ _ _) fun t ht => ?_
  rcases pageTarget_found hfolder ht with ⟨base, hfound⟩
  have hwithin := hfound.within
  have hseg : Path.IsName t.ref.module.segment := hfound.module_eq ▸ hwithin.isName_segment
  refine decides_ofExcept fun pages hpages => ?_
  rw [Layout.pagesFolder_eq (hfound.module_eq ▸ hwithin.folder_eq) hseg, Except.ok.injEq] at hpages
  subst hpages
  refine decides_bind (looks_isThere _) fun there _ => decides_require fun _ =>
    decides_pure ⟨t, base, hfound, ?_⟩
  have hplace : folder.below ["modules".toList, t.ref.module.segment, "pages".toList]
        / (t.ref.name ++ ".tsx".toList)
      = folder.below ["modules".toList, t.ref.module.segment, "pages".toList, t.ref.name ++ ".tsx".toList] := by
    rw [Path.div_name (isName_component hfound.accepted.spelled.name), Path.below_below]
    rfl
  rw [hplace]
  exact amends_deletePage hfound.accepted.spelled hseg (by rw [hwithin.registry_eq]; rfl)
    (by rw [hwithin.registry_eq])

end Orders

/-! ### What a command leaves -/

section Leaves

variable {j : Journal} {root : Path}

theorem avoids_registry (h : j.Set root) (here : Location) (folder : Path) :
    j.Avoids here (spot here folder ++ registryNames) := by
  rw [show spot here folder ++ registryNames
    = (spot here folder ++ ["routes".toList]) ++ ["route.tsx".toList] by simp [registryNames]]
  refine avoids_of_name h (fun id _ heq => ?_) _ _
  have := congrArg List.getLast? heq
  rw [List.getLast?_append_of_ne_nil _ (by decide)] at this
  exact absurd this (by decide)

theorem avoids_descriptor (h : j.Set root) (here : Location) (folder : Path) :
    j.Avoids here (spot here folder ++ [".aviators-role.json".toList]) := by
  refine avoids_of_name h (fun id hid heq => ?_) _ _
  cases id with
  | nil => exact absurd heq (by decide)
  | cons c id =>
      have hc : c = '.' := (List.cons.inj heq).1
      exact absurd (hid c (by simp)) (by rw [hc]; decide)

variable {d d' : Disk} {now : Timestamp} {verb : Text} {args : List Text} {mode : Mode} {plan : List Step}
  {edits : List Edit} {t t' : Text} {c : Content}

/-- What holds of the steps elsewhere and of the edits holds of the whole plan. -/
theorem Amends.forall_mem (h : Amends folder edits plan) {P : Step → Prop}
    (hother : ∀ s, Elsewhere folder s ∧ Tidy folder s → P s)
    (hedit : ∀ e, P (.edit (folder.below registryNames) e)) : ∀ s ∈ plan, P s := by
  rcases h with ⟨before, behind, rfl, hsteps⟩
  intro s hs
  rcases List.mem_append.mp hs with hs | hs
  · exact hother s (hsteps s (List.mem_append_left _ hs))
  · rcases List.mem_append.mp hs with hs | hs
    · rcases List.mem_map.mp hs with ⟨e, -, rfl⟩
      exact hedit e
    · exact hother s (hsteps s (List.mem_append_right _ hs))

theorem Amends.spares_descriptor (h : Amends folder edits plan) (here : Location) :
    ∀ s ∈ plan, s.Spares here (spot here folder ++ [".aviators-role.json".toList]) := by
  refine h.forall_mem (fun s hs => (hs.1 here).2) fun e => ?_
  change spot here _ ≠ _
  rw [spot_below _ _ (by decide)]
  exact fun heq => absurd (List.append_cancel_left heq) (by decide)

/-- A command that amends the registry leaves the descriptor alone, and a path whose way
    does not go through modules leads where it did. -/
theorem Amends.track_beside (h : Amends folder edits plan) (hj : j.Set root)
    (hdescriptor : d.tree.get? (spot d.here folder ++ [".aviators-role.json".toList]) = some (.file c))
    {r : Except Fault Bool} (hrun : (j.track now verb args mode plan).on d = (r, d')) : d'.here = d.here
      ∧ d'.tree.get? (spot d.here folder ++ [".aviators-role.json".toList]) = some (.file c)
      ∧ ∀ p loc, d.find p = .ok loc → (∀ s ∈ way d.here p, ¬ spot d.here folder ++ ["modules".toList] <+: s) →
        d'.find p = .ok loc := by
  have hretains := h.forall_mem (P := fun s => s.Retains d.here fun l => ¬ spot d.here folder ++ ["modules".toList] <+: l)
    (fun s hs => hs.2 d.here) fun e => trivial
  rcases (spares_track (h.spares_descriptor d.here) (avoids_descriptor hj d.here folder)).and
    (retains_track hretains) d rfl with ⟨ws, hws, hruns⟩
  rw [hrun] at hws
  dsimp only at hws
  refine ⟨by rw [hws, after_here], ?_, fun p loc hfind hway => ?_⟩
  · rw [hws, after_tree]
    exact (hruns.mono fun _ _ hw => hw.1).spares hdescriptor
  · rw [hws]
    exact find_retained hfind hway (hruns.mono fun _ _ hw => hw.2)

/-- A command that amends the registry makes all of its edits, or fails and makes none. -/
theorem Amends.track (h : Amends folder edits plan) (hj : j.Set root) (hop : ∀ e ∈ edits, e.operation ≠ .append)
    (hlead : Edit.Leads (folder.below registryNames).text edits t t') (ht : '\r' ∉ t)
    (hregistry : d.tree.get? (spot d.here folder ++ registryNames) = some (.file (.text t)))
    {r : Except Fault Bool} (hrun : (j.track now verb args mode plan).on d = (r, d')) :
    d'.tree.get? (spot d.here folder ++ registryNames) = some (.file (.text t'))
      ∨ (∃ f, r = .error f) ∧ d'.tree.get? (spot d.here folder ++ registryNames) = some (.file (.text t)) := by
  rcases h with ⟨before, behind, rfl, hsteps⟩
  have hspot : spot d.here (folder.below registryNames) = spot d.here folder ++ registryNames :=
    spot_below _ _ (by decide)
  have hdoc := avoids_registry hj d.here folder
  rw [← hspot] at hdoc hregistry ⊢
  by_cases hne : edits = []
  · -- Without an edit the registry is left alone.
    subst hne
    cases hlead
    have hother : ∀ s ∈ before ++ ([].map (.edit (folder.below registryNames)) ++ behind),
        s.Spares d.here (spot d.here (folder.below registryNames)) := fun s hs => by
      rw [hspot]
      exact ((hsteps s (by simpa using hs)).1 d.here).1
    rcases spares_track hother hdoc d rfl with ⟨vs, hvs, hkept⟩
    rw [hrun] at hvs
    dsimp only at hvs
    rw [hvs, after_tree]
    exact Or.inl (hkept.spares hregistry)
  · exact track_leads hlead hop hne ht (fun s hs => by
      rw [hspot]
      exact ((hsteps s hs).1 d.here).1) hdoc hregistry hrun

/-- A command that amends the registry in whatever way leaves the descriptor alone. -/
theorem descriptor_kept {q : Project} (hj : q.journal.Set root)
    (hdescriptor : d.tree.get? (spot d.here folder ++ [".aviators-role.json".toList]) = some (.file c))
    {j : Job Order} (hdecides : Decides d (fun o => ∃ edits, Amends folder edits o.plan) j)
    {r : Except Fault Artifact} (hrun : (j >>= q.carryOut).on d = (r, d')) : d'.here = d.here
      ∧ d'.tree.get? (spot d.here folder ++ [".aviators-role.json".toList]) = some (.file c) := by
  rcases carryOut_cases hdecides hrun with ⟨rfl, -⟩ | ⟨o, s, ⟨edits, hamends⟩, htrack, -⟩
  · exact ⟨rfl, hdescriptor⟩
  · rcases hamends.track_beside hj hdescriptor htrack with ⟨hhere, hkept, -⟩
    exact ⟨hhere, hkept⟩

/-- What a command leaves that amends the registry. Whatever its edits lead from what
    holds of the registry to what is to hold of it, holds of it afterwards; or the command
    has failed, and what has held still does. -/
theorem registry_amended {q : Project} {S S' : Text → Prop} (hj : q.journal.Set root) (hS : ∀ t, S t → '\r' ∉ t)
    (hregistry : ∃ t, S t ∧ d.tree.get? (spot d.here folder ++ registryNames) = some (.file (.text t)))
    (hdescriptor : d.tree.get? (spot d.here folder ++ [".aviators-role.json".toList]) = some (.file c))
    {j : Job Order} (hdecides : Decides d (fun o => ∃ edits, Amends folder edits o.plan
      ∧ (∀ e ∈ edits, e.operation ≠ .append)
      ∧ ∀ t, S t → d.tree.get? (spot d.here folder ++ registryNames) = some (.file (.text t)) →
        ∃ t', S' t' ∧ Edit.Leads (folder.below registryNames).text edits t t') j)
    {r : Except Fault Artifact} (hrun : (j >>= q.carryOut).on d = (r, d')) : d'.here = d.here
      ∧ d'.tree.get? (spot d.here folder ++ [".aviators-role.json".toList]) = some (.file c)
      ∧ ((∃ t, S' t ∧ d'.tree.get? (spot d.here folder ++ registryNames) = some (.file (.text t)))
        ∨ (∃ f, r = .error f)
          ∧ ∃ t, S t ∧ d'.tree.get? (spot d.here folder ++ registryNames) = some (.file (.text t)))
      ∧ ∀ p loc, d.find p = .ok loc → (∀ s ∈ way d.here p, ¬ spot d.here folder ++ ["modules".toList] <+: s) →
        d'.find p = .ok loc := by
  -- Without an order nothing has been written.
  rcases carryOut_cases hdecides hrun with ⟨rfl, hfailed⟩ | ⟨o, s, ⟨edits, hamends, hop, hlead⟩, htrack, hr⟩
  · exact ⟨rfl, hdescriptor, Or.inr ⟨hfailed, hregistry⟩, fun p loc hfind _ => hfind⟩
  · rcases hregistry with ⟨t, ht, hregistry⟩
    rcases hlead t ht hregistry with ⟨t', ht', hleads⟩
    rcases hamends.track_beside hj hdescriptor htrack with ⟨hhere, hdescribed, hfind⟩
    refine ⟨hhere, hdescribed, ?_, hfind⟩
    rcases hamends.track hj hop hleads (hS t ht) hregistry htrack with hdone | ⟨⟨f, rfl⟩, hkept⟩
    · exact Or.inl ⟨t', ht', hdone⟩
    · exact Or.inr ⟨⟨f, hr⟩, t, ht, hkept⟩

end Leaves

/-! ### New roles -/

section NewRoles

variable {j : Journal} {root : Path}

variable {q : Project} {role t : Text} {dialect : Dialect} {d d' : Disk}

/-- What is made of a role, with the text of its registry. -/
def newRoleThings (made : Descriptor) (t : Text) : List (List Text × Made) :=
  [(["assets".toList], .folder), (["api".toList], .folder), (["modules".toList], .folder),
    (["routes".toList], .folder), (registryNames, .newFile t),
    ([".aviators-role.json".toList], .file made.document)]

theorem names_newRoleThings (made : Descriptor) (t : Text) : (newRoleThings made t).map Prod.fst
    = [["assets".toList], ["api".toList], ["modules".toList], ["routes".toList], registryNames,
      [".aviators-role.json".toList]] := rfl

theorem roleThings_of_files {made : Descriptor}
    (hfiles : roleFiles made.name made.dialect = [("routes/route.tsx".toList, t)]) :
    roleThings made = newRoleThings made t := by
  rw [roleThings, hfiles, filesOf, List.map_singleton]
  dsimp only
  rw [ofText_registry]
  rfl

/-- A role that has been made has its registry and its descriptor, and their paths
    lead to them. -/
theorem createRole_places {asked : Option Text} {a : Artifact} (hasked : q.dialectFor asked = .ok dialect)
    (hfolder : q.layout.roleFolder role = .ok folder) (hj : q.journal.Set root)
    (hfiles : roleFiles role dialect = [("routes/route.tsx".toList, t)])
    (hrun : (q.createRole (some role) asked).on d = (.ok a, d')) : isRoleName role = true ∧ d'.here = d.here
      ∧ d'.tree.get? (spot d'.here folder ++ registryNames) = some (.file (.text t))
      ∧ d'.tree.get? (spot d'.here folder ++ [".aviators-role.json".toList])
        = some (.file (.text (⟨role, dialect, q.now⟩ : Descriptor).document))
      ∧ d'.find (folder.below registryNames) = .ok (spot d'.here folder ++ registryNames)
      ∧ d'.find (folder.below [".aviators-role.json".toList])
        = .ok (spot d'.here folder ++ [".aviators-role.json".toList]) := by
  have hdecides : Decides d (fun o => isRoleName role = true ∧ o.plan
      = .record folder :: making folder (roleThings ⟨role, dialect, q.now⟩)) (q.roleCreation (some role) asked) := by
    refine decides_ofExcept fun named hnamed => decides_ofExcept fun wanted hwanted =>
      decides_ofExcept fun own hown => ?_
    rcases Kind.role_named hnamed with ⟨hraw, hname, hisRole⟩
    rw [← Option.some.inj hraw] at hname
    rw [hname] at hown hisRole
    rw [hfolder, Except.ok.injEq] at hown
    subst hown
    rw [hasked, Except.ok.injEq] at hwanted
    subst hwanted
    refine decides_bind (looks_isThere _) fun there _ => decides_refuse fun _ => ?_
    refine decides_ofExcept fun descriptor hdescriptor => decides_pure ⟨hisRole, ?_⟩
    rw [hname, Layout.descriptorFile_eq hfolder, Except.ok.injEq] at hdescriptor
    rw [← hdescriptor, hname]
    exact createRolePlan_eq _ _
  rcases carryOut_cases hdecides hrun with ⟨-, f, hf⟩ | ⟨o, r, ⟨hrole, hplan⟩, htrack, hr⟩
  · exact absurd hf (by simp)
  · cases r with
    | error f => exact absurd hr (by simp [Except.map])
    | ok b =>
        rw [hplan, roleThings_of_files hfiles] at htrack
        -- The places of a role are all different, so each holds in the end what is put there.
        have hstraight : ∀ x ∈ newRoleThings ⟨role, dialect, q.now⟩ t, ['.', '.'] ∉ x.1 := by
          rw [← List.forall_mem_map (f := Prod.fst) (P := fun names => ['.', '.'] ∉ names), names_newRoleThings]
          decide
        have hapart : (newRoleThings ⟨role, dialect, q.now⟩ t).Pairwise fun x y => x.1 ≠ y.1 := by
          rw [← List.pairwise_map (f := Prod.fst) (R := fun xs ys => xs ≠ ys), names_newRoleThings]
          decide
        have hregistry : (registryNames, .newFile t) ∈ newRoleThings ⟨role, dialect, q.now⟩ t := by
          simp [newRoleThings]
        have hdescriptor : ([".aviators-role.json".toList], .file (⟨role, dialect, q.now⟩ : Descriptor).document)
            ∈ newRoleThings ⟨role, dialect, q.now⟩ t := by
          simp [newRoleThings]
        rcases track_making hregistry (Or.inl rfl) hstraight hapart (avoids_registry hj d.here folder)
          htrack with ⟨hhere, hregistered⟩
        rcases track_making hdescriptor (Or.inr rfl) hstraight hapart (avoids_descriptor hj d.here folder)
          htrack with ⟨-, hdescribed⟩
        have hfound : d'.find (folder.below registryNames) = .ok (spot d'.here (folder.below registryNames)) :=
          track_reaches (List.mem_cons_of_mem _ (mem_making.mpr ⟨_, hregistry, rfl⟩)) (Or.inl rfl)
            makes_making htrack
        have hfound' : d'.find (folder.below [".aviators-role.json".toList])
            = .ok (spot d'.here (folder.below [".aviators-role.json".toList])) :=
          track_reaches (List.mem_cons_of_mem _ (mem_making.mpr ⟨_, hdescriptor, rfl⟩)) (Or.inr rfl)
            makes_making htrack
        rw [spot_below _ _ (by decide)] at hfound hfound'
        rw [hhere] at hfound hfound' ⊢
        exact ⟨hrole, rfl, hregistered, hdescribed, hfound, hfound'⟩

end NewRoles

end Project

end RouteScaffold
