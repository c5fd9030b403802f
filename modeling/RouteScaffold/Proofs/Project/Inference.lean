import RouteScaffold.Proofs.Journal.Saving
import RouteScaffold.Proofs.Marker.History
import RouteScaffold.Proofs.Project.Footprint
import RouteScaffold.Proofs.Project.Listing
import RouteScaffold.Proofs.Registry.Loading

/-!
# The Dialect That a Registry Shows

A role says in its descriptor which dialect its registry has. If the descriptor is
lost, the text of the registry is asked instead, and it gives the same answer: no
command about a module or a page takes the root sentinel out of a registry of the
marker dialect, and none takes the head of the array out of a registry of the flat one
or writes a sentinel into it. This holds whether commands succeed or fail, and whatever
is removed, be it routed or not.

Two things are asked of the role. The head of its array must not be mistaken for a line
with a module's variable, which takes a name with a line break at its end. And the way
to its folder must not lead through the folders of its modules, which commands remove.

## Main definitions

* `Shows`: A text that shows a dialect.
* `Seen`: A role whose registry shows the dialect that its descriptor names.
* `Seen.History`: What such a role has behind it.

## Theorems

* `Shows.inferred`: The dialect that a text shows is the one that is seen in it.
* `Seen.command`: A command leaves a role as one whose dialect is seen.
* `Seen.History.loaded_without_descriptor`: A role that has lost its descriptor is
  loaded with the dialect that the descriptor named.
-/

namespace RouteScaffold

open Naming Text Job Disk RouteScaffold.Tree Journal Project Marker

variable {role t file : Text} {dialect : Dialect} {r : Registry} {m : ModuleRef} {p : PageRef}

/-! ### Texts -/

/-- A text that shows a dialect: it is a registry of that dialect in outline, and the
    elements of its pages are as they were made. -/
def Shows (role : Text) : Dialect → Text → Prop
  | .marker, t => ∃ o : Marker.Outline, (o.Sound ∧ o.Paged) ∧ o.role = role ∧ o.text = t
  | .flat, t => ∃ o : Flat.Outline, o.Sound ∧ o.role = role ∧ o.text = t

namespace Shows

/-- The dialect that a text shows is the one that is seen in it. -/
theorem inferred (h : Shows role dialect t) : Descriptor.inferred? role t = some dialect := by
  cases dialect with
  | marker =>
      rcases h with ⟨o, -, rfl, rfl⟩
      have hoccurs : occurs rootSentinel o.text = true := by
        rw [occurs_iff_part]
        exact ⟨o.head ++ (o.signature ++ (o.opening ++ ("\n        ".toList ++ o.branches.flatMap Branch.text))),
          Marker.Outline.tail, by simp only [Marker.Outline.text, List.append_assoc]⟩
      rw [Descriptor.inferred?, if_pos hoccurs]
  | flat =>
      rcases h with ⟨o, hsound, rfl, rfl⟩
      exact hsound.inferred

/-- To show a dialect is to be a registry of it, whatever modules it lists. -/
theorem iff_lists : Shows role dialect t ↔ Lists role [] dialect t := by
  cases dialect <;> simp [Shows, Lists]

theorem of_lists {live : List ModuleRef} (h : Lists role live dialect t) : Shows role dialect t :=
  iff_lists.mpr (h.mono (by simp))

theorem no_return (h : Shows role dialect t) : '\r' ∉ t := (iff_lists.mp h).no_return

/-- A new registry shows its dialect. -/
theorem of_new (h : isRoleName role = true) (dialect : Dialect) :
    ∃ t, roleFiles role dialect = [("routes/route.tsx".toList, t)] ∧ Shows role dialect t := by
  rcases Lists.of_new h dialect with ⟨t, hfiles, hlists⟩
  exact ⟨t, hfiles, of_lists hlists⟩

/-- A registry that lets a module in goes on showing its dialect. -/
theorem add_module (h : Shows role r.dialect t) (hm : m.Accepted) (hrole : m.role = role)
    (hadmits : (r.guard (.module m)).admits t = .ok ()) (file : Text) :
    ∃ t', Shows role r.dialect t' ∧ Edit.Leads file (r.add (.module m)).edits t t' := by
  rcases (iff_lists.mp h).add_module hm hrole hadmits file with ⟨t', hlists, hleads⟩
  exact ⟨t', of_lists hlists, hleads⟩

/-- A registry from which a module is taken goes on showing its dialect. -/
theorem remove_module (h : Shows role r.dialect t) (hm : m.Accepted)
    (hne : r.dialect = .flat → role ≠ m.routeSymbol ++ ['\n']) (file : Text) :
    ∃ t', Shows role r.dialect t' ∧ Edit.Leads file (r.remove (.module m)).edits t t' := by
  rcases (iff_lists.mp h).remove_module hm hne (by simp) file with ⟨t', hlists, hleads⟩
  exact ⟨t', of_lists hlists, hleads⟩

/-- A registry goes on showing its dialect when a page is made. -/
theorem add_page (h : Shows role r.dialect t) (hp : p.Accepted)
    (hadmits : r.dialect = .marker → (r.guard (.page p)).admits t = .ok ()) (file : Text) :
    ∃ t', Shows role r.dialect t' ∧ Edit.Leads file (sharedEdits r (r.add (.page p)).edits) t t' := by
  rcases (iff_lists.mp h).add_page hp hadmits file with ⟨t', hlists, hleads⟩
  exact ⟨t', of_lists hlists, hleads⟩

/-- A registry goes on showing its dialect when a page is removed. -/
theorem remove_page (h : Shows role r.dialect t) (hp : p.Accepted) (file : Text) :
    ∃ t', Shows role r.dialect t' ∧ Edit.Leads file (sharedEdits r (r.remove (.page p)).edits) t t' := by
  rcases (iff_lists.mp h).remove_page hp file with ⟨t', hlists, hleads⟩
  exact ⟨t', of_lists hlists, hleads⟩

end Shows

/-! ### Roles -/

/-- A role whose registry shows the dialect that its descriptor names, and whose folder
    is reached without going through the folders of its modules. -/
structure Seen (folder : Path) (role : Text) (dialect : Dialect) (d : Disk) : Prop where
  roleName : isRoleName role = true
  descriptor : ∃ made : Descriptor, made.name = role ∧ made.dialect = dialect
    ∧ d.tree.get? (spot d.here folder ++ [".aviators-role.json".toList]) = some (.file (.text made.document))
  registry : ∃ t, Shows role dialect t
    ∧ d.tree.get? (spot d.here folder ++ registryNames) = some (.file (.text t))
  descriptor_found : d.find (folder.below [".aviators-role.json".toList])
    = .ok (spot d.here folder ++ [".aviators-role.json".toList])
  registry_found : d.find (folder.below registryNames) = .ok (spot d.here folder ++ registryNames)
  apart : ∀ s ∈ way d.here folder, ¬ spot d.here folder ++ ["modules".toList] <+: s

namespace Seen

variable {folder root : Path} {d d' : Disk} {q : Project} {raw module : Option Text}

/-- The ways to the registry and to the descriptor do not go through modules either. -/
theorem way_apart (h : Seen folder role dialect d) {names : List Text}
    (hnames : names = registryNames ∨ names = [".aviators-role.json".toList]) :
    ∀ s ∈ way d.here (folder.below names), ¬ spot d.here folder ++ ["modules".toList] <+: s := by
  intro s hs
  rw [way_below] at hs
  rcases List.mem_append.mp hs with hs | hs
  · exact h.apart s hs
  · intro hpre
    rcases Location.exists_of_mem_stations hs with ⟨xs, n, ys, heq, rfl⟩
    have hdots : ['.', '.'] ∉ xs := fun hmem => by
      have : ['.', '.'] ∈ names := by rw [heq]; simp [hmem]
      rcases hnames with rfl | rfl <;> exact absurd this (by decide)
    rw [Location.place_of_names hdots, List.prefix_append_right_inj] at hpre
    -- A way into the modules does not lead to the registry or the descriptor.
    have hhead : xs.head? = some "modules".toList := by
      rcases hpre with ⟨zs, rfl⟩
      rfl
    have : names.head? = some "modules".toList := by
      rw [heq, List.head?_append, hhead]
      rfl
    rcases hnames with rfl | rfl <;> exact absurd this (by decide)

/-- What an amendment of the registry leaves. -/
theorem amended (h : Seen folder role dialect d) (hj : q.journal.Set root) {c : Job Order}
    (hdecides : Decides d (fun o => ∃ edits, Amends folder edits o.plan ∧ (∀ e ∈ edits, e.operation ≠ .append)
      ∧ ∀ t, Shows role dialect t → d.tree.get? (spot d.here folder ++ registryNames) = some (.file (.text t)) →
        ∃ t', Shows role dialect t' ∧ Edit.Leads (folder.below registryNames).text edits t t') c)
    {r : Except Fault Artifact} (hrun : (c >>= q.carryOut).on d = (r, d')) : Seen folder role dialect d' := by
  rcases h.descriptor with ⟨made, hname, hdialect, hmade⟩
  rcases registry_amended hj (fun _ ht => ht.no_return) h.registry hmade hdecides hrun with
    ⟨hhere, hdescriptor, hregistry, hfind⟩
  refine ⟨h.roleName, ⟨made, hname, hdialect, by rw [hhere]; exact hdescriptor⟩, ?_, ?_, ?_, ?_⟩
  · rw [hhere]
    -- The registry is changed as planned, or kept.
    rcases hregistry with hdone | ⟨-, hkept⟩
    · exact hdone
    · exact hkept
  · rw [hhere]
    exact hfind _ _ h.descriptor_found (h.way_apart (Or.inr rfl))
  · rw [hhere]
    exact hfind _ _ h.registry_found (h.way_apart (Or.inl rfl))
  · rw [hhere]
    exact h.apart

/-- A command works in the dialect that the descriptor names. -/
theorem dialect_eq (h : Seen folder role dialect d) {t : ModuleTarget} {base : Location}
    (hfound : ModuleFound q (some role) raw d t folder base) :
    t.registry.dialect = dialect ∧ t.ref.role = role := by
  rcases h.descriptor with ⟨made, -, hdialect, hmade⟩
  rw [← hfound.base_eq] at hmade
  exact ⟨(hfound.dialect_eq made hmade).trans hdialect, (Option.some.inj hfound.role_eq).symm⟩

end Seen

/-- A command that is not mistaken about the head of an array: it removes no module
    whose variable is the name of the role without the line break at its end. -/
def Marker.Command.Discerns (role : Text) (dialect : Dialect) : Marker.Command → Prop
  | .deleteModule raw _ => dialect = .flat → role ≠ (namedModule role raw).routeSymbol ++ ['\n']
  | _ => True

namespace Seen

variable {folder root : Path} {d d' : Disk} {q : Project}

/-- A command leaves a role as one whose dialect is seen. -/
theorem command {c : Marker.Command} (h : Seen folder role dialect d) (hdiscerns : c.Discerns role dialect)
    (hfolder : q.layout.roleFolder role = .ok folder) (hj : q.journal.Set root)
    {r : Except Fault Artifact} (hrun : (c.run q role).on d = (r, d')) : Seen folder role dialect d' := by
  have hown : ∀ t, some role = some t → q.layout.roleFolder t = .ok folder := by
    rintro _ ⟨⟩
    exact hfolder
  cases c with
  | createModule raw =>
      refine h.amended hj ((moduleCreation_amends hown).imp fun o _ ho => ?_) hrun
      rcases ho with ⟨t, base, hfound, hguard, hamends⟩
      rcases h.dialect_eq hfound with ⟨rfl, hrole⟩
      -- In each case the edits keep the shape of the registry that shows its dialect.
      exact ⟨_, hamends, (operation_add _ _).1, fun u hu hregistry => hu.add_module hfound.accepted hrole
        (registry_admits hfound.guard_module_file hregistry hu.no_return hguard) _⟩
  | createPage module raw =>
      refine h.amended hj ((pageCreation_amends hown).imp fun o _ ho => ?_) hrun
      rcases ho with ⟨t, base, hfound, hguard, hamends⟩
      rcases h.dialect_eq hfound.within with ⟨rfl, hrole⟩
      refine ⟨_, hamends, fun e he => (operation_add _ _).1 e (mem_sharedEdits he),
        fun u hu hregistry => hu.add_page hfound.accepted (fun hmarker => ?_) _⟩
      refine registry_admits ?_ hregistry hu.no_return hguard
      change (t.within.registry.pageGuard t.ref).file = _
      rw [Registry.pageGuard, hmarker]
      exact (congrArg Registry.file hfound.within.registry_eq)
  | deleteModule raw missingOk =>
      refine h.amended hj ((moduleDeletion_amends hown missingOk).imp fun o _ ho => ?_) hrun
      rcases ho with ⟨t, base, hfound, hamends⟩
      rcases h.dialect_eq hfound with ⟨rfl, hrole⟩
      refine ⟨_, hamends, (operation_remove _ _).1, fun u hu _ => hu.remove_module hfound.accepted (fun hflat => ?_) _⟩
      rw [ref_eq_named hfound]
      exact hdiscerns hflat
  | deletePage module raw missingOk =>
      refine h.amended hj ((pageDeletion_amends hown missingOk).imp fun o _ ho => ?_) hrun
      rcases ho with ⟨t, base, hfound, hamends⟩
      rcases h.dialect_eq hfound.within with ⟨rfl, hrole⟩
      exact ⟨_, hamends, fun e he => (operation_remove _ _).1 e (mem_sharedEdits he),
        fun u hu _ => hu.remove_page hfound.accepted _⟩

/-- A new role is one whose dialect is seen. -/
theorem of_createRole {asked : Option Text} {a : Artifact} (hasked : q.dialectFor asked = .ok dialect)
    (hfolder : q.layout.roleFolder role = .ok folder) (hj : q.journal.Set root)
    (hapart : ∀ s ∈ way d.here folder, ¬ spot d.here folder ++ ["modules".toList] <+: s)
    (hrun : (q.createRole (some role) asked).on d = (.ok a, d')) : Seen folder role dialect d' := by
  have hisRole : isRoleName role = true := by
    rcases exists_roleFiles role dialect with ⟨t, hfiles⟩
    exact (createRole_places hasked hfolder hj hfiles hrun).1
  rcases Shows.of_new hisRole dialect with ⟨t, hfiles, hshows⟩
  rcases createRole_places hasked hfolder hj hfiles hrun with
    ⟨-, hhere, hregistry, hdescriptor, hregistryFound, hdescriptorFound⟩
  rw [← hhere] at hapart
  exact ⟨hisRole, ⟨_, rfl, rfl, hdescriptor⟩, ⟨t, hshows, hregistry⟩, hdescriptorFound, hregistryFound, hapart⟩

theorem of_same (h : Seen folder role dialect d) (hhere : d'.here = d.here)
    (hsame : ∀ names, names = registryNames ∨ names = [".aviators-role.json".toList] →
      d'.find (folder.below names) = d.find (folder.below names)
        ∧ d'.tree.get? (spot d.here folder ++ names) = d.tree.get? (spot d.here folder ++ names)) :
    Seen folder role dialect d' := by
  rcases hsame _ (Or.inl rfl) with ⟨hregistryFound, hregistry⟩
  rcases hsame _ (Or.inr rfl) with ⟨hdescriptorFound, hdescriptor⟩
  refine ⟨h.roleName, ?_, ?_, ?_, ?_, ?_⟩
  · rw [hhere, hdescriptor]
    exact h.descriptor
  · rw [hhere, hregistry]
    exact h.registry
  · rw [hhere, hdescriptorFound]
    exact h.descriptor_found
  · rw [hhere, hregistryFound]
    exact h.registry_found
  · rw [hhere]
    exact h.apart

/-- What a role has behind it: it has been made, and commands have been given about its
    modules and pages, one after the other. In between anything may have happened that
    leaves the registry and the descriptor where and as they are. -/
inductive History (root folder : Path) (role : Text) (dialect : Dialect) : Disk → Prop
  | created {q : Project} {asked : Option Text} {a : Artifact} {d d' : Disk} (hj : q.journal.Set root)
      (hfolder : q.layout.roleFolder role = .ok folder) (hasked : q.dialectFor asked = .ok dialect)
      (hapart : ∀ s ∈ way d.here folder, ¬ spot d.here folder ++ ["modules".toList] <+: s)
      (hrun : (q.createRole (some role) asked).on d = (.ok a, d')) : History root folder role dialect d'
  | command {q : Project} {c : Marker.Command} {r : Except Fault Artifact} {d d' : Disk}
      (h : History root folder role dialect d) (hj : q.journal.Set root)
      (hfolder : q.layout.roleFolder role = .ok folder) (hdiscerns : c.Discerns role dialect)
      (hrun : (c.run q role).on d = (r, d')) : History root folder role dialect d'
  | elsewhere {d d' : Disk} (h : History root folder role dialect d) (hhere : d'.here = d.here)
      (hsame : ∀ names, names = registryNames ∨ names = [".aviators-role.json".toList] →
        d'.find (folder.below names) = d.find (folder.below names)
          ∧ d'.tree.get? (spot d.here folder ++ names) = d.tree.get? (spot d.here folder ++ names)) :
      History root folder role dialect d'

theorem History.seen (h : History root folder role dialect d) : Seen folder role dialect d := by
  induction h with
  | created hj hfolder hasked hapart hrun => exact of_createRole hasked hfolder hj hapart hrun
  | command _ hj hfolder hdiscerns hrun ih => exact ih.command hdiscerns hfolder hj hrun
  | elsewhere _ hhere hsame ih => exact ih.of_same hhere hsame

variable {l : Layout} {now : Timestamp}

/-- What is found of a role is found when its descriptor has been removed. -/
theorem find_without_descriptor (h : Seen folder role dialect d) {p : Path} {loc : Location}
    (hfind : d.find p = .ok loc) :
    (d.made (.erase (spot d.here folder ++ [".aviators-role.json".toList]))).find p = .ok loc := by
  rcases h.descriptor with ⟨made, -, -, hmade⟩
  refine find_of_folders hfind rfl fun s hs => ?_
  have hs := way_of_find hfind s hs
  change (d.tree.apply _).get? s = _
  rw [get?_apply_erase, if_neg, hs]
  rintro ⟨rfl, -⟩
  rw [hmade] at hs
  exact absurd hs (by simp)

/-- A role whose descriptor has been removed is loaded by the text of its registry. -/
theorem load_inferred (h : Seen folder role dialect d) (hfolder : l.roleFolder role = .ok folder) {e : Disk}
    (hgone : e = d.made (.erase (spot d.here folder ++ [".aviators-role.json".toList]))) :
    (Descriptor.load l now role).on e = (.ok ⟨role, dialect, now⟩, e) := by
  rcases h.registry with ⟨t, hshows, hregistry⟩
  -- Nothing but the descriptor is missing.
  have hget : ∀ s, e.tree.get? s = if s = spot d.here folder ++ [".aviators-role.json".toList] then none
      else d.tree.get? s := fun s => by
    rw [hgone]
    change (d.tree.apply _).get? s = _
    rw [get?_apply_erase]
    simp only [ne_eq, List.append_eq_nil_iff, List.cons_ne_nil, and_false, not_false_eq_true, and_true]
  have hfind : ∀ {p : Path} {loc : Location}, d.find p = .ok loc → e.find p = .ok loc := fun hp => by
    rw [hgone]
    exact h.find_without_descriptor hp
  -- The folder of the role is still on the way to the registry.
  have hisFolder : (isFolder folder).on e = (.ok true, e) := by
    have hway : spot d.here folder ∈ way d.here (folder.below registryNames) := by
      rw [way_below]
      simp [registryNames, Location.stations]
    have hlook : e.look folder = .ok (some .folder) := look_eq_some.mpr ⟨_, hfind (find_of_below h.registry_found), by
      rw [hget, if_neg fun heq => List.cons_ne_nil _ _ (List.self_eq_append_right.mp heq)]
      exact way_of_find h.registry_found _ hway⟩
    rw [on_isFolder, hlook]
    rfl
  have hisThere : (isThere (folder.below [".aviators-role.json".toList])).on e = (.ok false, e) := by
    rw [on_isThere, look, hfind h.descriptor_found]
    dsimp only
    rw [hget, if_pos rfl]
    rfl
  have hread : (readSource (folder.below registryNames)).on e = (.ok t, e) := by
    rw [readSource, on_bind_ok (on_readRaw_text (hfind h.registry_found) (by
      rw [hget, if_neg fun heq => absurd (List.append_cancel_left heq) (by decide), hregistry])), on_pure,
      toLf_of_no_return hshows.no_return]
  -- Without a descriptor, the dialect is read off the registry.
  rw [Descriptor.load, hfolder, on_ofExcept_bind, on_bind_ok hisFolder, on_require, if_pos rfl,
    Layout.descriptorFile_eq hfolder, on_ofExcept_bind, on_bind_ok hisThere, if_neg (by simp),
    Layout.registryFile_eq hfolder, on_ofExcept_bind, show ["routes".toList, "route.tsx".toList] = registryNames
      from rfl, on_bind_ok hread, hshows.inferred]
  rfl

/-- A role that has lost its descriptor is loaded with the name and the dialect that the
    descriptor had, so its registry is edited as before. -/
theorem History.loaded_without_descriptor (h : History root folder role dialect d)
    (hfolder : l.roleFolder role = .ok folder) (now : Timestamp) :
    ∃ (made : Descriptor) (e : Disk) (again : Descriptor),
      d.tree.get? (spot d.here folder ++ [".aviators-role.json".toList]) = some (.file (.text made.document))
      ∧ (unlink (folder.below [".aviators-role.json".toList])).on d = (.ok (), e)
      ∧ (Descriptor.load l now role).on e = (.ok again, e)
      ∧ again.name = made.name ∧ again.dialect = made.dialect
      ∧ ∀ r, (Registry.load l now role).on d = (.ok r, d) → (Registry.load l now role).on e = (.ok r, e) := by
  have hseen := h.seen
  rcases hseen.descriptor with ⟨made, hname, hdialect, hmade⟩
  have hgone : (unlink (folder.below [".aviators-role.json".toList])).on d
      = (.ok (), d.made (.erase (spot d.here folder ++ [".aviators-role.json".toList]))) := by
    rw [on_unlink, opened_of_find hseen.descriptor_found hmade]
  have hload : ∀ e, e = d.made (.erase (spot d.here folder ++ [".aviators-role.json".toList])) →
      (Descriptor.load l now role).on e = (.ok ⟨role, dialect, now⟩, e) := fun e he => hseen.load_inferred hfolder he
  refine ⟨made, _, _, hmade, hgone, hload _ rfl, hname.symm, hdialect.symm, fun r hr => ?_⟩
  rcases Registry.load_ok hfolder hr with ⟨named, base, rfl, hfind, -, hsame⟩
  rw [spot_of_find hfind] at hsame
  rw [Registry.load, on_bind_ok (hload _ rfl), on_ofExcept, registry_eq hfolder, hsame made hmade, hdialect]

end Seen

namespace Inferences

open Histories
open Footprints (hidden)

/-- The disk when a role of the flat dialect has been made. -/
def flatRole : Disk := ((project.createRole (some "inst".toList) (some "flat".toList)).on empty).2

/-- The disk when a module has been made in it. -/
def flatModule : Disk := ((addA.run project "inst".toList).on flatRole).2

theorem both_made : ((project.createRole (some "inst".toList) (some "flat".toList)).on empty).1.isOk = true
    ∧ ((addA.run project "inst".toList).on flatRole).1.isOk = true := by
  decide +kernel

theorem role_made : ∃ a, (project.createRole (some "inst".toList) (some "flat".toList)).on empty = (.ok a, flatRole) :=
  on_of_isOk both_made.1

theorem module_made : ∃ b, (addA.run project "inst".toList).on flatRole = (.ok b, flatModule) :=
  on_of_isOk both_made.2

/-- A name with a line break at its end. -/
def brokenName : Text := "xRoute\n".toList

/-- Where the folder of a module of that role is. -/
def brokenModule : Location :=
  ["proj".toList, "src".toList, "Roles".toList, brokenName, "modules".toList, "x".toList]

/-- A disk on which that folder is there already. -/
def early : Disk := .fresh ⟨[1, 2, 3, 4, 5, 6].map fun n => (brokenModule.take n, .folder)⟩ []

/-- The role is made. -/
def broken : Except Fault Artifact × Disk :=
  (hidden.createRole (some brokenName) (some "flat".toList)).on early

/-- The module is removed. -/
def cut : Except Fault Artifact × Disk := (hidden.deleteModule (some brokenName) (some "x".toList) false).on broken.2

/-- The descriptor is removed. -/
def lost : Except Fault Unit × Disk :=
  (unlink (root / "new" / ".." / "src" / "Roles" / brokenName / ".aviators-role.json")).on cut.2

end Inferences

open Inferences Histories in
theorem loaded_without_descriptor_inst : Seen.History root folder "inst".toList .flat flatModule
    ∧ ∃ (made : Descriptor) (e : Disk) (again : Descriptor),
      flatModule.tree.get? (spot flatModule.here folder ++ [".aviators-role.json".toList])
        = some (.file (.text made.document))
      ∧ (unlink (folder.below [".aviators-role.json".toList])).on flatModule = (.ok (), e)
      ∧ (Descriptor.load project.layout project.now "inst".toList).on e = (.ok again, e)
      ∧ again.name = made.name ∧ again.dialect = made.dialect
      ∧ ∀ r, (Registry.load project.layout project.now "inst".toList).on flatModule = (.ok r, flatModule) →
        (Registry.load project.layout project.now "inst".toList).on e = (.ok r, e) := by
  have hj : project.journal.Set root := Journal.set_intentsFolder (.ofRoot root) false
  have hfolder : project.layout.roleFolder "inst".toList = .ok folder := rfl
  have hasked : project.dialectFor (some "flat".toList) = .ok .flat := by decide
  have hapart : ∀ s ∈ way empty.here folder, ¬ spot empty.here folder ++ ["modules".toList] <+: s := by
    decide
  rcases Inferences.role_made with ⟨a, ha⟩
  rcases module_made with ⟨b, hb⟩
  have hhistory : Seen.History root folder "inst".toList .flat flatModule :=
    .command (.created hj hfolder hasked hapart ha) hj hfolder (c := addA) trivial hb
  exact ⟨hhistory, hhistory.loaded_without_descriptor hfolder project.now⟩

open Inferences Histories Footprints in
/-- A role whose name ends with a line break loses the head of its array with a module,
    and is not loaded without its descriptor. -/
theorem removal_takes_array_head : broken.1.isOk = true ∧ cut.1.isOk = true
    ∧ ((Descriptor.load hidden.layout now brokenName).on cut.2).1.toOption.map (fun d => (d.name, d.dialect))
      = some (brokenName, .flat)
    ∧ lost.1.isOk = true
    ∧ ((Descriptor.load hidden.layout now brokenName).on lost.2).1.isOk = false := by
  decide +kernel

end RouteScaffold
