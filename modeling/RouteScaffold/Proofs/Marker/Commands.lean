import RouteScaffold.Proofs.Marker.Live
import RouteScaffold.Proofs.Project.Amending
import RouteScaffold.Proofs.Registry.Guards

/-!
# Commands on a Marker Role

A command that makes or removes a module or a page of a role works in three
places: in the folder of the module, in the journal, and in the registry. Only the
last one counts for what is routed, and there the command does all of its edits or
none. So it takes effect, or it fails and what is routed stays what it was.

## Main definitions

* `Marker.Registered`: A role in whose registry there is what is routed.
* `Marker.Routes`: An order that makes one list of what is routed into another.
* `Marker.Unclaimed`: A name that nothing routed has.
* `Marker.Command`: The commands about modules and pages.

## Theorems

* `Distinct.add`, `Distinct.remove`: What the revisions lead to.
* `Registered.command`: A command takes effect, or it fails and changes nothing.
* `Command.keeps_descriptor`: No command touches the descriptor.
* `Command.target_missing`: A removal whose target has to be there and is not writes nothing.
* `registered_createRole`: Nothing is routed in a new role.
-/

namespace RouteScaffold

open Naming Text Job Disk RouteScaffold.Tree Journal Project

namespace Marker

variable {live : List Routed} {role : Text} {r : Registry} {x : Routed}

/-! ### What the revisions lead to -/

/-- A page has its module among what is routed. -/
def Housed (live : List Routed) : Routed → Prop
  | .module _ => True
  | .page p => .module p.module ∈ live

/-- What a guard admits is new, and comes last. -/
theorem Distinct.add (h : Distinct live) (hrole : isRoleName role = true) (hr : r.dialect = .marker)
    (hx : x.Built) (hd : '$' ∉ x.name) (hhoused : Housed live x)
    (hadmits : (r.guard x).admits (outline role live).text = .ok ()) (file : Text) :
    Distinct (live ++ [x])
      ∧ Edit.Leads file (r.add x).edits (outline role live).text (outline role (live ++ [x])).text := by
  have hsound := h.sound_outline hrole
  rcases Guard.admits_iff.mp hadmits with ⟨hanchors, hunused⟩
  have hname : Guard.uses (outline role live).text x.name = false := by
    refine hunused _ ?_
    have := (r.guard_eq x).2.2
    rw [hr] at this
    rwa [Routed.importIn_name] at this
  have hne : x.name ≠ [] := by
    have := @Routed.Built.import_name_ne _ .marker hx
    rwa [Routed.importIn_name] at this
  -- A name in use is found by the guard, so those of the live routes differ.
  have hnew : ∀ y ∈ live, y.name ≠ x.name := fun y hy heq => by
    have := uses_of_routed role hy (by rw [heq]; exact hne)
    rw [heq, hname] at this
    exact absurd this (by simp)
  have hrouter : x.name ≠ "Route".toList := fun heq => by
    rw [heq, uses_router] at hname
    exact absurd hname (by simp)
  cases x with
  | module m =>
      -- The guard of a module also asks for its sentinel.
      have hsentinel : Guard.uses (outline role live).text (Snippet.sentinelOf m.segment) = false := by
        refine hunused _ ?_
        change _ ∈ (r.moduleGuard m).identifiers
        rw [Registry.moduleGuard, hr]
        simp
      have hdistinct := h.add_module hx.2 hd hnew hrouter (constant_ne_of_unused hsentinel)
      refine ⟨hdistinct, ?_⟩
      rw [← addModule_outline h role fun hmem => hnew _ hmem rfl]
      exact leads_addModule hsound hr hx.2.spelled file hname hsentinel
  | page p =>
      refine ⟨h.add_page hx.2 hd hhoused hnew hrouter, ?_⟩
      rw [← addPage_outline h role hhoused]
      refine leads_addPage hsound hr hx.2.spelled file hname ?_
      have := hanchors _ (r.guard_eq (.page p)).1
      rw [hr] at this
      exact this

/-- A name without a dollar sign that nothing routed has, and the router neither. -/
def Unclaimed (live : List Routed) (x : Routed) : Prop :=
  '$' ∉ x.name ∧ x.name ≠ "Route".toList ∧ ∀ y ∈ live, y.name ≠ x.name

/-- What is routed has its name for itself, and so has what has a name that is unclaimed. -/
theorem Distinct.sole (h : Distinct live) (hx : x ∈ live ∨ Unclaimed live x) :
    '$' ∉ x.name ∧ x.name ≠ "Route".toList ∧ ∀ y ∈ live, y.name = x.name → y = x := by
  rcases hx with hx | ⟨hd, hrouter, hnone⟩
  · rcases h.accepts hx with ⟨-, -, hd⟩
    exact ⟨hd, h.router x hx, fun y hy => h.eq_of_name hy hx⟩
  · exact ⟨hd, hrouter, fun y hy hname => absurd hname (hnone y hy)⟩

/-- What is removed is gone as if it had never been there, if it has its name for itself.
    It need not be there. -/
theorem Distinct.remove (h : Distinct live) (hrole : isRoleName role = true) (hr : r.dialect = .marker)
    (hx : x.Built) (hsole : x ∈ live ∨ Unclaimed live x) (file : Text) : Distinct (Routed.without live x)
      ∧ Edit.Leads file (r.remove x).edits (outline role live).text
        (outline role (Routed.without live x)).text := by
  have hsound := h.sound_outline hrole
  rcases h.sole hsole with ⟨hd, hrouter, honly⟩
  refine ⟨h.without x, ?_⟩
  cases x with
  | module m =>
      rw [← removeModule_outline h role hx.2 hd hrouter honly]
      exact leads_removeModule hsound hr hx.2.spelled file
  | page p =>
      rw [← removePage_outline h role hx.2 hd hrouter honly]
      exact leads_removePage hsound hr hx.2.spelled file

/-! ### What a command leaves -/

/-- A role of the marker dialect in whose registry there is what is routed, and
    nothing else. -/
structure Registered (folder : Path) (role : Text) (live : List Routed) (d : Disk) : Prop where
  roleName : isRoleName role = true
  descriptor : ∃ made : Descriptor, made.dialect = .marker
    ∧ d.tree.get? (spot d.here folder ++ [".aviators-role.json".toList]) = some (.file (.text made.document))
  registry : d.tree.get? (spot d.here folder ++ registryNames)
    = some (.file (.text (outline role live).text))
  distinct : Distinct live

variable {folder root : Path} {d d' : Disk}

/-- An order that makes one list of what is routed into another. -/
def Routes (folder : Path) (role : Text) (live live' : List Routed) (o : Order) : Prop :=
  ∃ edits, Amends folder edits o.plan ∧ ((∀ e ∈ edits, e.operation ≠ .append) ∧ edits ≠ [])
    ∧ Distinct live' ∧ Edit.Leads (folder.below registryNames).text edits (outline role live).text
      (outline role live').text

theorem Registered.carryOut {live' : List Routed} {p : Project} {c : Job Order}
    (h : Registered folder role live d) (hj : p.journal.Set root)
    (hdecides : Decides d (Routes folder role live live') c) {r : Except Fault Artifact}
    (hrun : (c >>= p.carryOut).on d = (r, d')) :
    d'.here = d.here ∧ (Registered folder role live' d'
      ∨ (∃ f, r = .error f) ∧ Registered folder role live d') := by
  rcases carryOut_cases hdecides hrun with ⟨rfl, hfailed⟩ | ⟨o, q, horder, htrack, rfl⟩
  · exact ⟨rfl, Or.inr ⟨hfailed, h⟩⟩
  · rcases horder with ⟨edits, hamends, hedits, hdistinct, hlead⟩
    rcases h.descriptor with ⟨made, hdialect, hmade⟩
    -- The descriptor lies beside the registry, so it is left alone.
    rcases hamends.track_beside hj hmade htrack with ⟨hhere, hdescriptor, -⟩
    have hregistry := hamends.track hj hedits.1 hlead (h.distinct.sound_outline h.roleName).no_return h.registry htrack
    rw [← hhere] at hdescriptor hregistry
    -- The registry has been changed as a whole or not at all.
    rcases hregistry with hdone | ⟨⟨f, rfl⟩, hkept⟩
    · exact ⟨hhere, Or.inl ⟨h.roleName, ⟨made, hdialect, hdescriptor⟩, hdone, hdistinct⟩⟩
    · exact ⟨hhere, Or.inr ⟨⟨f, rfl⟩, h.roleName, ⟨made, hdialect, hdescriptor⟩, hkept, h.distinct⟩⟩

/-! ### Commands -/

variable {p : Project} {raw module : Text}

/-- The module that a command names. -/
def namedModule (role raw : Text) : ModuleRef := ⟨role, segment raw, pascal raw⟩

/-- The page that a command names. -/
def namedPage (role module raw : Text) : PageRef := ⟨namedModule role module, segment raw, pascal raw⟩

/-- The module that a command has found is the one that it names. -/
theorem ref_eq_named {d : Disk} {t : ModuleTarget} {own : Path} {base : Location}
    (hfound : ModuleFound p (some role) (some raw) d t own base) : t.ref = namedModule role raw := by
  have hrole : t.ref.role = role := (Option.some.inj hfound.role_eq).symm
  have hraw : t.module.raw = raw := (Option.some.inj hfound.module_eq).symm
  have hsegment := hfound.segment_eq
  have hname := hfound.name_eq
  rw [hraw] at hsegment hname
  rw [namedModule, ← hrole, ← hsegment, ← hname]

/-- What a command knows of a module of a marker role. -/
theorem Registered.found (h : Registered folder role live d) (hfolder : p.layout.roleFolder role = .ok folder)
    {t : ModuleTarget} {own : Path} {base : Location}
    (hfound : ModuleFound p (some role) (some raw) d t own base) :
    own = folder ∧ t.registry.dialect = .marker ∧ t.registry.file = folder.below registryNames
      ∧ t.ref = namedModule role raw := by
  have hrole : t.ref.role = role := (Option.some.inj hfound.role_eq).symm
  have hown := hfound.folder_eq
  rw [hrole, hfolder, Except.ok.injEq] at hown
  subst hown
  rcases h.descriptor with ⟨made, hmarker, hmade⟩
  rw [← hfound.base_eq] at hmade
  refine ⟨rfl, (hfound.dialect_eq made hmade).trans hmarker, ?_, ref_eq_named hfound⟩
  rw [hfound.registry_eq]
  rfl

theorem Registered.guarded (h : Registered folder role live d) {g : Guard} (hfile : g.file = folder.below registryNames)
    (hguard : g.check.on d = (.ok (), d)) : g.admits (outline role live).text = .ok () :=
  registry_admits hfile h.registry (h.distinct.sound_outline h.roleName).no_return hguard

/-- What a command knows of a page of a marker role. -/
theorem Registered.pageFound (h : Registered folder role live d) (hfolder : p.layout.roleFolder role = .ok folder)
    {t : PageTarget} {base : Location}
    (hfound : PageFound p (some role) (some module) (some raw) d t folder base) :
    t.within.registry.dialect = .marker ∧ t.within.registry.file = folder.below registryNames
      ∧ t.ref = namedPage role module raw := by
  rcases h.found hfolder hfound.within with ⟨-, hmarker, hfile, href⟩
  refine ⟨hmarker, hfile, ?_⟩
  have hsegment := hfound.segment_eq
  have hname := hfound.name_eq
  rw [← Option.some.inj hfound.raw_eq] at hsegment hname
  rw [namedPage, ← href, ← hfound.module_eq, ← hsegment, ← hname]

/-- In the marker dialect every edit is one to the registry. -/
theorem sharedEdits_marker (hr : r.dialect = .marker) (edits : List Edit) : sharedEdits r edits = edits := by
  rw [sharedEdits, hr]

theorem Registered.moduleCreation (h : Registered folder role live d)
    (hfolder : p.layout.roleFolder role = .ok folder) (hd : '$' ∉ pascal raw) :
    Decides d (Routes folder role live (live ++ [.module (namedModule role raw)]))
      (p.moduleCreation (some role) (some raw)) := by
  refine (moduleCreation_amends (by rintro _ ⟨⟩; exact hfolder)).imp fun o _ ho => ?_
  rcases ho with ⟨t, base, hfound, hguard, hamends⟩
  rcases h.found hfolder hfound with ⟨-, hmarker, -, href⟩
  have hadd := h.distinct.add h.roleName hmarker (x := .module t.ref) ⟨hfound.roleName, hfound.accepted⟩
    (by rw [href]; exact hd) trivial (h.guarded hfound.guard_module_file hguard) (folder.below registryNames).text
  rw [href] at hamends hadd
  exact ⟨_, hamends, operation_add _ _, hadd⟩

theorem Registered.pageCreation (h : Registered folder role live d)
    (hfolder : p.layout.roleFolder role = .ok folder) (hd : '$' ∉ pascal raw)
    (hhoused : .module (namedModule role module) ∈ live) :
    Decides d (Routes folder role live (live ++ [.page (namedPage role module raw)]))
      (p.pageCreation (some role) (some module) (some raw)) := by
  refine (pageCreation_amends (by rintro _ ⟨⟩; exact hfolder)).imp fun o _ ho => ?_
  rcases ho with ⟨t, base, hfound, hguard, hamends⟩
  rcases h.pageFound hfolder hfound with ⟨hmarker, hfile, hpage⟩
  have hguarded : (t.within.registry.guard (.page t.ref)).file = folder.below registryNames := by
    change (t.within.registry.pageGuard t.ref).file = _
    rw [Registry.pageGuard, hmarker]
    exact hfile
  have hadd := h.distinct.add h.roleName hmarker (x := .page t.ref)
    ⟨hfound.module_eq ▸ hfound.within.roleName, hfound.accepted⟩ (by rw [hpage]; exact hd)
    (by rw [hpage]; exact hhoused) (h.guarded hguarded hguard) (folder.below registryNames).text
  rw [sharedEdits_marker hmarker] at hamends
  rw [hpage] at hamends hadd
  exact ⟨_, hamends, operation_add _ _, hadd⟩

theorem Registered.moduleDeletion (h : Registered folder role live d)
    (hfolder : p.layout.roleFolder role = .ok folder)
    (hsole : .module (namedModule role raw) ∈ live ∨ Unclaimed live (.module (namedModule role raw))) (missingOk : Bool) :
    Decides d (Routes folder role live (Routed.without live (.module (namedModule role raw))))
      (p.moduleDeletion (some role) (some raw) missingOk) := by
  refine (moduleDeletion_amends (by rintro _ ⟨⟩; exact hfolder) missingOk).imp fun o _ ho => ?_
  rcases ho with ⟨t, base, hfound, hamends⟩
  rcases h.found hfolder hfound with ⟨-, hmarker, -, href⟩
  have hbuilt : (Routed.module (namedModule role raw)).Built := ⟨h.roleName, href ▸ hfound.accepted⟩
  rw [href] at hamends
  exact ⟨_, hamends, operation_remove _ _,
    h.distinct.remove h.roleName hmarker hbuilt hsole (folder.below registryNames).text⟩

theorem Registered.pageDeletion (h : Registered folder role live d)
    (hfolder : p.layout.roleFolder role = .ok folder)
    (hsole : .page (namedPage role module raw) ∈ live ∨ Unclaimed live (.page (namedPage role module raw)))
    (missingOk : Bool) :
    Decides d (Routes folder role live (Routed.without live (.page (namedPage role module raw))))
      (p.pageDeletion (some role) (some module) (some raw) missingOk) := by
  refine (pageDeletion_amends (by rintro _ ⟨⟩; exact hfolder) missingOk).imp fun o _ ho => ?_
  rcases ho with ⟨t, base, hfound, hamends⟩
  rcases h.pageFound hfolder hfound with ⟨hmarker, -, hpage⟩
  have hbuilt : (Routed.page (namedPage role module raw)).Built := ⟨h.roleName, hpage ▸ hfound.accepted⟩
  rw [sharedEdits_marker hmarker, hpage] at hamends
  exact ⟨_, hamends, operation_remove _ _,
    h.distinct.remove h.roleName hmarker hbuilt hsole (folder.below registryNames).text⟩

/-- A command about a module or a page of a role, with the names that it is
    given. -/
inductive Command where
  | createModule (raw : Text)
  | createPage (module raw : Text)
  | deleteModule (raw : Text) (missingOk : Bool)
  | deletePage (module raw : Text) (missingOk : Bool)

namespace Command

def run (p : Project) (role : Text) : Command → Job Artifact
  | createModule raw => p.createModule (some role) (some raw)
  | createPage module raw => p.createPage (some role) (some module) (some raw)
  | deleteModule raw missingOk => p.deleteModule (some role) (some raw) missingOk
  | deletePage module raw missingOk => p.deletePage (some role) (some module) (some raw) missingOk

/-- What a command is about. -/
def target (role : Text) : Command → Routed
  | createModule raw | deleteModule raw _ => .module (namedModule role raw)
  | createPage module raw | deletePage module raw _ => .page (namedPage role module raw)

/-- What is routed when a command has taken effect. -/
def effect (role : Text) (live : List Routed) (c : Command) : List Routed :=
  match c with
  | createModule _ | createPage _ _ => live ++ [c.target role]
  | deleteModule _ _ | deletePage _ _ _ => Routed.without live (c.target role)

/-- What is made has no dollar sign in its name, and a page has a module that is
    routed. What is removed is routed, or has a name that is unclaimed. -/
def Fair (role : Text) (live : List Routed) (c : Command) : Prop :=
  match c with
  | createModule _ | createPage _ _ => '$' ∉ (c.target role).name ∧ Housed live (c.target role)
  | deleteModule _ _ | deletePage _ _ _ => c.target role ∈ live ∨ Unclaimed live (c.target role)

end Command

/-- A command takes effect, or it fails and changes nothing of the registry. -/
theorem Registered.command {c : Command} (h : Registered folder role live d) (hfair : c.Fair role live)
    (hfolder : p.layout.roleFolder role = .ok folder) (hj : p.journal.Set root)
    {r : Except Fault Artifact} (hrun : (c.run p role).on d = (r, d')) :
    d'.here = d.here ∧ (Registered folder role (c.effect role live) d'
      ∨ (∃ f, r = .error f) ∧ Registered folder role live d') := by
  cases c with
  | createModule raw => exact h.carryOut hj (h.moduleCreation hfolder hfair.1) hrun
  | createPage module raw => exact h.carryOut hj (h.pageCreation hfolder hfair.1 hfair.2) hrun
  | deleteModule raw missingOk => exact h.carryOut hj (h.moduleDeletion hfolder hfair missingOk) hrun
  | deletePage module raw missingOk => exact h.carryOut hj (h.pageDeletion hfolder hfair missingOk) hrun

/-- A command leaves the descriptor of its role alone, whatever it is about. -/
theorem Command.keeps_descriptor {c : Command} {content : Content} (hfolder : p.layout.roleFolder role = .ok folder)
    (hj : p.journal.Set root)
    (hdescriptor : d.tree.get? (spot d.here folder ++ [".aviators-role.json".toList]) = some (.file content))
    {r : Except Fault Artifact} (hrun : (c.run p role).on d = (r, d')) : d'.here = d.here
      ∧ d'.tree.get? (spot d.here folder ++ [".aviators-role.json".toList]) = some (.file content) := by
  have hown : ∀ t, some role = some t → p.layout.roleFolder t = .ok folder := by
    rintro _ ⟨⟩
    exact hfolder
  cases c with
  | createModule raw =>
      refine descriptor_kept hj hdescriptor ((moduleCreation_amends hown).imp fun o _ ho => ?_) hrun
      rcases ho with ⟨t, base, -, -, hamends⟩
      exact ⟨_, hamends⟩
  | createPage module raw =>
      refine descriptor_kept hj hdescriptor ((pageCreation_amends hown).imp fun o _ ho => ?_) hrun
      rcases ho with ⟨t, base, -, -, hamends⟩
      exact ⟨_, hamends⟩
  | deleteModule raw missingOk =>
      refine descriptor_kept hj hdescriptor ((moduleDeletion_amends hown missingOk).imp fun o _ ho => ?_) hrun
      rcases ho with ⟨t, base, -, hamends⟩
      exact ⟨_, hamends⟩
  | deletePage module raw missingOk =>
      refine descriptor_kept hj hdescriptor ((pageDeletion_amends hown missingOk).imp fun o _ ho => ?_) hrun
      rcases ho with ⟨t, base, -, hamends⟩
      exact ⟨_, hamends⟩

/-- Where that is which a command removes, if it has to be there. -/
def Command.required (folder : Path) : Command → Option Path
  | deleteModule raw false => some (folder.below ["modules".toList, segment raw])
  | deletePage module raw false =>
    some (folder.below ["modules".toList, segment module, "pages".toList, pascal raw ++ ".tsx".toList])
  | _ => none

/-- A removal fails, and writes nothing, if what it removes has to be there and is not. -/
theorem Command.target_missing {c : Command} {place : Path} (hfolder : p.layout.roleFolder role = .ok folder)
    (hplace : c.required folder = some place) (hmissing : (isThere place).on d = (.ok false, d)) :
    ∃ f, (c.run p role).on d = (.error f, d) := by
  have hown : ∀ t, some role = some t → p.layout.roleFolder t = .ok folder := by
    rintro _ ⟨⟩
    exact hfolder
  have hfails : ∀ {order : Job Order}, Decides d (fun _ => False) order →
      ∃ f, (order >>= p.carryOut).on d = (.error f, d) :=
    -- Nothing can be decided to be done, so the command fails where it looks.
    fun h => h.elim (fun ⟨f, hf⟩ => ⟨f, on_bind_error hf⟩) fun ⟨_, _, hfalse⟩ => hfalse.elim
  have hnot : ∀ {there}, (isThere place).on d = (.ok there, d) → (false || there) = true → False := by
    intro there hthere h
    rw [hmissing, Prod.mk.injEq, Except.ok.injEq] at hthere
    rw [← hthere.1] at h
    exact absurd h (by simp)
  cases c with
  | createModule raw => exact absurd hplace (by simp [required])
  | createPage module raw => exact absurd hplace (by simp [required])
  | deleteModule raw missingOk =>
      -- With a target that may be missing, nothing is required to be there.
      cases missingOk with
      | true => exact absurd hplace (by simp [required])
      | false =>
          refine hfails (decides_bind (looks_moduleTarget p _ _) fun t ht => ?_)
          -- The folder that is looked for is the one that is missing.
          rcases moduleTarget_found hown ht with ⟨base, hfound⟩
          have hq : p.layout.moduleFolder t.ref.role t.ref.segment = .ok place := by
            rw [hfound.moduleFolder_eq, ref_eq_named hfound]
            exact congrArg Except.ok (Option.some.inj hplace)
          refine decides_ofExcept fun q hq' => ?_
          rw [hq, Except.ok.injEq] at hq'
          subst hq'
          exact decides_bind (looks_isThere _) fun there hthere => decides_require fun h => (hnot hthere h).elim
  | deletePage module raw missingOk =>
      cases missingOk with
      | true => exact absurd hplace (by simp [required])
      | false =>
          refine hfails (decides_bind (looks_pageTarget p _ _ _) fun t ht => ?_)
          rcases pageTarget_found hown ht with ⟨base, hfound⟩
          have hsegment : t.ref.module.segment = segment module := by
            rw [hfound.module_eq, ref_eq_named hfound.within]
            rfl
          have hname : t.ref.name = pascal raw := by
            rw [hfound.name_eq, ← Option.some.inj hfound.raw_eq]
          refine decides_ofExcept fun pages hpages => ?_
          rw [Layout.pagesFolder_eq (hfound.module_eq ▸ hfound.within.folder_eq)
            (hfound.module_eq ▸ hfound.within.isName_segment), Except.ok.injEq] at hpages
          have hfile : pages / (t.ref.name ++ ".tsx".toList) = place := by
            rw [← hpages, Path.div_name (isName_component hfound.accepted.spelled.name), Path.below_below, hsegment,
              hname]
            exact Option.some.inj hplace
          -- And so is the file of the page.
          dsimp only
          rw [hfile]
          exact decides_bind (looks_isThere _) fun there hthere => decides_require fun h => (hnot hthere h).elim

/-- A new role of the marker dialect has nothing routed in it. -/
theorem registered_createRole {asked : Option Text} {a : Artifact} (hasked : p.dialectFor asked = .ok .marker)
    (hfolder : p.layout.roleFolder role = .ok folder) (hj : p.journal.Set root)
    (hrun : (p.createRole (some role) asked).on d = (.ok a, d')) : Registered folder role [] d' := by
  rcases createRole_places hasked hfolder hj (roleFiles_marker role) hrun with
    ⟨hrole, -, hregistry, hdescriptor, -⟩
  exact ⟨hrole, ⟨_, rfl, hdescriptor⟩, hregistry, Distinct.nil⟩

end Marker

end RouteScaffold
