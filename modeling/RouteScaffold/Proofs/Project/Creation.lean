import RouteScaffold.Proofs.Project.Blueprint
import RouteScaffold.Proofs.Project.Plans

/-!
# Commands That Make Something

A command that makes something looks first. Either something stands in its way,
and it ends with a fault and without a write, or it comes to an order that
nothing stands in the way of. What the order is to make is recorded as one path,
and unless that is the folder of a component, nothing has been seen there.

There is one way in which a command can be led astray. Whether a role is there
is looked at before its folder is made, and when the path to that folder leads
back out of a folder that is missing, it cannot be seen; once the missing folder
has been made, the path may lead to a role that has been there all the time.

## Main definitions

* `Order.Sound`: An order to make something that nothing stands in the way of.
* `Creation`: The commands that make something.
* `Creation.Fits`: What has to be given.

## Theorems

* `decides_roleCreation`, `decides_moduleCreation`, `decides_pageCreation`,
  `decides_packageCreation`: A fault without a write, or a sound order.
* `Creation.decides`: The same of every command that makes something.
-/

namespace RouteScaffold

open Job Disk RouteScaffold.Tree Naming Location

/-- An order to make something below a root that nothing stands in the way of, as far
    as is known. If what is made has to be new as a whole, nothing has been seen at the
    path that is recorded; otherwise that path leads further down. -/
def Order.Sound (root : Path) (d : Disk) (known new : Prop) (o : Order) : Prop :=
  o.mode = .create ∧ ∃ b : Blueprint, o.plan = b.plan ∧ b.Ready d known ∧ (root.Plain → b.top.Plain)
    ∧ (new → (isThere b.made).on d = (.ok false, d)) ∧ (new ∨ b.way ≠ [])

namespace Layout

variable {l : Layout} {path : Path}

theorem plain_named {base : Path} {name : Option Text} (hbase : base.Plain) (h : named base name = .ok path) :
    path.Plain := by
  cases name with
  | none => exact absurd h (by simp [named])
  | some t =>
      rw [named, Except.ok.injEq] at h
      rw [← h]
      exact hbase.div t

/-- What is named in the source folder. -/
theorem plain_source {name : Option Text} (hroot : l.root.Plain)
    (h : (do named (← l.sourceRoot) name) = .ok path) : path.Plain := by
  cases hsource : l.sourceRoot with
  | error f =>
      rw [hsource] at h
      exact absurd h (by simp [bind, Except.bind])
  | ok source =>
      rw [hsource] at h
      exact plain_named (plain_named hroot hsource) h

theorem plain_roleFolder {role : Text} (hroot : l.root.Plain) (h : l.roleFolder role = .ok path) : path.Plain := by
  rw [roleFolder] at h
  cases hroles : l.rolesRoot with
  | error f =>
      rw [hroles] at h
      exact absurd h (by simp [bind, Except.bind])
  | ok roles =>
      rw [hroles] at h
      rw [← Except.ok.inj h]
      exact (plain_source hroot hroles).div role

theorem plain_packageFolder {kind : PackageKind} (hroot : l.root.Plain) (h : l.packageFolder kind = .ok path) :
    path.Plain := by
  rw [packageFolder, folderIn] at h
  cases hpackages : l.packagesRoot with
  | error f =>
      rw [hpackages] at h
      exact absurd h (by simp [bind, Except.bind])
  | ok packages =>
      rw [hpackages] at h
      rw [← Except.ok.inj h]
      exact (plain_source hroot hpackages).div kind.folder

end Layout

namespace Project

variable {p : Project} {d : Disk} {known : Prop}

theorem looks_requireAbsent (files : List Path) : Looks (requireAbsent files) := by
  induction files with
  | nil => exact looks_pure _
  | cons file files ih => exact (looks_isThere file).bind fun _ => .refuse ih

/-- Where all is required to be absent, nothing is seen. -/
theorem requireAbsent_ok {files : List Path} (h : (requireAbsent files).on d = (.ok (), d)) :
    ∀ file ∈ files, (isThere file).on d = (.ok false, d) := by
  induction files with
  | nil => simp
  | cons file files ih =>
      rw [requireAbsent] at h
      rcases on_bind_eq_ok.mp h with ⟨there, d', hthere, h⟩
      have hd := (looks_isThere file).ok hthere
      subst hd
      rw [on_refuse] at h
      cases there with
      -- The first file is missing, and the others are looked for behind it.
      | true => exact absurd h (by simp)
      | false =>
          intro p hp
          rcases List.mem_cons.mp hp with rfl | hp
          · exact hthere
          · exact ih h p hp

/-! ### Roles -/

/-- The only file of a role that may be there already is its descriptor. -/
theorem roleThings_filed (made : Descriptor) : ∀ x ∈ roleThings made, ∀ t, x.2 = .file t →
    x.1 = [".aviators-role.json".toList] := by
  rcases roleThings_eq made with ⟨t, hthings⟩
  rw [hthings]
  simp

/-- New files are not there already. -/
theorem filesOf_filed (r : Rendering) : ∀ x ∈ filesOf r, ∀ t, x.2 ≠ .file t := by
  intro x hx t
  rcases List.mem_map.mp hx with ⟨y, -, rfl⟩
  simp

/-- The folder of a role must not hide behind one that is missing. -/
theorem decides_roleCreation (raw dialect : Option Text) (hclosed : d.tree.Closed)
    (hlevel : ∀ t folder, raw = some t → p.layout.roleFolder t = .ok folder → d.Level folder) :
    Decides d (Order.Sound p.layout.root d known True) (p.roleCreation raw dialect) := by
  refine decides_ofExcept fun named hnamed => decides_ofExcept fun wanted _ =>
    decides_ofExcept fun folder hfolder => ?_
  rcases Kind.role_named hnamed with ⟨hraw, hname, -⟩
  refine decides_bind (looks_isThere folder) fun there hthere => decides_refuse fun hno => ?_
  refine decides_ofExcept fun descriptor hdescriptor => decides_pure ?_
  rw [Bool.not_eq_true] at hno
  subst hno
  rw [Layout.descriptorFile_eq hfolder, Except.ok.injEq] at hdescriptor
  have hsame : folder.below [] = folder := by rw [Path.below, List.append_nil]
  have hmakable := makable_role ⟨named.name, wanted, p.now⟩
    (hlevel named.raw folder hraw (by rw [← hname]; exact hfolder)) hclosed hthere
  refine ⟨rfl, ⟨folder, [], roleThings ⟨named.name, wanted, p.now⟩, []⟩, ?_,
    ⟨hmakable, by simp, fun _ _ => List.nil_prefix, roleThings_filed _, .nothing⟩,
    fun hroot => Layout.plain_roleFolder hroot hfolder, fun _ => ?_, Or.inl trivial⟩
  · rw [Blueprint.plan, Blueprint.made]
    dsimp only
    rw [hsame, List.append_nil, ← hdescriptor]
    exact createRolePlan_eq _ _
  · rw [Blueprint.made, hsame]
    exact hthere

/-! ### Modules and pages -/

/-- The way down to a registry. -/
theorem isName_registry : ∀ n ∈ ["routes".toList] ++ ["route.tsx".toList], Path.IsName n := by
  simp only [List.singleton_append, List.forall_mem_cons, List.not_mem_nil, false_imp_iff, implies_true, and_true]
  exact ⟨⟨by decide, by decide, by decide, by decide⟩, by decide, by decide, by decide, by decide⟩

namespace ModuleFound

variable {role module : Option Text} {t : ModuleTarget} {folder : Path} {base : Location}

/-- Modules are guarded in the registry. -/
theorem guard_module_file (h : ModuleFound p role module d t folder base) :
    (t.registry.guard (.module t.ref)).file
      = folder.below (["routes".toList] ++ ["route.tsx".toList]) := by
  rw [h.registry_eq]
  cases t.registry.dialect <;> rfl

/-- Pages are guarded in the registry, or in the route file of their module. -/
theorem guard_page_file (h : ModuleFound p role module d t folder base) (ref : PageRef)
    (href : ref.module = t.ref) : (t.registry.guard (.page ref)).file
        = folder.below (["routes".toList] ++ ["route.tsx".toList])
      ∨ (t.registry.guard (.page ref)).file
        = folder.below (["modules".toList, t.ref.segment] ++ [t.ref.segment ++ ".route.tsx".toList]) := by
  have hroute := routeFile_eq h.accepted.spelled (accepts_segment_ne h.accepted)
  rw [h.registry_eq]
  cases t.registry.dialect with
  | marker => exact Or.inl rfl
  | flat =>
      right
      rw [← href] at hroute ⊢
      exact hroute .flat _ folder

end ModuleFound

theorem decides_moduleCreation (role module : Option Text) (hclosed : d.tree.Closed) :
    Decides d (Order.Sound p.layout.root d known True) (p.moduleCreation role module) := by
  refine decides_bind (looks_moduleTarget p role module) fun t ht => ?_
  rcases moduleTarget_ok ht with ⟨folder, base, hfound⟩
  have hspelled := hfound.accepted.spelled
  have hseg := accepts_segment_ne hfound.accepted
  have hname := hfound.isName_segment
  refine decides_ofExcept fun own hown => ?_
  rw [hfound.moduleFolder_eq, Except.ok.injEq] at hown
  subst hown
  refine decides_bind (looks_isThere _) fun there hthere => decides_refuse fun hno => ?_
  refine decides_bind (looks_guard _) fun _ hguard => decides_ofExcept fun roleFolder hrole =>
    decides_pure ?_
  -- The module is not there, and its role is: so all of it can be made beside the registry.
  rw [Bool.not_eq_true] at hno
  subst hno
  rw [hfound.folder_eq, Except.ok.injEq] at hrole
  subst hrole
  refine ⟨rfl, ⟨folder, ["modules".toList, t.ref.segment], moduleThings t.registry.dialect t.ref, _⟩,
    createModulePlan_eq hspelled hseg t.registry folder,
    ⟨makable_module hspelled hseg _ hfound.found hfound.isFolder hclosed hthere,
      isName_module hname fun _ h => absurd h (by simp), fun x hx => ?_, fun x hx t heq => ?_,
      .revision ⟨hfound.roleName, hfound.accepted⟩ hguard hfound.guard_module_file isName_registry
        (source_tsx "route".toList) (fun y hy heq => ?_) fun hpre => ?_⟩,
    fun hroot => Layout.plain_roleFolder hroot hfound.folder_eq, fun _ => hthere, Or.inl trivial⟩
  -- What is made for a module lies at its top.
  · rcases mem_moduleThings hspelled hseg hx with ⟨file, hx, -, -⟩
    rw [hx]
    exact ⟨[file], rfl⟩
  · rcases List.mem_cons.mp hx with rfl | hx
    · exact absurd heq (by simp)
    · exact absurd heq (filesOf_filed _ x hx t)
  · rcases mem_moduleThings hspelled hseg hy with ⟨file, hy, -, -⟩
    rw [hy] at heq
    exact absurd (List.cons.inj heq).1 (by decide)
  -- The registry lies in the folder of the routes, the module in that of the modules.
  · exact absurd (List.cons_prefix_cons.mp hpre).1 (by decide)

theorem decides_pageCreation (role module page : Option Text) (hclosed : d.tree.Closed) :
    Decides d (Order.Sound p.layout.root d known True) (p.pageCreation role module page) := by
  refine decides_bind (looks_pageTarget p role module page) fun t ht => ?_
  rcases pageTarget_ok ht with ⟨folder, base, hfound, href, haccepted, -, -⟩
  have hspelled := haccepted.spelled
  have hseg : t.ref.module.segment ≠ [] := accepts_segment_ne haccepted.1
  refine decides_ofExcept fun roleFolder hrole => ?_
  rw [href, hfound.folder_eq, Except.ok.injEq] at hrole
  subst hrole
  -- No file of the page is there yet.
  refine decides_bind (looks_requireAbsent _) fun _ habsent => ?_
  refine decides_bind (looks_guard _) fun _ hguard => decides_pure ?_
  have hmakable := makable_page hspelled hseg hfound.found hfound.isFolder hclosed
    (requireAbsent_ok habsent)
  have hbuilt : Routed.Built (.page t.ref) := by
    refine ⟨?_, haccepted⟩
    rw [href]
    exact hfound.roleName
  have hother : ∀ {names : List Text}, names.length ≠ 4 →
      ∀ y ∈ filesOf (pageFiles t.ref), y.1 ≠ names := by
    intro names hlen y hy heq
    rw [filesOf_page hspelled hseg, List.mem_singleton] at hy
    rw [← heq, hy] at hlen
    exact hlen rfl
  have hunseen := requireAbsent_ok habsent
  rw [filesIn_page hspelled hseg] at hunseen
  have hthing : (["modules".toList, t.ref.module.segment, "pages".toList, t.ref.name ++ ".tsx".toList],
      Made.newFile (pageText t.ref)) ∈ filesOf (pageFiles t.ref) := by
    rw [filesOf_page hspelled hseg]
    simp
  refine ⟨rfl, ⟨folder, ["modules".toList, t.ref.module.segment, "pages".toList,
      t.ref.name ++ ".tsx".toList], filesOf (pageFiles t.ref), _⟩,
    createPagePlan_eq hspelled hseg t.within.registry folder,
    ⟨hmakable, ?_, fun x hx => ?_, fun x hx u heq => absurd heq (filesOf_filed _ x hx u), ?_⟩,
    fun hroot => Layout.plain_roleFolder hroot hfound.folder_eq, fun _ => hunseen _ (by simp [Blueprint.made]),
    Or.inl trivial⟩
  -- The way to a page consists of names.
  · refine isName_module (isName_of_tame hspelled.module.segment hseg) fun name hmem => ?_
    rcases List.mem_cons.mp hmem with rfl | hmem
    · exact ⟨by decide, by decide, by decide, by decide⟩
    · rw [List.mem_singleton.mp hmem]
      exact isName_component hspelled.name
  · rw [filesOf_page hspelled hseg, List.mem_singleton] at hx
    rw [hx]
  -- The one file that is changed is the registry of the role, or that of the module.
  · rcases hfound.guard_page_file t.ref href with hfile | hfile
    · exact .revision hbuilt hguard hfile isName_registry (source_tsx "route".toList) (hother (by decide))
        fun hpre => absurd (List.cons_prefix_cons.mp hpre).1 (by decide)
    · refine .revision hbuilt hguard hfile ?_
        ⟨t.within.ref.segment ++ ".route".toList, Or.inr ?_⟩ (hother (by simp)) fun hpre => ?_
      · refine isName_module hfound.isName_segment fun name hmem => ?_
        rw [List.mem_singleton.mp hmem]
        exact isName_routeFile hfound.accepted.spelled.segment
      · rw [List.append_assoc]
        rfl
      · exact absurd hpre.length_le (by simp)

/-! ### Packages -/

/-- The folder of a kind of package, once it has been found. -/
theorem packageTarget_ok {kind : PackageKind} {raw : Option Text} {named : Named} {base : Path}
    (h : (p.packageTarget kind raw).on d = (.ok (named, base), d)) :
    (Kind.package kind).named raw = .ok named ∧ p.layout.packageFolder kind = .ok base
      ∧ ∃ loc, d.find base = .ok loc ∧ d.tree.get? loc = some .folder := by
  rcases on_bind_eq_ok.mp h with ⟨n, d₁, hn, h⟩
  rw [on_ofExcept, Prod.mk.injEq] at hn
  rcases hn with ⟨hn, rfl⟩
  rcases on_bind_eq_ok.mp h with ⟨b, d₂, hb, h⟩
  rw [on_ofExcept, Prod.mk.injEq] at hb
  rcases hb with ⟨hb, rfl⟩
  rcases on_bind_eq_ok.mp h with ⟨isFolder, d₃, hfolder, h⟩
  have hd₃ := (looks_isFolder b).ok hfolder
  subst hd₃
  cases isFolder with
  | false =>
      -- Either way of saying that the folder is missing is a fault.
      rcases on_bind_eq_ok.mp h with ⟨source, d₄, -, h⟩
      dsimp only at h
      cases hrelative : b.relativeTo? source with
      | none =>
          rw [hrelative] at h
          rcases on_bind_eq_ok.mp h with ⟨_, _, hfail, -⟩
          exact absurd hfail (by simp)
      | some relative =>
          rw [hrelative] at h
          rcases on_bind_eq_ok.mp h with ⟨_, _, hfail, -⟩
          exact absurd hfail (by simp)
  | true =>
      change (pure (n, b) : Job (Named × Path)).on _ = _ at h
      rw [on_pure, Prod.mk.injEq, Except.ok.injEq, Prod.mk.injEq] at h
      rcases h with ⟨⟨rfl, rfl⟩, -⟩
      exact ⟨hn, hb, (isFolder_iff hfolder).mp rfl⟩

theorem looks_packageTarget (p : Project) (kind : PackageKind) (raw : Option Text) :
    Looks (p.packageTarget kind raw) := by
  refine (looks_ofExcept _).bind fun n => (looks_ofExcept _).bind fun base =>
    (looks_isFolder base).bind fun isFolder => ?_
  cases isFolder with
  | true => exact looks_pure _
  | false =>
      refine (looks_ofExcept _).bind fun source => ?_
      dsimp only
      cases base.relativeTo? source with
      | none => exact (looks_fail _).bind fun _ => looks_pure _
      | some relative => exact (looks_fail _).bind fun _ => looks_pure _

theorem barrel_eq {l : Layout} {kind : PackageKind} {base : Path} (h : l.packageFolder kind = .ok base) :
    l.barrel kind = .ok (base.below ["index.ts".toList]) := by
  rw [Layout.barrel, Layout.barrelIn, show l.folderIn kind.folder = .ok base from h]
  exact congrArg Except.ok (Path.div_name ⟨by decide, by decide, by decide, by decide⟩ base)

/-- The names of packages are single names without dots. -/
theorem named_package {kind : PackageKind} {raw : Option Text} {n : Named}
    (h : (Kind.package kind).named raw = .ok n) : Path.IsName n.name ∧ '.' ∉ n.name := by
  rcases Kind.canonicalOf_package (Kind.named_eq_ok h).2 with ⟨hne, hchars⟩
  have hno : ∀ c, continuesName c = false → c ∉ n.name := fun c hc hmem => by
    rw [hchars c hmem] at hc
    exact absurd hc (by simp)
  exact ⟨isName_of_no_dot (hno '/' (by decide)) (hno '.' (by decide)) hne, hno '.' (by decide)⟩

/-- No package takes the place of its barrel: there are no packages named after
    an index. -/
theorem packageWay_ne_barrel {kind : PackageKind} {raw : Option Text} {n : Named}
    (h : (Kind.package kind).named raw = .ok n) : ¬ packageWay kind n.name <+: ["index.ts".toList] := by
  have hcanonical := (Kind.named_eq_ok h).2
  have hdot := (named_package h).2
  intro hpre
  rw [packageWay] at hpre
  split at hpre
  · rw [(List.cons_prefix_cons.mp hpre).1] at hdot
    exact absurd hdot (by decide)
  -- Only a file could have the name of the barrel, and it would be called `index`.
  · next hkind =>
      have heq := (List.cons_prefix_cons.mp hpre).1
      have hts : ∀ t : Text, t ++ ".ts".toList = "index.ts".toList → t = "index".toList := fun t ht =>
        (List.append_left_inj ".ts".toList).mp ht
      have htsx : ∀ t : Text, t ++ ".tsx".toList ≠ "index.ts".toList := fun t ht => by
        have hlast := congrArg (fun t : Text => t.reverse.head?) ht
        simp at hlast
      cases kind with
      | component => exact absurd rfl hkind
      -- No hook is called that.
      | hook =>
          rcases Kind.of_ite_eq_ok hcanonical with ⟨hhook, hname⟩
          rw [hname, hts _ heq] at hhook
          exact absurd hhook (by decide)
      -- Nor is a util.
      | util =>
          rcases Kind.of_ite_eq_ok hcanonical with ⟨hutil, hname⟩
          rw [hname, hts _ heq] at hutil
          exact absurd hutil (by decide)
      -- The name of a store ends in other letters.
      | store =>
          rcases Kind.of_ite_eq_ok hcanonical with ⟨-, hname⟩
          rw [hts _ heq] at hname
          have hlast := congrArg (fun t : Text => t.reverse.head?) hname
          simp at hlast
      | context => exact htsx _ heq
      | partialView => exact htsx _ heq

theorem packageWay_ne_nil (kind : PackageKind) (name : Text) : packageWay kind name ≠ [] := by
  rw [packageWay]
  split <;> simp

/-- It may be known that the barrel of the kind is no folder. -/
theorem decides_packageCreation (kind : PackageKind) (raw : Option Text) (hclosed : d.tree.Closed)
    (hbarrel : known → ∀ barrel, p.layout.barrel kind = .ok barrel → d.look barrel ≠ .ok (some .folder)) :
    Decides d (Order.Sound p.layout.root d known (kind ≠ .component)) (p.packageCreation kind raw) := by
  refine decides_bind (looks_packageTarget p kind raw) fun t ht => ?_
  rcases t with ⟨named, base⟩
  rcases packageTarget_ok ht with ⟨hnamed, hbase, loc, hfind, hfolder⟩
  rcases named_package hnamed with ⟨hname, hdot⟩
  refine decides_bind (looks_requireAbsent _) fun _ habsent => ?_
  refine decides_ofExcept fun barrel hbarrel' => decides_pure ?_
  -- The barrel is not a folder, so a line can be put at its end.
  have hfree := fun hknown => hbarrel hknown barrel hbarrel'
  rw [barrel_eq hbase, Except.ok.injEq] at hbarrel'
  subst hbarrel'
  have hunseen := requireAbsent_ok habsent
  have hmakable := makable_package hname kind hfind hfolder hclosed hunseen
  refine ⟨rfl, ⟨base, packageWay kind named.name, filesOf (packageFiles kind named.name), _⟩,
    createPackagePlan_eq hname kind base _, ⟨hmakable,
      isName_packageWay hname kind, packageWay_prefix hname kind,
      fun x hx u heq => absurd heq (filesOf_filed _ x hx u),
      .line (fun hknown => folderless_below hfind hfolder (by decide) (by decide) (hfree hknown))
        (sighted_below hfind hfolder (by decide) (by decide) (by decide))
        ⟨by decide, by decide, by decide, by decide⟩ ⟨"index".toList, Or.inl rfl⟩ ?_
        (packageWay_ne_barrel hnamed)⟩, fun hroot => Layout.plain_packageFolder hroot hbase, fun hkind => ?_,
    Or.inr (packageWay_ne_nil kind named.name)⟩
  -- The files of the package lie beside the barrel, whose name has a dot.
  · intro y hy
    rcases mem_filesOf_package hname hy with ⟨ns, file, t, rfl, hnames, -, hns⟩
    refine ⟨ns, file, t, rfl, Path.not_up_of_names fun n hn => hnames n (by simp [hn]), fun hpre => ?_⟩
    rcases hns with rfl | rfl
    · exact absurd hpre (by simp)
    · rw [← (List.cons_prefix_cons.mp hpre).1] at hdot
      exact absurd hdot (by decide)
  -- A package of one file is its own folder, and was not there.
  · rcases (filesOf_package hname kind).2 with ⟨hcomponent, -⟩ | ⟨-, t, hthings⟩
    · exact absurd hcomponent hkind
    · rw [filesIn_eq (filesOf_package hname kind).1, List.map_map] at hunseen
      rw [Blueprint.made, packageWay, if_neg hkind]
      rcases exists_packageFile hkind named.name with ⟨u, hfiles⟩
      have hway : (Path.ofText (named.name ++ sourceExtension kind)).names
          = [named.name ++ sourceExtension kind] := by
        rw [filesOf, hfiles, List.map_singleton, List.singleton_inj, Prod.mk.injEq] at hthings
        exact hthings.1
      rw [← hway]
      refine hunseen _ ?_
      rw [hfiles]
      exact List.mem_singleton.mpr rfl

end Project

/-! ### All of them -/

/-- The commands that make something, with the names they are given. -/
inductive Creation where
  | role (raw dialect : Option Text)
  | module (ofRole raw : Option Text)
  | page (ofRole ofModule raw : Option Text)
  | package (kind : PackageKind) (raw : Option Text)

namespace Creation

/-- What a command comes to before it writes. -/
def order (p : Project) : Creation → Job Order
  | .role raw dialect => p.roleCreation raw dialect
  | .module ofRole raw => p.moduleCreation ofRole raw
  | .page ofRole ofModule raw => p.pageCreation ofRole ofModule raw
  | .package kind raw => p.packageCreation kind raw

/-- The command itself. -/
def run (p : Project) : Creation → Job Artifact
  | .role raw dialect => p.createRole raw dialect
  | .module ofRole raw => p.createModule ofRole raw
  | .page ofRole ofModule raw => p.createPage ofRole ofModule raw
  | .package kind raw => p.createPackage kind raw

theorem run_eq (p : Project) (c : Creation) : c.run p = c.order p >>= p.carryOut := by
  cases c <;> rfl

/-- What has to be given: a role's folder that does not hide behind one that is
    missing, and a barrel that is absent or a file. -/
def Fits (p : Project) (d : Disk) : Creation → Prop
  | .role raw _ => ∀ t folder, raw = some t → p.layout.roleFolder t = .ok folder → d.Level folder
  | .package kind _ => ∀ barrel, p.layout.barrel kind = .ok barrel → d.look barrel ≠ .ok (some .folder)
  | .module .. | .page .. => True

/-- The folder of a role does not hide behind one that is missing. -/
def InSight (p : Project) (d : Disk) : Creation → Prop
  | .role raw _ => ∀ t folder, raw = some t → p.layout.roleFolder t = .ok folder → d.Level folder
  | _ => True

/-- Whether all that a command makes is new; the folder of a component may be
    there before. -/
def AllNew : Creation → Prop
  | .package kind _ => kind ≠ .component
  | _ => True

variable {p : Project} {d : Disk} {known : Prop}

theorem Fits.inSight {c : Creation} (h : c.Fits p d) : c.InSight p d := by
  cases c with
  | role raw dialect => exact h
  | module ofRole raw => trivial
  | page ofRole ofModule raw => trivial
  | package kind raw => trivial

theorem decides {c : Creation} (hclosed : d.tree.Closed) (hsight : c.InSight p d) (h : known → c.Fits p d) :
    Decides d (Order.Sound p.layout.root d known c.AllNew) (c.order p) := by
  cases c with
  | role raw dialect => exact Project.decides_roleCreation raw dialect hclosed hsight
  | module ofRole raw => exact Project.decides_moduleCreation ofRole raw hclosed
  | page ofRole ofModule raw => exact Project.decides_pageCreation ofRole ofModule raw hclosed
  | package kind raw => exact Project.decides_packageCreation kind raw hclosed h

end Creation

end RouteScaffold
