import RouteScaffold.Proofs.Journal.Faults
import RouteScaffold.Proofs.Marker.History
import RouteScaffold.Proofs.Project.Footprint

/-!
# How Commands Fail

A command that fails should say what is wrong in the user's terms, unless it is the
machine below that refuses. That a file holds bytes which are no text is not the machine's
doing; but no command makes such a file, and where there is none, none is read. There are two exceptions: a page name that is absent is not
noticed as one, and a missing folder of packages is reported by its place in the source
folder, which it need not have.

The names that a command is given are looked at in a fixed order, and before anything
that needs them. A name that is absent or blank is what the command fails with,
unless something that is looked at before is a fault already.

## Main definitions

* `Command.Lapse`: The faults that are neither refusals nor meant to be seen.
* `Target.needs`: The names that a command needs, with what is looked at before each
  of them.
* `Target.Need.refusal`: What a command fails with when a name is lacking.

## Theorems

* `raises_moduleTarget`, `raises_pageTarget`, `raises_packageTarget`: The faults of
  finding what a command is about.
* `Command.raises_run`: The faults of commands.
* `Target.on_lookup_of_lacking`: What a missing name leads to.
* `Command.fails_properly`: Both of them.
-/

namespace RouteScaffold

open Job Disk Naming
open Fault (Proper)

variable {garbled : Prop}

/-! ### Names and places -/

namespace Naming

/-- A name that is absent or blank. -/
def Lacking (raw : Option Text) : Prop := ∀ t, raw = some t → t.isBlankLine = true

theorem present_of_lacking {raw : Option Text} (h : Lacking raw) (kind : Text) :
    present kind raw = .error (.missingName kind) := by
  cases raw with
  | none => rfl
  | some t => rw [present, if_pos (h t rfl)]

end Naming

namespace Kind

variable {kind : Kind} {raw : Option Text} {f : Fault}

theorem named_of_lacking (h : Lacking raw) : kind.named raw = .error (.missingName kind.name) := by
  rw [named, present_of_lacking h]
  rfl

/-- A text without a canonical name is a bad argument. -/
theorem canonicalOf_fault {t : Text} (h : kind.canonicalOf t = .error f) : f.category = some .argument := by
  -- Whatever the kind, one check decides, and its fault is a bad argument.
  have hite : ∀ {b : Bool} {name : Text} {g : Fault}, g.category = some .argument →
      (if b then .ok name else .error g : Except Fault Text) = .error f → f.category = some .argument := by
    intro b name g hg hf
    split at hf
    · exact absurd hf (by simp)
    · rw [← Except.error.inj hf]
      exact hg
  unfold canonicalOf at h
  split at h
  all_goals exact hite rfl h

theorem present_fault {t : Text} (h : present t raw = .error f) : f.category = some .argument := by
  unfold present at h
  split at h
  · split at h
    · rw [← Except.error.inj h]
      rfl
    · exact absurd h (by simp)
  · rw [← Except.error.inj h]
    rfl

theorem named_fault (h : kind.named raw = .error f) : f.category = some .argument := by
  rcases bind_fault h with hpresent | ⟨t, -, hrest⟩
  · exact present_fault hpresent
  · rcases bind_fault hrest with hname | ⟨name, -, hmade⟩
    · exact canonicalOf_fault hname
    · exact absurd hmade (by simp [pure, Except.pure])

theorem raises_named (kind : Kind) (raw : Option Text) : RaisesProper garbled (Job.ofExcept (kind.named raw)) :=
  raises_ofExcept fun _ h => .of_category (named_fault h)

end Kind

theorem PackageKind.ofName_fault {t : Text} {f : Fault} (h : PackageKind.ofName t = .error f) :
    f.category = some .argument := by
  unfold PackageKind.ofName at h
  split at h
  · exact absurd h (by simp)
  · rw [← Except.error.inj h]
    rfl

namespace Layout

/-- The settings name the three source folders. -/
structure Textual (l : Layout) : Prop where
  source : ∃ t, l.source = some t
  packages : ∃ t, l.packages = some t
  roles : ∃ t, l.roles = some t

variable {l : Layout} (h : l.Textual)
include h

theorem Textual.sourceRoot : ∃ p, l.sourceRoot = .ok p := by
  rcases h.source with ⟨t, ht⟩
  exact ⟨_, by rw [Layout.sourceRoot, ht]; rfl⟩

theorem Textual.rolesRoot : ∃ p, l.rolesRoot = .ok p := by
  rcases h.sourceRoot with ⟨source, hsource⟩
  rcases h.roles with ⟨t, ht⟩
  exact ⟨_, by rw [Layout.rolesRoot, hsource, ht]; rfl⟩

theorem Textual.roleFolder (role : Text) : ∃ p, l.roleFolder role = .ok p := by
  rcases h.rolesRoot with ⟨roles, hroles⟩
  exact ⟨_, by rw [Layout.roleFolder, hroles]; rfl⟩

theorem Textual.moduleFolder (role segment : Text) : ∃ p, l.moduleFolder role segment = .ok p := by
  rcases h.roleFolder role with ⟨folder, hfolder⟩
  exact ⟨_, by rw [Layout.moduleFolder, hfolder]; rfl⟩

theorem Textual.packageFolder (kind : PackageKind) : ∃ p, l.packageFolder kind = .ok p := by
  rcases h.sourceRoot with ⟨source, hsource⟩
  rcases h.packages with ⟨t, ht⟩
  exact ⟨_, by rw [Layout.packageFolder, folderIn, packagesRoot, hsource, ht]; rfl⟩

theorem Textual.descriptorFile (role : Text) : ∃ p, l.descriptorFile role = .ok p := by
  rcases h.roleFolder role with ⟨folder, hfolder⟩
  exact ⟨_, Layout.descriptorFile_eq hfolder⟩

theorem Textual.pagesFolder (role segment : Text) : ∃ p, l.pagesFolder role segment = .ok p := by
  rcases h.moduleFolder role segment with ⟨folder, hfolder⟩
  exact ⟨_, by rw [Layout.pagesFolder, hfolder]; rfl⟩

theorem Textual.barrel (kind : PackageKind) : ∃ p, l.barrel kind = .ok p := by
  rcases h.packageFolder kind with ⟨folder, hfolder⟩
  exact ⟨_, by rw [Layout.barrel, barrelIn, show l.folderIn kind.folder = .ok folder from hfolder]; rfl⟩

end Layout

/-! ### Registries -/

namespace Registry

variable {l : Layout}

theorem raises_load (h : l.Textual) (now : Timestamp) (role : Text) : RaisesProper garbled (load l now role) := by
  rcases h.roleFolder role with ⟨folder, hfolder⟩
  refine Raises.bind ?_ fun d => raises_of_isOk ⟨_, Project.registry_eq hfolder⟩
  refine (raises_of_isOk ⟨_, hfolder⟩).bind fun folder => (raises_isFolder tolerates_proper folder).bind fun _ =>
    .require (fun _ => .of_category rfl) fun _ => ?_
  refine (raises_of_isOk ⟨_, Layout.descriptorFile_eq hfolder⟩).bind fun file =>
    (raises_isThere tolerates_proper file).bind fun _ => .ite (fun _ => ?_) fun _ => ?_
  -- With a descriptor the dialect is read from it, and without one from the registry.
  · refine (raises_readText file).bind fun t => ?_
    split
    · exact raises_pure _
    · exact raises_fail (.of_category rfl)
  · refine (raises_of_isOk ⟨_, Layout.registryFile_eq hfolder⟩).bind fun registry =>
      (raises_readSource registry).bind fun t => ?_
    split
    · exact raises_pure _
    · exact raises_fail (.of_category rfl)

end Registry

namespace Guard

variable {file content : Text} {f : Fault}

theorem proper_requireAnchors {as : List Anchor} (h : requireAnchors file content as = .error f) : f.Proper garbled := by
  induction as with
  | nil => exact absurd h (by simp [requireAnchors])
  | cons a as ih =>
      rw [requireAnchors] at h
      split at h
      · exact ih h
      · rw [← Except.error.inj h]
        exact .of_category rfl

theorem proper_requireUnused {identifiers : List Text} (h : requireUnused file content identifiers = .error f) :
    f.Proper garbled := by
  induction identifiers with
  | nil => exact absurd h (by simp [requireUnused])
  | cons identifier identifiers ih =>
      rw [requireUnused] at h
      split at h
      · rw [← Except.error.inj h]
        exact .of_category rfl
      · exact ih h

theorem raises_check (g : Guard) : RaisesProper garbled g.check := by
  refine (raises_readSource g.file).bind fun t => raises_ofExcept fun f h => ?_
  rcases bind_fault h with hanchors | ⟨u, -, hunused⟩
  · exact proper_requireAnchors hanchors
  · exact proper_requireUnused hunused

end Guard

/-! ### Targets -/

namespace Project

/-- Finding a module that has to be there. -/
def moduleThere (p : Project) (role module : Option Text) : Job ModuleTarget := do
  let t ← p.moduleTarget role module
  let folder ← Job.ofExcept (p.layout.moduleFolder t.ref.role t.ref.segment)
  unless ← Job.isFolder folder do Job.fail (.moduleNotFound t.ref.role t.ref.segment)
  return t

/-- A page is looked for when its module has been found. -/
theorem pageTarget_eq (p : Project) (role module page : Option Text) :
    p.pageTarget role module page = do
      let t ← p.moduleThere role module
      let (named, way) ← Job.ofExcept (pageNamed page)
      return ⟨t, named, ⟨t.ref, way, named.name⟩⟩ := by
  simp only [pageTarget, moduleThere, bind_assoc]
  refine congrArg _ (funext fun t => congrArg _ (funext fun folder => congrArg _ (funext fun there => ?_)))
  -- Without the folder of the module both sides have failed already.
  cases there
  · rfl
  · rfl

theorem looks_moduleThere (p : Project) (role module : Option Text) : Looks (p.moduleThere role module) :=
  (looks_moduleTarget p role module).bind fun _ => (looks_ofExcept _).bind fun _ =>
    (looks_isFolder _).bind fun _ => .require (looks_pure _)

end Project

/-- The faults of a command that are neither refusals nor of a sort that a user is meant
    to see. -/
inductive Command.Lapse (p : Project) : Target → Fault → Prop where
  /-- A page name that is absent is not noticed as one. -/
  | absentPage (ofRole ofModule : Option Text) : Lapse p (.page ofRole ofModule none) .absentName
  /-- A folder of packages that is missing has no place in the source folder. -/
  | outside {kind : PackageKind} {base source : Path} (raw : Option Text)
      (hbase : p.layout.packageFolder kind = .ok base) (hsource : p.layout.sourceRoot = .ok source)
      (h : base.relativeTo? source = none) : Lapse p (.package kind raw) (.notBelow base.text source.text)

/-- What a command about a target may fail with. -/
def Target.Accounts (garbled : Prop) (p : Project) (t : Target) (f : Fault) : Prop :=
  f.Proper garbled ∨ Command.Lapse p t f

namespace Project

variable {p : Project} (hl : p.layout.Textual)
include hl

theorem raises_moduleTarget (role module : Option Text) : RaisesProper garbled (p.moduleTarget role module) :=
  (Kind.raises_named _ role).bind fun _ => (Kind.raises_named _ module).bind fun _ =>
    (Registry.raises_load hl _ _).bind fun _ => raises_pure _

theorem raises_moduleThere (role module : Option Text) : RaisesProper garbled (p.moduleThere role module) :=
  (raises_moduleTarget hl role module).bind fun _ => (raises_of_isOk (hl.moduleFolder _ _)).bind fun _ =>
    (raises_isFolder tolerates_proper _).bind fun _ => .require (fun _ => .of_category rfl) fun _ => raises_pure _

theorem raises_pageTarget (role module page : Option Text) :
    Raises (Disk.Spelled garbled) ((Target.page role module page).Accounts garbled p) (p.pageTarget role module page) := by
  rw [pageTarget_eq]
  refine ((raises_moduleThere hl role module).mono fun _ => Or.inl).bind fun t =>
    (raises_ofExcept fun f hf => ?_).bind fun _ => raises_pure _
  -- The segment is asked for before the name, and so before it is known to be there.
  cases page with
  | none =>
      rw [← Except.error.inj hf]
      exact Or.inr (.absentPage role module)
  | some raw =>
      rcases bind_fault hf with hnamed | ⟨n, -, hmade⟩
      · exact Or.inl (.of_category (Kind.named_fault hnamed))
      · exact absurd hmade (by simp [pure, Except.pure])

theorem raises_packageTarget (kind : PackageKind) (raw : Option Text) :
    Raises (Disk.Spelled garbled) ((Target.package kind raw).Accounts garbled p) (p.packageTarget kind raw) := by
  refine ((Kind.raises_named _ raw).mono fun _ => Or.inl).bind fun n => .ofExcept_bind (fun f hf => ?_) fun base hbase => ?_
  · rcases hl.packageFolder kind with ⟨base, hbase⟩
    exact absurd (hf.symm.trans hbase) (by simp)
  refine ((raises_isFolder tolerates_proper base).mono fun _ => Or.inl).bind fun isFolder => ?_
  cases isFolder with
  | true => exact raises_pure _
  | false =>
      -- What is reported is where the folder is missing, seen from the source folder.
      refine .ofExcept_bind (fun f hf => ?_) fun source hsource => ?_
      · rcases hl.sourceRoot with ⟨source, hsource⟩
        exact absurd (hf.symm.trans hsource) (by simp)
      dsimp only
      cases hrelative : base.relativeTo? source with
      | none => exact (raises_fail (Or.inr (.outside raw hbase hsource hrelative))).bind fun _ => raises_pure _
      | some relative =>
          exact (raises_fail (Or.inl (.of_category rfl))).bind fun _ => raises_pure _

end Project

/-! ### Commands -/

namespace Target

/-- Finding what a command is about. -/
def lookup (p : Project) : Target → Job Unit
  | .role raw => do let _ ← Job.ofExcept (Kind.role.named raw)
  | .module ofRole raw => do let _ ← p.moduleTarget ofRole raw
  | .page ofRole ofModule raw => do let _ ← p.pageTarget ofRole ofModule raw
  | .package kind raw => do let _ ← p.packageTarget kind raw

/-- A name that a command needs: what it names, what is given, and what is looked at
    before it. -/
structure Need where
  kind : Kind
  raw : Option Text
  before : Job Unit

/-- The fault of a name that is lacking. -/
def Need.fault (n : Need) : Fault :=
  if n.kind = .page ∧ n.raw = none then .absentName else .missingName n.kind.name

/-- The fault of a command that lacks a name: that of the name, unless something that is
    looked at before is a fault already. -/
def Need.refusal (n : Need) (d : Disk) : Fault :=
  match (n.before.on d).1 with
  | .ok _ => n.fault
  | .error f => f

/-- The names that a command needs, in the order in which they are looked at. -/
def needs (p : Project) : Target → List Need
  | .role raw => [⟨.role, raw, pure ()⟩]
  | .package kind raw => [⟨.package kind, raw, pure ()⟩]
  | .module ofRole raw =>
    [⟨.role, ofRole, pure ()⟩, ⟨.module, raw, do let _ ← Job.ofExcept (Kind.role.named ofRole)⟩]
  | .page ofRole ofModule raw =>
    [⟨.role, ofRole, pure ()⟩, ⟨.module, ofModule, do let _ ← Job.ofExcept (Kind.role.named ofRole)⟩,
      ⟨.page, raw, do let _ ← p.moduleThere ofRole ofModule⟩]

end Target

namespace Project

variable {p : Project} (hl : p.layout.Textual)

theorem raises_carryOut (p : Project) (o : Order) : RaisesProper garbled (p.carryOut o) :=
  (Journal.raises_track _ _ _ _ _ _).bind fun _ => raises_pure _

theorem raises_requireAbsent (files : List Path) : RaisesProper garbled (requireAbsent files) := by
  induction files with
  | nil => exact raises_pure _
  | cons file files ih =>
      exact (raises_isThere tolerates_proper file).bind fun _ => .refuse (fun _ => .of_category rfl) fun _ => ih

theorem raises_dialectFor (p : Project) (wanted : Option Text) :
    RaisesProper garbled (Job.ofExcept (p.dialectFor wanted)) := by
  refine raises_ofExcept fun f h => ?_
  unfold dialectFor at h
  split at h
  · exact absurd h (by simp)
  · exact absurd h (by simp)
  · split at h
    · exact absurd h (by simp)
    · rw [← Except.error.inj h]
      exact .of_category rfl

include hl

theorem raises_roleCreation (raw dialect : Option Text) : RaisesProper garbled (p.roleCreation raw dialect) :=
  (Kind.raises_named _ raw).bind fun _ => (raises_dialectFor p dialect).bind fun _ =>
    (raises_of_isOk (hl.roleFolder _)).bind fun folder => (raises_isThere tolerates_proper folder).bind fun _ =>
      .refuse (fun _ => .of_category rfl) fun _ => (raises_of_isOk (hl.descriptorFile _)).bind fun _ => raises_pure _

theorem raises_deleteRole (raw : Option Text) : RaisesProper garbled (p.deleteRole raw) :=
  (Kind.raises_named _ raw).bind fun _ => (raises_of_isOk (hl.roleFolder _)).bind fun folder =>
    (raises_isFolder tolerates_proper folder).bind fun _ => .require (fun _ => .of_category rfl) fun _ =>
      (raises_remove folder false).bind fun _ => raises_pure _

theorem raises_moduleCreation (role module : Option Text) : RaisesProper garbled (p.moduleCreation role module) :=
  (raises_moduleTarget hl role module).bind fun _ => (raises_of_isOk (hl.moduleFolder _ _)).bind fun folder =>
    (raises_isThere tolerates_proper folder).bind fun _ => .refuse (fun _ => .of_category rfl) fun _ =>
      (Guard.raises_check _).bind fun _ => (raises_of_isOk (hl.roleFolder _)).bind fun _ => raises_pure _

theorem raises_moduleDeletion (role module : Option Text) (missingOk : Bool) :
    RaisesProper garbled (p.moduleDeletion role module missingOk) :=
  (raises_moduleTarget hl role module).bind fun _ => (raises_of_isOk (hl.moduleFolder _ _)).bind fun folder =>
    (raises_isThere tolerates_proper folder).bind fun _ =>
      .require (fun _ => .of_category rfl) fun _ => raises_pure _

theorem raises_pageCreation (role module page : Option Text) :
    Raises (Disk.Spelled garbled) ((Target.page role module page).Accounts garbled p) (p.pageCreation role module page) :=
  (raises_pageTarget hl role module page).bind fun _ => Raises.mono (P := Proper garbled)
    ((raises_of_isOk (hl.roleFolder _)).bind fun _ => (raises_requireAbsent _).bind fun _ =>
      (Guard.raises_check _).bind fun _ => raises_pure _) fun _ => Or.inl

theorem raises_pageDeletion (role module page : Option Text) (missingOk : Bool) :
    Raises (Disk.Spelled garbled) ((Target.page role module page).Accounts garbled p)
      (p.pageDeletion role module page missingOk) :=
  (raises_pageTarget hl role module page).bind fun _ => Raises.mono (P := Proper garbled)
    ((raises_of_isOk (hl.pagesFolder _ _)).bind fun _ => (raises_isThere tolerates_proper _).bind fun _ =>
      .require (fun _ => .of_category rfl) fun _ => raises_pure _) fun _ => Or.inl

theorem raises_packageCreation (kind : PackageKind) (raw : Option Text) :
    Raises (Disk.Spelled garbled) ((Target.package kind raw).Accounts garbled p) (p.packageCreation kind raw) :=
  (raises_packageTarget hl kind raw).bind fun ⟨_, _⟩ => Raises.mono (P := Proper garbled)
    ((raises_requireAbsent _).bind fun _ => (raises_of_isOk (hl.barrel kind)).bind fun _ => raises_pure _) fun _ => Or.inl

theorem raises_packageDeletion (kind : PackageKind) (raw : Option Text) (missingOk : Bool) :
    Raises (Disk.Spelled garbled) ((Target.package kind raw).Accounts garbled p)
      (p.packageDeletion kind raw missingOk) :=
  (raises_packageTarget hl kind raw).bind fun ⟨_, _⟩ => Raises.mono (P := Proper garbled)
    ((raises_isThere tolerates_proper _).bind fun _ => .require (fun _ => .of_category rfl) fun _ =>
      (raises_of_isOk (hl.barrel kind)).bind fun _ => raises_pure _) fun _ => Or.inl

end Project

namespace Command

variable {p : Project} {d : Disk} {f : Fault}

/-- What a command fails with is accounted for, one case for each command. -/
theorem raises_run (hl : p.layout.Textual) (c : Command) :
    Raises (Disk.Spelled garbled) (c.target.Accounts garbled p) (c.run p) := by
  -- Carrying out an order has no lapses, so they can only come from its making.
  have hcarry : ∀ o, Raises (Disk.Spelled garbled) (c.target.Accounts garbled p) (p.carryOut o) := fun o =>
    (Project.raises_carryOut p o).mono fun _ => Or.inl
  rcases c with c | c
  · cases c with
    | role raw dialect => exact ((Project.raises_roleCreation hl raw dialect).mono fun _ => Or.inl).bind hcarry
    | module role raw => exact ((Project.raises_moduleCreation hl role raw).mono fun _ => Or.inl).bind hcarry
    | page role module raw => exact (Project.raises_pageCreation hl role module raw).bind hcarry
    | package kind raw => exact (Project.raises_packageCreation hl kind raw).bind hcarry
  · cases c with
    | role raw => exact (Project.raises_deleteRole hl raw).mono fun _ => Or.inl
    | module role raw missingOk =>
        exact ((Project.raises_moduleDeletion hl role raw missingOk).mono fun _ => Or.inl).bind hcarry
    | page role module raw missingOk => exact (Project.raises_pageDeletion hl role module raw missingOk).bind hcarry
    | package kind raw missingOk => exact (Project.raises_packageDeletion hl kind raw missingOk).bind hcarry

/-- A command whose target cannot be found fails with that. -/
theorem on_run_of_lookup {c : Command} (h : (c.target.lookup p).on d = (.error f, d)) :
    (c.run p).on d = (.error f, d) := by
  have hfirst : ∀ {α : Type} {j : Job α}, (do let _ ← j : Job Unit).on d = (.error f, d) → j.on d = (.error f, d) := by
    intro α j hj
    rcases on_bind_eq_error.mp hj with hj | ⟨a, d₁, -, hpure⟩
    · exact hj
    · exact absurd hpure (by simp)
  rcases c with c | c
  · cases c <;> exact on_bind_error (on_bind_error (hfirst h))
  · cases c with
    | role raw => exact on_bind_error (hfirst h)
    | module role raw missingOk => exact on_bind_error (on_bind_error (hfirst h))
    | page role module raw missingOk => exact on_bind_error (on_bind_error (hfirst h))
    | package kind raw missingOk => exact on_bind_error (on_bind_error (hfirst h))

end Command

namespace Target

variable {p : Project} {d : Disk} {n : Need}

theorem on_named_of_lacking {kind : Kind} {raw : Option Text} (h : Lacking raw) (d : Disk) :
    (Job.ofExcept (kind.named raw)).on d = (.error (.missingName kind.name), d) := by
  rw [on_ofExcept, Kind.named_of_lacking h]

theorem on_pageNamed_of_lacking {raw : Option Text} (h : Lacking raw) (before : Job Unit) (d : Disk) :
    (Job.ofExcept (Project.pageNamed raw)).on d = (.error (Need.fault ⟨.page, raw, before⟩), d) := by
  cases raw with
  | none => rfl
  | some t =>
      rw [on_ofExcept, Project.pageNamed, Kind.named_of_lacking h]
      rfl

theorem fault_of_ne_page (h : n.kind ≠ .page) : n.fault = .missingName n.kind.name := by
  rw [Need.fault, if_neg fun hpage => h hpage.1]

/-- What is behind a first part that only looks is reached, or that part is a fault. -/
theorem on_bind_of_before {α β : Type} {j : Job α} {k : α → Job β} (hj : Looks j)
    (hbefore : n.before = do let _ ← j) (hk : ∀ a, (k a).on d = (.error n.fault, d)) :
    (j >>= k).on d = (.error (n.refusal d), d) := by
  rw [Need.refusal, hbefore]
  rcases hj.cases d with ⟨f, hf⟩ | ⟨a, ha⟩
  · rw [on_bind_error hf, on_bind_error hf]
  · rw [on_bind_ok ha, on_bind_ok ha]
    exact hk a

/-- A target for which a name is lacking cannot be found. -/
theorem on_lookup_of_lacking {t : Target} (hn : n ∈ t.needs p) (h : Lacking n.raw) :
    (t.lookup p).on d = (.error (n.refusal d), d) := by
  -- What is missing is asked for before anything else of its target.
  cases t with
  | role raw =>
      rw [needs, List.mem_singleton] at hn
      subst hn
      exact on_bind_error (on_named_of_lacking h d)
  | package kind raw =>
      rw [needs, List.mem_singleton] at hn
      subst hn
      have hfault := fault_of_ne_page (n := ⟨.package kind, raw, pure ()⟩) (by simp)
      rw [Need.refusal, on_pure, hfault]
      exact on_bind_error (on_bind_error (on_named_of_lacking h d))
  | module ofRole raw =>
      -- Here it is asked for first, or behind a part that is given.
      simp only [needs, List.mem_cons, List.not_mem_nil, or_false] at hn
      rcases hn with rfl | rfl
      · exact on_bind_error (on_bind_error (on_named_of_lacking h d))
      · exact on_bind_error (on_bind_of_before (looks_ofExcept _) rfl fun _ => on_bind_error (on_named_of_lacking h d))
  | page ofRole ofModule raw =>
      simp only [needs, List.mem_cons, List.not_mem_nil, or_false] at hn
      rcases hn with rfl | rfl | rfl
      · exact on_bind_error (on_bind_error (on_bind_error (on_named_of_lacking h d)))
      · exact on_bind_error (on_bind_error
          (on_bind_of_before (looks_ofExcept _) rfl fun _ => on_bind_error (on_named_of_lacking h d)))
      · refine on_bind_error ?_
        rw [Project.pageTarget_eq]
        exact on_bind_of_before (Project.looks_moduleThere p ofRole ofModule) rfl fun _ =>
          on_bind_error (on_pageNamed_of_lacking h _ d)

end Target

/-- A command fails with a fault that a user is meant to see or with a refusal of the
    machine below, but for two lapses. Bytes that are no text are such a refusal only where
    there are files of them, and no command makes one. And where a name that a command needs
    is absent or blank it fails with that, and leaves everything as it is, unless what is
    looked at before is a fault already; the lapse is that an absent page name has a fault of
    its own. A kind of packages that there is not is a bad argument as well. -/
theorem Command.fails_properly {p : Project} (hl : p.layout.Textual) (c : Command) (d : Disk) :
    (∀ f d', (c.run p).on d = (.error f, d') → f.Proper (¬ d.Readable) ∨ Lapse p c.target f)
      ∧ (d.Readable → ∀ r d', (c.run p).on d = (r, d') → d'.Readable)
      ∧ (∀ n ∈ c.target.needs p, Lacking n.raw → (c.run p).on d = (.error (n.refusal d), d))
      ∧ ∀ t f, PackageKind.ofName t = .error f → f.category = some .argument := by
  refine ⟨fun f d' hf => (raises_run hl c).fault (Classical.em _).symm hf, fun hd r d' hrun => ?_,
    fun _ hn h => on_run_of_lookup (Target.on_lookup_of_lacking hn h), fun _ _ h => PackageKind.ofName_fault h⟩
  have hspelled : d'.Spelled False := (raises_run hl c).keeps (Or.inr hd) hrun
  exact hspelled.resolve_left id

namespace Failures

open Histories

/-- The name of a page in the module that has been made, as it is given. -/
def page (raw : Option Text) : Target.Need :=
  ⟨.page, raw, do let _ ← project.moduleThere (some "inst".toList) (some "a".toList)⟩

/-- The making of such a page. -/
def addPage (raw : Option Text) : Command := .create (.page (some "inst".toList) (some "a".toList) raw)

theorem page_mem_needs (raw : Option Text) : page raw ∈ (addPage raw).target.needs project := by
  simp [page, addPage, Command.target, Target.needs]

theorem textual : project.layout.Textual := ⟨⟨_, rfl⟩, ⟨_, rfl⟩, ⟨_, rfl⟩⟩

/-- What a page without a name is refused with. -/
theorem refusals : (page (some " ".toList)).refusal withModule = .missingName "page".toList
    ∧ (page none).refusal withModule = .absentName := by
  decide +kernel

end Failures

open Histories Failures in
theorem Command.fails_properly_blank : project.layout.Textual ∧ Lacking (some " ".toList)
    ∧ (project.createPage (some "inst".toList) (some "a".toList) (some " ".toList)).on withModule
      = (.error (.missingName "page".toList), withModule) := by
  have hlacking : Lacking (some " ".toList) := fun t ht => by
    rw [← Option.some.inj ht]
    decide
  have hfails := (Command.fails_properly textual (addPage (some " ".toList)) withModule).2.2.1 _ (page_mem_needs _)
    hlacking
  rw [refusals.1] at hfails
  exact ⟨textual, hlacking, hfails⟩

open Histories Failures in
/-- The making of a page without a name fails with what is no fault that a user is meant
    to see, and no refusal. -/
theorem absent_page_lapses :
    (project.createPage (some "inst".toList) (some "a".toList) none).on withModule = (.error .absentName, withModule)
      ∧ ∀ garbled, ¬ Fault.absentName.Proper garbled := by
  have hlacking : Lacking none := fun t ht => absurd ht (by simp)
  have hfails := Command.on_run_of_lookup (Target.on_lookup_of_lacking (d := withModule) (page_mem_needs none) hlacking)
  rw [refusals.2] at hfails
  refine ⟨hfails, fun _ h => ?_⟩
  cases h with
  | meant h => exact h rfl

end RouteScaffold
