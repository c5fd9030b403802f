import RouteScaffold.Proofs.Project.Creation

/-!
# Validation before Writing

A command that makes something and ends with a fault that a user is meant to see
has written nothing, and has left no intent. And once the guard of a module or a
page has let its file pass, adding to that file inserts both the import and the
entry, or is refused by the file system before the first write.

Two things have to be given. The barrel of a package must not be a folder; and
the path to the folder of a new role must not lead back out of a folder that is
missing. The second is no precaution: a role whose folder hides in this way is
noticed only when folders have been made and an intent has been written.

## Theorems

* `creation_validates_first`: Faults of commands that make something leave
  everything as it was, and what a guard lets pass can be added.
* `creation_fails_late`: A role that hides behind a missing folder.
-/

namespace RouteScaffold

open Job Disk RouteScaffold.Tree

/-- The journal of a project lies among the tool's own files. -/
theorem Project.journal_set {s : Settings} {root : Path} {now : Timestamp} {p : Project}
    (h : ofSettings s root now = .ok p) : p.journal.Set root := by
  simp only [ofSettings, bind, Except.bind] at h
  split at h
  · exact absurd h (by simp)
  · rw [← Except.ok.inj h]
    exact Journal.set_intentsFolder (s.layout root) s.journaling

section Main

variable {s : Settings} {root : Path} {now : Timestamp} {p : Project} {d : Disk} {base : Location}

/-- A command that comes to sound orders writes nothing if it ends with a fault
    that a user is meant to see. -/
theorem Creation.unchanged {c : Creation} (hclosed : d.tree.Closed) (hfits : c.Fits p d)
    (hj : p.journal.Set root) (hroot : d.find root = .ok base)
    (hfolder : d.tree.get? base = some .folder) {f : Fault} {d' : Disk}
    (hf : (c.run p).on d = (.error f, d')) (hcategory : f.category ≠ none) : d' = d := by
  rw [c.run_eq p] at hf
  rcases c.decides hclosed hfits.inSight fun (_ : True) => hfits with ⟨g, hg⟩ | ⟨o, ho, -, b, hplan, hready, -⟩
  · rw [on_bind_error hg, Prod.mk.injEq] at hf
    exact hf.2.symm
  · rw [on_bind_ok ho] at hf
    rcases on_bind_eq_error.mp hf with htrack | ⟨changed, d₁, -, hpure⟩
    · rw [hplan] at htrack
      exact absurd (hready.mechanical hj hroot hfolder htrack) hcategory
    · exact absurd hpure (by simp)

/-- Commands that make something validate before they write. -/
theorem creation_validates_first (hp : Project.ofSettings s root now = .ok p) (hclosed : d.tree.Closed)
    (hroot : d.find root = .ok base) (hfolder : d.tree.get? base = some .folder) :
    (∀ (c : Creation) (f : Fault) (d' : Disk), c.Fits p d → (c.run p).on d = (.error f, d') →
        f.category ≠ none → d' = d)
      ∧ ∀ (r : Registry) (x : Routed), x.Built → (r.guard x).check.on d = (.ok (), d) →
        ∃ loc c raw u v, d.find (r.add x).file = .ok loc ∧ d.tree.get? loc = some (.file c)
          ∧ c.read = .ok raw ∧ (x.importEdit r.dialect).Inserts raw.toLf u
          ∧ (x.entryEdit r.dialect).Inserts (u.withEnding (.detect raw)).toLf v
          ∧ x.importText r.dialect <:+: v
          ∧ (r.add x).make.on d = match d.replaceable (r.add x).file with
            | .ok _ => (.ok true, d.after (Job.rewrites loc [u.withEnding (.detect raw),
                v.withEnding (.detect (u.withEnding (.detect raw)))]))
            | .error e => (.error (.system e (r.add x).file.text), d) :=
  ⟨fun _ _ _ hfits hf hcategory => Creation.unchanged hclosed hfits (Project.journal_set hp) hroot
      hfolder hf hcategory,
    fun _ _ hbuilt hguard => Registry.on_add_of_guard hbuilt hguard⟩

end Main

namespace Validation

/-- A moment. -/
def now : Timestamp := ⟨2026, 1, 1, 0, 0, 0, 0, true⟩

/-- The root of a project. -/
def root : Path := .ofText "proj".toList

/-- The text of a registry without modules. -/
def registryText : Text := "export default <Route>\n\x7b/* MODULE_ROUTES */\x7d\n</Route>\n"

/-- A project with one role. -/
def disk : Disk := .fresh ⟨[(["proj".toList], .folder), (["proj".toList, "src".toList], .folder),
  (["proj".toList, "src".toList, "Roles".toList], .folder),
  (["proj".toList, "src".toList, "Roles".toList, "inst".toList], .folder),
  (["proj".toList, "src".toList, "Roles".toList, "inst".toList, "routes".toList], .folder),
  (["proj".toList, "src".toList, "Roles".toList, "inst".toList, "routes".toList, "route.tsx".toList],
    .file (.text registryText))]⟩ []

/-- The project as the default settings describe it. -/
def project : Project := ⟨.ofRoot root, .marker, ⟨(Layout.ofRoot root).intentsFolder, true⟩, now⟩

/-- A module whose name the registry uses already. -/
def taken : Creation := .module (some "inst".toList) (some "route".toList)

/-- What making it ends with. -/
def fault : Fault :=
  .identifierTaken "Route".toList "proj/src/Roles/inst/routes/route.tsx".toList

/-- The registry of the role. -/
def registry : Registry := ⟨.marker, root / "src" / "Roles" / "inst" / "routes" / "route.tsx",
  root / "src" / "Roles" / "inst" / "modules"⟩

/-- A module that the registry has room for. -/
def free : Routed := .module ⟨"inst".toList, "a".toList, "A".toList⟩

theorem closed : disk.tree.Closed := by decide

theorem find_root : disk.find root = .ok ["proj".toList] := rfl

theorem isFolder_root : disk.tree.get? ["proj".toList] = some .folder := rfl

theorem built_free : free.Built := by
  refine ⟨by decide, "a".toList, ?_, ?_, ?_⟩ <;> decide

theorem answers : ((registry.guard free).check.on disk).1 = .ok () ∧ ((taken.run project).on disk).1 = .error fault := by
  decide +kernel

theorem passes_free : (registry.guard free).check.on disk = (.ok (), disk) :=
  Prod.ext answers.1 (Project.looks_guard _ disk)

theorem on_taken : (taken.run project).on disk = (.error fault, ((taken.run project).on disk).2) :=
  Prod.ext answers.2 rfl

end Validation

open Validation in
theorem creation_validates_first_inst : fault.category ≠ none
    ∧ (taken.run project).on disk = (.error fault, disk)
    ∧ ∃ loc c raw u v, disk.find (registry.add free).file = .ok loc
      ∧ disk.tree.get? loc = some (.file c) ∧ c.read = .ok raw
      ∧ (free.importEdit .marker).Inserts raw.toLf u
      ∧ (free.entryEdit .marker).Inserts (u.withEnding (.detect raw)).toLf v
      ∧ free.importText .marker <:+: v
      ∧ (registry.add free).make.on disk = match disk.replaceable (registry.add free).file with
        | .ok _ => (.ok true, disk.after (Job.rewrites loc [u.withEnding (.detect raw),
            v.withEnding (.detect (u.withEnding (.detect raw)))]))
        | .error e => (.error (.system e (registry.add free).file.text), disk) := by
  have hfirst := @creation_validates_first Settings.defaults root now project disk _ rfl closed
    find_root isFolder_root
  refine ⟨by decide, ?_, hfirst.2 registry free built_free passes_free⟩
  have hsame := hfirst.1 taken fault _ trivial on_taken (by decide)
  rw [on_taken, hsame]

namespace Validation

/-- Settings that lead to the source folder by way of one that is missing. -/
def roundabout : Settings :=
  [("project", .record [("src_dir", .text "new/../src"), ("packages_dir", .text "packages"),
      ("roles_dir", .text "Roles")]),
    ("registry", .record [("default_dialect", .text "marker")]),
    ("journal", .record [("enabled", .bool true)])]

/-- The project as these settings describe it. -/
def byDetour : Project := { project with layout := { project.layout with source := some "new/../src" } }

/-- A role that is there. -/
def there : Creation := .role (some "inst".toList) none

/-- What making it ends with: its registry is there. -/
def lateFault : Fault := .alreadyExists "proj/new/../src/Roles/inst/routes/route.tsx".toList

/-- The disk that making it leaves. -/
def leftDisk : Disk := ((there.run byDetour).on disk).2

theorem left : ((there.run byDetour).on disk).1 = .error lateFault
    ∧ disk.tree.get? ["proj".toList, "new".toList] = none
    ∧ leftDisk.tree.get? ["proj".toList, "new".toList] = some .folder
    ∧ (leftDisk.tree.namesIn ["proj".toList, ".aviators".toList, "intents".toList]).length = 1 := by
  decide +kernel

theorem on_there : (there.run byDetour).on disk = (.error lateFault, leftDisk) := by
  rw [leftDisk, ← left.1]

end Validation

open Validation in
/-- A role that hides behind a missing folder is noticed only when that folder
    has been made. -/
theorem creation_fails_late : Project.ofSettings roundabout root now = .ok byDetour
    ∧ disk.tree.Closed ∧ disk.find root = .ok ["proj".toList]
    ∧ disk.tree.get? ["proj".toList] = some .folder
    ∧ (there.run byDetour).on disk = (.error lateFault, leftDisk) ∧ lateFault.category = some .existing
    ∧ disk.tree.get? ["proj".toList, "new".toList] = none
    ∧ leftDisk.tree.get? ["proj".toList, "new".toList] = some .folder
    ∧ (leftDisk.tree.namesIn ["proj".toList, ".aviators".toList, "intents".toList]).length = 1 := by
  exact ⟨rfl, closed, find_root, isFolder_root, on_there, rfl, left.2⟩

end RouteScaffold
