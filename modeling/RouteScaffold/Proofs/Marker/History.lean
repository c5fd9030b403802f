import RouteScaffold.Proofs.Marker.Commands

/-!
# The History of a Marker Role

A role of the marker dialect is made, and then commands are given to it, one after
the other: modules and pages are made and removed, successfully or not. The
registry tells what is left of it. It is the template of the role with an import
and an element for each artifact that is routed, in the order in which they were
made, and nothing in it tells of what has been made and removed again.

This takes two things. No name holds a dollar sign, since removals look for whole
words. And what is removed is routed: a deletion is let through by the folder of
its target, and if that folder stands for nothing that is routed, the removal may
hit an artifact of the same name.

What is removed may also be missing, as long as nothing routed has its name. Then the
command tolerates it, and the registry stays as it is; or it fails and has written nothing,
whatever is routed.

A command can fail behind its edits, so whether it counts is read off the
registry: one that has failed and has left the registry as it was does not count,
and of such a command nothing is asked.

That an intent is recovered is no step of its own: a deletion that is resumed is a
command, and a creation that is undone leads back to where the role was before.

## Main definitions

* `Marker.History`: What a role has behind it.

## Theorems

* `History.registered`: The invariant of histories.
* `History.registry_tells_live`: The registry tells what is routed.
-/

namespace RouteScaffold

open Naming Text Job Disk RouteScaffold.Tree Journal Project

namespace Marker

variable {live : List Routed} {role : Text} {folder root : Path} {d d' : Disk}

/-- What a role has behind it: it has been made, and commands have been given one
    after the other. A command counts if it has succeeded or has changed the
    registry. What lies between two commands leaves the registry and the descriptor
    of the role alone. -/
inductive History (root folder : Path) (role : Text) : List Routed → Disk → Prop
  | created {p : Project} {asked : Option Text} {a : Artifact} {d d' : Disk} (hj : p.journal.Set root)
      (hfolder : p.layout.roleFolder role = .ok folder) (hasked : p.dialectFor asked = .ok .marker)
      (hrun : (p.createRole (some role) asked).on d = (.ok a, d')) : History root folder role [] d'
  | counted {p : Project} {c : Command} {live : List Routed} {r : Except Fault Artifact} {d d' : Disk}
      (h : History root folder role live d) (hj : p.journal.Set root)
      (hfolder : p.layout.roleFolder role = .ok folder) (hfair : c.Fair role live)
      (hrun : (c.run p role).on d = (r, d'))
      (hcounts : (∃ a, r = .ok a) ∨ d'.tree.get? (spot d.here folder ++ registryNames)
        ≠ d.tree.get? (spot d.here folder ++ registryNames)) :
      History root folder role (c.effect role live) d'
  | refused {p : Project} {c : Command} {live : List Routed} {f : Fault} {d d' : Disk}
      (h : History root folder role live d) (hj : p.journal.Set root)
      (hfolder : p.layout.roleFolder role = .ok folder) (hrun : (c.run p role).on d = (.error f, d'))
      (hsame : d'.tree.get? (spot d.here folder ++ registryNames)
        = d.tree.get? (spot d.here folder ++ registryNames)) :
      History root folder role live d'
  | elsewhere {live : List Routed} {d d' : Disk} (h : History root folder role live d)
      (hhere : d'.here = d.here)
      (hregistry : d'.tree.get? (spot d.here folder ++ registryNames)
        = d.tree.get? (spot d.here folder ++ registryNames))
      (hdescriptor : d'.tree.get? (spot d.here folder ++ [".aviators-role.json".toList])
        = d.tree.get? (spot d.here folder ++ [".aviators-role.json".toList])) :
      History root folder role live d'

theorem Registered.of_same (h : Registered folder role live d) (hhere : d'.here = d.here)
    (hregistry : d'.tree.get? (spot d.here folder ++ registryNames)
      = d.tree.get? (spot d.here folder ++ registryNames))
    (hdescriptor : d'.tree.get? (spot d.here folder ++ [".aviators-role.json".toList])
      = d.tree.get? (spot d.here folder ++ [".aviators-role.json".toList])) :
    Registered folder role live d' := by
  rcases h.descriptor with ⟨made, hmarker, hmade⟩
  refine ⟨h.roleName, ⟨made, hmarker, ?_⟩, ?_, h.distinct⟩
  · rw [hhere, hdescriptor]
    exact hmade
  · rw [hhere, hregistry]
    exact h.registry

theorem History.registered (h : History root folder role live d) : Registered folder role live d := by
  induction h with
  | created hj hfolder hasked hrun => exact registered_createRole hasked hfolder hj hrun
  | @counted p c live r d d' _ hj hfolder hfair hrun hcounts ih =>
      rcases ih.command hfair hfolder hj hrun with ⟨hhere, hdone | ⟨⟨f, hf⟩, hkept⟩⟩
      · exact hdone
      · have hsame := hkept.registry
        rw [hhere, ← ih.registry] at hsame
        rcases hcounts with ⟨a, ha⟩ | hchanged
        · exact absurd (ha.symm.trans hf) (by simp)
        · exact absurd hsame hchanged
  | @refused p c live f d d' _ hj hfolder hrun hsame ih =>
      -- Nothing is known of its target, but no command touches the descriptor.
      rcases ih.descriptor with ⟨made, -, hmade⟩
      rcases c.keeps_descriptor hfolder hj hmade hrun with ⟨hhere, hkept⟩
      exact ih.of_same hhere hsame (hkept.trans hmade.symm)
  | elsewhere _ hhere hregistry hdescriptor ih => exact ih.of_same hhere hregistry hdescriptor

/-- The registry of a role of the marker dialect tells what is routed: it is its
    template with the imports and the elements of that in it, each in the order in
    which they were made. -/
theorem History.registry_tells_live (h : History root folder role live d) :
    d.tree.get? (spot d.here folder ++ registryNames) = some (.file (.text (outline role live).text)) :=
  h.registered.registry

end Marker

namespace Histories

open Marker

/-- The root of a project. -/
def root : Path := .ofText "proj".toList

/-- A project whose commands keep no intents. -/
def project : Project :=
  ⟨.ofRoot root, .marker, ⟨(Layout.ofRoot root).intentsFolder, false⟩, ⟨2026, 1, 1, 0, 0, 0, 0, true⟩⟩

/-- The folder of a role. -/
def folder : Path := root / "src" / "Roles" / "inst"

/-- Where the folder of the role is. -/
def place : Location := ["proj".toList, "src".toList, "Roles".toList, "inst".toList]

/-- A disk with an empty project. -/
def empty : Disk := .fresh ⟨[(["proj".toList], .folder)]⟩ []

/-- The disk when the role has been made. -/
def withRole : Disk := ((project.createRole (some "inst".toList) none).on empty).2

/-- The same disk, written out. -/
def ready : Disk := .fresh ⟨[(["proj".toList], .folder), (["proj".toList, "src".toList], .folder),
  (["proj".toList, "src".toList, "Roles".toList], .folder), (place, .folder),
  (place ++ ["modules".toList], .folder), (place ++ ["routes".toList], .folder),
  (place ++ registryNames, .file (.text (outline "inst".toList []).text)),
  (place ++ [".aviators-role.json".toList],
    .file (.text (⟨"inst".toList, .marker, project.now⟩ : Descriptor).document))]⟩ []

/-- The making of a module. -/
def addA : Marker.Command := .createModule "a".toList

/-- The disk when the module has been made. -/
def withModule : Disk := ((addA.run project "inst".toList).on ready).2

/-- What a job that succeeds ends with. -/
theorem on_of_isOk {α : Type} {j : Job α} {d : Disk} (h : (j.on d).1.isOk = true) :
    ∃ a, j.on d = (.ok a, (j.on d).2) := by
  rcases hrun : j.on d with ⟨r, d'⟩
  rw [hrun] at h
  cases r with
  | error f => exact absurd h (by simp [Except.isOk, Except.toBool])
  | ok a => exact ⟨a, rfl⟩

/-- The role is made, and its registry and its descriptor are written out as they were made. -/
theorem ready_as_made : ((project.createRole (some "inst".toList) none).on empty).1.isOk = true
    ∧ ready.here = withRole.here
    ∧ ∀ names ∈ [registryNames, [".aviators-role.json".toList]],
      ready.find (folder.below names) = withRole.find (folder.below names)
        ∧ ready.tree.get? (spot withRole.here folder ++ names)
          = withRole.tree.get? (spot withRole.here folder ++ names) := by
  decide +kernel

theorem role_made : ∃ a, (project.createRole (some "inst".toList) none).on empty = (.ok a, withRole) :=
  on_of_isOk ready_as_made.1

end Histories

open Histories in
theorem Marker.registry_tells_live_moduleA :
    Marker.History root folder "inst".toList [.module ⟨"inst".toList, "a".toList, "A".toList⟩] withModule
      ∧ withModule.tree.get? (spot withModule.here folder ++ registryNames)
        = some (.file (.text (Marker.outline "inst".toList
            [.module ⟨"inst".toList, "a".toList, "A".toList⟩]).text)) := by
  have hj : project.journal.Set root := Journal.set_intentsFolder (.ofRoot root) false
  have hfolder : project.layout.roleFolder "inst".toList = .ok folder := rfl
  have hmodule : ∃ a, (addA.run project "inst".toList).on ready = (.ok a, withModule) :=
    on_of_isOk (by decide +kernel)
  rcases role_made with ⟨a, ha⟩
  rcases hmodule with ⟨b, hb⟩
  rcases ready_as_made with ⟨-, hhere, hsame⟩
  have hready : Marker.History root folder "inst".toList [] ready :=
    .elsewhere (.created hj hfolder rfl ha) hhere (hsame _ (by simp)).2 (hsame _ (by simp)).2
  have hmade := Marker.History.counted hready hj hfolder (c := addA) ⟨by decide, trivial⟩ hb
    (Or.inl ⟨b, rfl⟩)
  have heffect : addA.effect "inst".toList [] = [.module ⟨"inst".toList, "a".toList, "A".toList⟩] := rfl
  rw [heffect] at hmade
  exact ⟨hmade, hmade.registry_tells_live⟩

end RouteScaffold
