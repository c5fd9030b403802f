import RouteScaffold.Proofs.Disk.Jobs
import RouteScaffold.Edit.Basic

/-!
# Making, and Sparing a File

Two properties that writes have in most jobs. A job that only makes things
erases nothing, so that every folder stays a folder and every file a file, and
what a path leads to is still found. A job that spares a location neither
erases nor overwrites a file there: it may be the one file that matters, while
everything else on the disk changes.

## Main definitions

* `Tree.Makes`: A write that erases nothing.
* `Tree.Spares`: A write that leaves the file at a location alone.

## Theorems

* `Runs.spares`: What a spared file holds, it goes on to hold.
* `Runs.find`, `Runs.opened`: What is found is found after things were made.
* `spares_folders`, `spares_replace`, `spares_remove` and others: When jobs
  spare a location.
-/

namespace RouteScaffold

open Location

namespace Tree

/-- A write that erases nothing. -/
def Makes (t : Tree) (w : Write) : Prop := t.Admits w ∧ ∃ loc e, w = .put loc e

/-- A write that leaves the file at a location alone. -/
def Spares (l : Location) (t : Tree) (w : Write) : Prop :=
  t.Admits w ∧ w ≠ .erase l ∧ ∀ c, w ≠ .put l (.file c)

variable {t : Tree} {w : Write} {l : Location} {ws : List Write}

theorem Makes.keeps_folder (h : t.Makes w) {loc : Location} (hloc : t.get? loc = some .folder) :
    (t.apply w).get? loc = some .folder := by
  rcases h with ⟨hadmits, loc', e, rfl⟩
  exact hadmits.keeps_folder hloc

theorem Makes.keeps_file (h : t.Makes w) {loc : Location} {c : Content}
    (hloc : t.get? loc = some (.file c)) : ∃ c', (t.apply w).get? loc = some (.file c') := by
  rcases h with ⟨hadmits, loc', e, rfl⟩
  exact hadmits.keeps_file hloc

theorem Spares.keeps (h : t.Spares l w) {c : Content} (hl : t.get? l = some (.file c)) :
    (t.apply w).get? l = some (.file c) := by
  rcases h with ⟨hadmits, herase, hput⟩
  by_cases hplace : l = w.place
  -- A file could only be lost by being erased or overwritten, and a put of a folder needs room.
  · cases w with
    | erase loc =>
        change l = loc at hplace
        exact absurd (congrArg Write.erase hplace.symm) herase
    | put loc e =>
        change l = loc at hplace
        subst hplace
        cases e with
        | folder => exact absurd (hadmits.symm.trans hl) (by simp)
        | file c' => exact absurd rfl (hput c')
  · rw [get?_apply_of_ne hadmits hplace]
    exact hl

/-- What a spared file holds, it goes on to hold. -/
theorem Runs.spares (h : t.Runs (Spares l) ws) {c : Content} (hl : t.get? l = some (.file c)) :
    (t.applyAll ws).get? l = some (.file c) :=
  preserves (I := fun t => t.get? l = some (.file c)) h hl fun _ _ ht hw => hw.keeps ht

theorem Runs.keeps_folder (h : t.Runs Makes ws) {loc : Location} (hloc : t.get? loc = some .folder) :
    (t.applyAll ws).get? loc = some .folder :=
  preserves (I := fun t => t.get? loc = some .folder) h hloc fun _ _ ht hw => hw.keeps_folder ht

theorem Runs.keeps_file (h : t.Runs Makes ws) {loc : Location} {c : Content}
    (hloc : t.get? loc = some (.file c)) : ∃ c', (t.applyAll ws).get? loc = some (.file c') :=
  preserves (I := fun t => ∃ c', t.get? loc = some (.file c')) h ⟨c, hloc⟩
    fun _ _ ⟨_, ht⟩ hw => hw.keeps_file ht

end Tree

namespace Disk

variable {d : Disk} {p : Path} {loc : Location} {ws : List Write}

theorem find_after (h : d.find p = .ok loc) (hws : d.tree.Runs Tree.Makes ws) :
    (d.after ws).find p = .ok loc :=
  find_of_folders h (after_here d ws) fun s hs => by
    rw [after_tree]
    exact hws.keeps_folder (way_of_find h s hs)

end Disk

/-! ### Jobs that only make things -/

namespace Job

open Disk RouteScaffold.Tree

variable {here l : Location} {p : Path}

theorem admits_vacant {d : Disk} {loc : Location} (h : d.vacant p = .ok loc) :
    d.tree.Admits (.put loc .folder) := (vacant_eq h).2

theorem admits_writable {d : Disk} {loc : Location} {t : Text} (h : d.writable p = .ok loc) :
    d.tree.Admits (.put loc (.file (.text t))) := (writable_eq h).2

theorem admits_replaceable {d : Disk} {loc : Location} {t : Text} (h : d.replaceable p = .ok loc) :
    d.tree.Admits (.put loc (.file (.text t))) := (replaceable_eq h).2.1

theorem makes_folders (p : Path) : Does here Makes (folders p) :=
  does_folders fun _ _ _ _ _ hv => ⟨admits_vacant hv, _, _, rfl⟩

theorem makes_writeText (p : Path) (t : Text) : Does here Makes (writeText p t) :=
  does_writeText fun _ _ _ hw => ⟨admits_writable hw, _, _, rfl⟩

theorem makes_replace (p : Path) (t : Text) : Does here Makes (replace p t) :=
  does_replace fun _ _ _ hr => ⟨admits_replaceable hr, _, _, rfl⟩

theorem makes_newFile (p : Path) (t : Text) : Does here Makes (newFile p t) :=
  does_newFile (fun _ _ _ _ _ hv => ⟨admits_vacant hv, _, _, rfl⟩)
    fun _ _ _ hw => ⟨admits_writable hw, _, _, rfl⟩

/-! ### Jobs that spare a file -/

theorem spares_folders (p : Path) : Does here (Spares l) (folders p) :=
  does_folders fun _ _ _ _ _ hv => ⟨admits_vacant hv, by simp, by simp⟩

theorem spares_writeText {t : Text} (h : spot here p ≠ l) : Does here (Spares l) (writeText p t) :=
  does_writeText fun d loc hhere hw => by
    refine ⟨admits_writable hw, by simp, fun c heq => ?_⟩
    rw [Write.put.injEq] at heq
    have hspot := spot_of_find (writable_eq hw).1
    rw [hhere] at hspot
    exact h (hspot.symm.trans heq.1)

theorem spares_replace {t : Text} (h : spot here p ≠ l) : Does here (Spares l) (replace p t) :=
  does_replace fun d loc hhere hr => by
    refine ⟨admits_replaceable hr, by simp, fun c heq => ?_⟩
    rw [Write.put.injEq] at heq
    have hspot := spot_of_find (replaceable_eq hr).1
    rw [hhere] at hspot
    exact h (hspot.symm.trans heq.1)

theorem spares_newFile {t : Text} (h : spot here p ≠ l) : Does here (Spares l) (newFile p t) :=
  does_isThere.bind fun _ => .refuse fun _ =>
    Does.bind (spares_folders p.parent) fun _ => spares_writeText h

theorem spares_erase {t : Tree} {l' : Location} (h : l' ≠ l) : t.Spares l (.erase l') :=
  ⟨trivial, fun heq => h (Write.erase.inj heq), by simp⟩

theorem spares_unlinkIfPresent (h : spot here p ≠ l) : Does here (Spares l) (unlinkIfPresent p) :=
  does_unlinkIfPresent fun _ => spares_erase h

theorem spares_remove {missingOk : Bool} (h : ¬ spot here p <+: l) :
    Does here (Spares l) (remove p missingOk) :=
  does_remove fun _ _ hpre => spares_erase fun heq => h (heq ▸ hpre)

/-! ### Edits -/

theorem does_supply {R : Tree → Write → Prop}
    (hfolders : Does here R (folders p.parent)) (hfile : Does here R (writeText p [])) :
    Does here R (supply p) :=
  does_isThere.bind fun _ => .ite (fun _ => does_pure _) fun _ => hfolders.bind fun _ => hfile

theorem does_editExisting {R : Tree → Write → Prop} {e : Edit}
    (h : ∀ t, Does here R (replace p t)) : Does here R (editExisting p e) := by
  refine does_readRaw.bind fun raw => (does_ofExcept _).bind fun r => ?_
  cases r with
  | none => exact does_pure _
  | some t => exact (h t).bind fun _ => does_pure _

theorem does_edit {R : Tree → Write → Prop} {e : Edit} (hfolders : Does here R (folders p.parent))
    (hfile : Does here R (writeText p [])) (hreplace : ∀ t, Does here R (replace p t)) :
    Does here R (edit p e) := by
  rw [edit]
  refine Does.ite (fun _ => ?_) fun _ => does_editExisting hreplace
  exact (does_supply hfolders hfile).bind fun _ => does_editExisting hreplace

theorem makes_edit (p : Path) (e : Edit) : Does here Makes (edit p e) :=
  does_edit (makes_folders _) (makes_writeText _ _) fun _ => makes_replace _ _

theorem spares_edit {e : Edit} (h : spot here p ≠ l) : Does here (Spares l) (edit p e) :=
  does_edit (spares_folders _) (spares_writeText h) fun _ => spares_replace h

end Job

end RouteScaffold
