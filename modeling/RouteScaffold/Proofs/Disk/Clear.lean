import RouteScaffold.Proofs.Disk.Paths
import RouteScaffold.Proofs.Disk.Spares

/-!
# Places off the Way

Making a folder makes the folders before it, wherever the path to it leads, and
what was absent may be there afterwards. A place is clear of a path if the path
does not lead through it or to it; then whatever is made along the path leaves
the place as it is.

A path that has been walked leads through folders only. So a place that holds no
folder is clear of it, whatever the path looks like, and is clear of every path
that goes on from there in another direction.

## Main definitions

* `Disk.Clear`: A place to which no part of a path leads.
* `Tree.Shuns`: A write that is not made at a place.
* `Tree.MakesNoFolder`: A write that makes no folder at a place.

## Theorems

* `clear_of_found`, `clear_below`: Which places are clear.
* `shuns_folders`, `shuns_newFile`: What is made along a path shuns a clear
  place.
-/

namespace RouteScaffold

namespace Tree

/-- A write that is not made at a location. -/
def Shuns (l : Location) (t : Tree) (w : Write) : Prop := t.Admits w ∧ w.place ≠ l

/-- A write that makes no folder at a location. -/
def MakesNoFolder (l : Location) (t : Tree) (w : Write) : Prop := t.Admits w ∧ w ≠ .put l .folder

variable {t : Tree} {w : Write} {l : Location} {ws : List Write}

theorem Shuns.keeps (h : t.Shuns l w) : (t.apply w).get? l = t.get? l :=
  get?_apply_of_ne h.1 (Ne.symm h.2)

/-- A run that shuns a location leaves it as it is. -/
theorem Runs.shuns (h : t.Runs (Shuns l) ws) : (t.applyAll ws).get? l = t.get? l := by
  induction ws generalizing t with
  | nil => rfl
  | cons w ws ih => exact (ih h.2).trans h.1.keeps

theorem Shuns.makesNoFolder (h : t.Shuns l w) : t.MakesNoFolder l w :=
  ⟨h.1, fun heq => h.2 (by rw [heq]; rfl)⟩

theorem MakesNoFolder.keeps (h : t.MakesNoFolder l w) (hl : t.get? l ≠ some .folder) :
    (t.apply w).get? l ≠ some .folder := by
  cases w with
  -- A put is seen at its own place only, and puts no folder there.
  | put loc e =>
      rw [get?_apply_put h.1]
      split
      · next heq =>
          rintro hfolder
          rw [Option.some.injEq] at hfolder
          exact h.2 (by rw [heq, hfolder])
      · exact hl
  | erase loc =>
      rw [get?_apply_erase]
      split
      · simp
      · exact hl

/-- Where no folder is made, there is none unless there was one. -/
theorem Runs.no_folder (h : t.Runs (MakesNoFolder l) ws) (hl : t.get? l ≠ some .folder) :
    (t.applyAll ws).get? l ≠ some .folder :=
  h.preserves (I := fun t => t.get? l ≠ some .folder) hl fun _ _ ht hw => hw.keeps ht

end Tree

namespace Disk

open Location

/-- A place to which no part of a path leads. -/
def Clear (here : Location) (p : Path) (l : Location) : Prop :=
  ∀ names, names <+: p.names → spot here ⟨p.anchor, names⟩ ≠ l

variable {here l : Location} {p : Path}

theorem Clear.spot_ne (h : Clear here p l) : spot here p ≠ l := h p.names (List.prefix_refl _)

theorem Clear.parent (h : Clear here p l) : Clear here p.parent l := fun names hnames =>
  h names (hnames.trans (List.dropLast_prefix _))

/-- A path that leads to a folder leads through folders only, so every place
    that holds none is clear of it. -/
theorem clear_of_found {d : Disk} {loc : Location} (h : d.find p = .ok loc)
    (hfolder : d.tree.get? loc = some .folder) (hl : d.tree.get? l ≠ some .folder) :
    Clear d.here p l := by
  rintro names ⟨rest, hrest⟩ rfl
  refine hl ?_
  cases rest with
  | nil =>
      rw [List.append_nil] at hrest
      have hp : (⟨p.anchor, names⟩ : Path) = p := by rw [hrest]
      rw [hp, ← spot_of_find h]
      exact hfolder
  | cons n rest =>
      refine way_of_find h _ ?_
      rw [way, ← hrest]
      exact place_mem_stations _ names n rest

/-- A path that goes on in another direction leaves a place clear. -/
theorem clear_below {names : List Text} (hdots : ['.', '.'] ∉ names) (h : Clear here p l)
    (hlast : ∀ ys, ys <+: names → ys ≠ [] → spot here p ++ ys ≠ l) :
    Clear here (p.below names) l := by
  intro xs hxs
  rcases List.prefix_or_prefix_of_prefix hxs (List.prefix_append p.names names) with hpre | ⟨ys, rfl⟩
  · exact h xs hpre
  · have hys : ys <+: names := (List.prefix_append_right_inj _).mp hxs
    by_cases hne : ys = []
    · rw [hne, List.append_nil]
      exact h.spot_ne
    · have hspot : spot here (p.below ys) = spot here p ++ ys :=
        spot_below here p fun hmem => hdots (hys.subset hmem)
      rw [show (⟨(p.below names).anchor, p.names ++ ys⟩ : Path) = p.below ys from rfl, hspot]
      exact hlast ys hys hne

end Disk

namespace Job

open Disk RouteScaffold.Tree

variable {here l : Location} {p : Path}

theorem shuns_vacant {d : Disk} {loc : Location} (h : d.vacant p = .ok loc) (hl : spot d.here p ≠ l) :
    d.tree.Shuns l (.put loc .folder) := by
  refine ⟨admits_vacant h, fun heq => hl ?_⟩
  rw [← spot_of_find (vacant_eq h).1]
  exact heq

theorem shuns_folders (h : Clear here p l) : Does here (Shuns l) (folders p) :=
  does_folders fun names hnames _ _ hhere hv => shuns_vacant hv (hhere ▸ h names hnames)

theorem shuns_writeText {t : Text} (h : spot here p ≠ l) : Does here (Shuns l) (writeText p t) :=
  does_writeText fun _ _ hhere hw => by
    refine ⟨admits_writable hw, fun heq => h ?_⟩
    rw [← hhere, ← spot_of_find (writable_eq hw).1]
    exact heq

theorem shuns_replace {t : Text} (h : spot here p ≠ l) : Does here (Shuns l) (replace p t) :=
  does_replace fun _ _ hhere hr => by
    refine ⟨admits_replaceable hr, fun heq => h ?_⟩
    rw [← hhere, ← spot_of_find (replaceable_eq hr).1]
    exact heq

theorem shuns_newFile {t : Text} (h : Clear here p l) : Does here (Shuns l) (newFile p t) :=
  does_isThere.bind fun _ => .refuse fun _ =>
    Does.bind (shuns_folders h.parent) fun _ => shuns_writeText h.spot_ne

theorem makesNoFolder_folders (h : Clear here p l) : Does here (MakesNoFolder l) (folders p) :=
  (shuns_folders h).mono fun _ _ hw => hw.makesNoFolder

theorem makesNoFolder_writeText (t : Text) : Does here (MakesNoFolder l) (writeText p t) :=
  does_writeText fun _ _ _ hw => ⟨admits_writable hw, by simp⟩

theorem makesNoFolder_replace (t : Text) : Does here (MakesNoFolder l) (replace p t) :=
  does_replace fun _ _ _ hr => ⟨admits_replaceable hr, by simp⟩

theorem makesNoFolder_newFile {t : Text} (h : Clear here p.parent l) :
    Does here (MakesNoFolder l) (newFile p t) :=
  does_isThere.bind fun _ => .refuse fun _ =>
    Does.bind (makesNoFolder_folders h) fun _ => makesNoFolder_writeText t

end Job

end RouteScaffold
