import RouteScaffold.Proofs.Journal.Footprint
import RouteScaffold.Proofs.Journal.Tracking

/-!
# Folders That Stay

A path leads somewhere as long as the folders on its way are there. Most writes of
a command make something, and the document of an intent is a file when it is
unlinked; so the only folders that a command can take away are those in what a step
of its plan removes. A path whose way keeps clear of that leads where it did, also
when the command has failed.

## Main definitions

* `Tree.Retains`: A write that takes away none of some folders.
* `Step.Retains`: A step that removes none of them.

## Theorems

* `find_retained`: A path leads where it did when the folders on its way are among
  those that stay.
* `retains_track`: A command takes away none of the folders that no step removes.
* `track_reaches`: A path at which a command has written a file leads to it in the
  end.
-/

namespace RouteScaffold

open Disk RouteScaffold.Tree Job

namespace Tree

/-- A write that takes away none of some folders. -/
def Retains (S : Location → Prop) (t : Tree) (w : Write) : Prop :=
  t.Admits w ∧ ∀ l, w = .erase l → S l → t.get? l ≠ some .folder

variable {t : Tree} {w : Write} {l : Location} {ws : List Write} {S : Location → Prop}

theorem Makes.retains (h : t.Makes w) : t.Retains S w := by
  rcases h with ⟨hadmits, loc, e, rfl⟩
  exact ⟨hadmits, nofun⟩

theorem Retains.keeps (h : t.Retains S w) (hl : S l) (hfolder : t.get? l = some .folder) :
    (t.apply w).get? l = some .folder := by
  rcases h with ⟨hadmits, herase⟩
  cases w with
  | put loc e => exact hadmits.keeps_folder hfolder
  | erase loc =>
      rw [get?_apply_erase, if_neg, hfolder]
      rintro ⟨rfl, -⟩
      exact herase l rfl hl hfolder

/-- A folder that no write takes away stays a folder. -/
theorem Runs.retains (h : t.Runs (Retains S) ws) (hl : S l) (hfolder : t.get? l = some .folder) :
    (t.applyAll ws).get? l = some .folder :=
  h.preserves (I := fun t => t.get? l = some .folder) hfolder fun _ _ ht hw => hw.keeps hl ht

end Tree

/-- A path leads where it did when the folders on its way are among those that
    stay. -/
theorem Disk.find_retained {d : Disk} {p : Path} {loc : Location} {ws : List Write}
    {S : Location → Prop} (h : d.find p = .ok loc) (hway : ∀ s ∈ way d.here p, S s)
    (hws : d.tree.Runs (Retains S) ws) : (d.after ws).find p = .ok loc :=
  find_of_folders h (after_here d ws) fun s hs => by
    rw [after_tree]
    exact hws.retains (hway s hs) (way_of_find h s hs)

/-! ### Jobs -/

namespace Job

variable {here : Location} {p : Path} {S : Location → Prop}

/-- What is unlinked is a file. -/
theorem retains_unlinkIfPresent : Does here (Retains S) (unlinkIfPresent p) := by
  intro d _
  rw [on_unlinkIfPresent]
  cases ho : d.opened p with
  | ok o =>
      rcases o with ⟨loc, c⟩
      refine ⟨[.erase loc], rfl, .singleton ⟨trivial, fun l heq _ => ?_⟩⟩
      rw [← Write.erase.inj heq, (opened_eq ho).2]
      simp
  | error e => cases e <;> exact ⟨[], rfl, trivial⟩

theorem retains_remove {missingOk : Bool} (h : ∀ l, S l → ¬ spot here p <+: l) :
    Does here (Retains S) (remove p missingOk) :=
  does_remove fun _ _ hpre => ⟨trivial, fun l' heq hl' => absurd (Write.erase.inj heq ▸ hpre) (h l' hl')⟩

end Job

/-- A step that removes none of some folders. -/
def Step.Retains (here : Location) (S : Location → Prop) : Step → Prop
  | .remove p _ => ∀ l, S l → ¬ spot here p <+: l
  | _ => True

theorem Step.retains_of_makes {here : Location} {S : Location → Prop} {s : Step} (h : s.makes = true) :
    s.Retains here S := by
  cases s with
  | remove p b => exact absurd h (by simp [makes])
  | _ => trivial

/-! ### Commands -/

namespace Journal

variable {j : Journal} {here : Location} {S : Location → Prop} {d d' : Disk} {now : Timestamp}
  {verb : Text} {args : List Text} {mode : Mode} {plan : List Step}

theorem retains_take {i : Intent} {s : Step} (h : s.Retains here S) :
    Does here (Retains S) (j.take i s) := by
  have hmakes : ∀ {α : Type} {x : Job α}, Does here Makes x → Does here (Retains S) x :=
    fun hx => hx.mono fun _ _ hw => hw.retains
  refine does_take (fun i' _ => hmakes (makes_save j i')) (fun p _ => hmakes (makes_folders p))
    (fun p t _ => hmakes (makes_newFile p t)) (fun p t _ => hmakes (makes_writeText p t))
    (fun p e _ => hmakes (makes_edit p e)) fun p b hs => ?_
  subst hs
  exact retains_remove h

/-- A command takes away none of the folders that no step removes, whether it
    succeeds or not. -/
theorem retains_track (h : ∀ s ∈ plan, s.Retains here S) :
    Does here (Retains S) (j.track now verb args mode plan) :=
  does_track (fun i _ => (makes_save j i).mono fun _ _ hw => hw.retains)
    (fun _ _ => retains_unlinkIfPresent) fun s hs _ _ => retains_take (h s hs)

theorem writeText_reaches {p : Path} {t : Text} (h : (writeText p t).on d = (.ok (), d')) :
    d'.find p = .ok (spot d'.here p) := by
  rcases on_bind_eq_ok.mp h with ⟨loc, d₁, hask, hwrite⟩
  rw [on_ask] at hask
  split at hask
  · next a hwritable =>
      rw [Prod.mk.injEq, Except.ok.injEq] at hask
      rcases hask with ⟨rfl, rfl⟩
      rw [on_write, Prod.mk.injEq] at hwrite
      have hfind : (d.after [.put a (.file (.text t))]).find p = .ok a :=
        find_after (writable_eq hwritable).1 (.singleton ⟨admits_writable hwritable, _, _, rfl⟩)
      rw [show d' = d.after [.put a (.file (.text t))] from hwrite.2.symm, ← spot_of_find hfind]
      exact hfind
  · exact absurd hask (by simp)

theorem take_reaches {i i' : Intent} {s : Step} {p : Path} {t : Text} {changed : Bool} (hs : s.Writes p t)
    (h : (j.take i s).on d = (.ok (i', changed), d')) : d'.find p = .ok (spot d'.here p) := by
  rcases hs with rfl | rfl
  -- A new file is a file that is written once it has been found missing.
  · rcases on_bind_eq_ok.mp h with ⟨u, d₁, hnew, hpure⟩
    rw [on_pure, Prod.mk.injEq] at hpure
    rcases hpure with ⟨-, rfl⟩
    rcases on_bind_eq_ok.mp hnew with ⟨there, d₂, hthere, hrest⟩
    rw [on_refuse] at hrest
    split at hrest
    · exact absurd hrest (by simp)
    · rcases on_bind_eq_ok.mp hrest with ⟨u, d₃, -, hwrite⟩
      exact writeText_reaches hwrite
  · rcases on_bind_eq_ok.mp h with ⟨u, d₁, hwrite, hpure⟩
    rw [on_pure, Prod.mk.injEq] at hpure
    rcases hpure with ⟨-, rfl⟩
    exact writeText_reaches hwrite

/-- A path at which a command that only makes things has written a file leads to
    it in the end. -/
theorem track_reaches {s : Step} {p : Path} {t : Text} (hmem : s ∈ plan) (hs : s.Writes p t)
    (hmakes : ∀ s ∈ plan, s.makes = true) {b : Bool}
    (h : (j.track now verb args mode plan).on d = (.ok b, d')) : d'.find p = .ok (spot d'.here p) := by
  rcases List.append_of_mem hmem with ⟨before, behind, rfl⟩
  rcases track_ok h with ⟨k, d₁, d₂, -, hfollow, hdrop⟩
  rcases followed_append_ok hfollow with ⟨k₁, _, _, d₃, -, hrest⟩
  rcases followed_cons_ok hrest with ⟨k₂, _, _, d₄, htake, hbehind⟩
  have hfound := take_reaches hs htake
  have hrestMakes : ∀ s' ∈ behind, s'.makes = true := fun s' hs' => hmakes s' (by simp [hs'])
  rcases makes_followed hrestMakes k₂ d₄ with ⟨ws, hd₂, hws, -⟩
  rw [hbehind] at hd₂
  dsimp only at hd₂
  -- Everything behind the step makes, so what it wrote is still found there; and only the document
  -- is dropped.
  have hlast := find_after hfound hws
  rw [← hd₂] at hlast
  have hdrops : Does d₂.here (Retains fun _ => True) (j.drop k) := retains_unlinkIfPresent
  rcases hdrops d₂ rfl with ⟨vs, hd', hvs⟩
  rw [hdrop] at hd'
  dsimp only at hd'
  have hend := find_retained hlast (fun _ _ => trivial) hvs
  rw [← hd'] at hend
  rw [← spot_of_find hend]
  exact hend

end Journal

end RouteScaffold
