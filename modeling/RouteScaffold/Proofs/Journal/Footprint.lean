import RouteScaffold.Proofs.Disk.Stopping
import RouteScaffold.Proofs.Journal.Tracking

/-!
# Footprints

A footprint is a set of places. A job stays in its footprint if every file that it
puts, and everything that it erases, is in one of them. Folders do not count: they
are made wherever a path leads, but where a folder is made there was no file
before, and there is none afterwards.

A command stays in its footprint if its steps do, and if the documents of intents
lie in it. It does not matter whether the command comes to its end.

## Main definitions

* `Tree.Confined`: A write within a footprint.
* `Step.Confined`: A step that works within a footprint.

## Theorems

* `Runs.outside`: Outside the footprint, files are what they were.
* `does_track`: The writes of a command, from those of its steps.
* `confined_track`: A command stays within a footprint if its steps do.
-/

namespace RouteScaffold

open Job Disk RouteScaffold.Tree Naming

namespace Tree

variable {t : Tree} {w : Write} {l : Location} {ws : List Write} {S T : Location → Prop}

/-- A write that makes a folder, or that lies in a footprint. -/
def Confined (S : Location → Prop) (t : Tree) (w : Write) : Prop :=
  t.Admits w ∧ (S w.place ∨ ∃ loc, w = .put loc .folder)

theorem Confined.mono (h : t.Confined S w) (himp : ∀ l, S l → T l) : t.Confined T w :=
  ⟨h.1, h.2.imp_left (himp _)⟩

theorem Confined.sameFile (h : t.Confined S w) (hl : ¬S l) : t.SameFile (t.apply w) l := by
  rcases h with ⟨hadmits, hplace | ⟨loc, rfl⟩⟩
  · exact sameFile_of_eq (get?_apply_of_ne hadmits fun heq => hl (heq ▸ hplace))
  · intro c
    rw [get?_apply_put hadmits]
    split
    · -- The folder is new: there was no file, and there is none.
      next heq =>
        subst heq
        simp [show t.get? l = none from hadmits]
    · rfl

/-- Outside the footprint, files are what they were. -/
theorem Runs.outside (h : t.Runs (Confined S) ws) (hl : ¬S l) : t.SameFile (t.applyAll ws) l :=
  h.preserves (I := fun t' => t.SameFile t' l) (SameFile.refl t l)
    fun _ _ ht hw => ht.trans (hw.sameFile hl)

end Tree

namespace Job

variable {here : Location} {p : Path} {S : Location → Prop}

/-- Outside the footprint of a job, files are what they were. -/
theorem Does.outside {α : Type} {j : Job α} {d d' : Disk} {r : Except Fault α} {l : Location}
    (h : Does d.here (Confined S) j) (hrun : j.on d = (r, d')) (hl : ¬S l) :
    d'.here = d.here ∧ d.tree.SameFile d'.tree l := by
  rcases h d rfl with ⟨ws, hws, hruns⟩
  rw [hrun] at hws
  dsimp only at hws
  rw [hws, after_here, after_tree]
  exact ⟨rfl, hruns.outside hl⟩

theorem confined_folders (p : Path) : Does here (Confined S) (folders p) :=
  does_folders fun _ _ _ _ _ hv => ⟨admits_vacant hv, Or.inr ⟨_, rfl⟩⟩

/-- A footprint need not hold places to which no path can lead. -/
theorem mem_of_find {d : Disk} {loc : Location} (h : unwalkable? p = none → S (spot d.here p))
    (hfind : d.find p = .ok loc) : S loc := by
  rw [spot_of_find hfind]
  exact h (find_eq hfind).1

theorem confined_writeText {t : Text} (h : unwalkable? p = none → S (spot here p)) :
    Does here (Confined S) (writeText p t) :=
  does_writeText fun _ _ hhere hw =>
    ⟨admits_writable hw, Or.inl (mem_of_find (hhere ▸ h) (writable_eq hw).1)⟩

theorem confined_replace {t : Text} (h : unwalkable? p = none → S (spot here p)) :
    Does here (Confined S) (replace p t) :=
  does_replace fun _ _ hhere hr =>
    ⟨admits_replaceable hr, Or.inl (mem_of_find (hhere ▸ h) (replaceable_eq hr).1)⟩

theorem confined_newFile {t : Text} (h : unwalkable? p = none → S (spot here p)) :
    Does here (Confined S) (newFile p t) :=
  does_isThere.bind fun _ => .refuse fun _ =>
    Does.bind (confined_folders p.parent) fun _ => confined_writeText h

theorem confined_edit {e : Edit} (h : unwalkable? p = none → S (spot here p)) :
    Does here (Confined S) (edit p e) :=
  does_edit (confined_folders _) (confined_writeText h) fun _ => confined_replace h

theorem confined_unlinkIfPresent (h : S (spot here p)) : Does here (Confined S) (unlinkIfPresent p) :=
  does_unlinkIfPresent fun _ => ⟨trivial, Or.inl h⟩

theorem confined_remove {missingOk : Bool} (h : ∀ l, spot here p <+: l → S l) :
    Does here (Confined S) (remove p missingOk) :=
  does_remove fun _ l hpre => ⟨trivial, Or.inl (h l hpre)⟩

end Job

/-- A step that works within a footprint. -/
def Step.Confined (here : Location) (S : Location → Prop) : Step → Prop
  | .newFile p _ | .file p _ | .edit p _ | .editIfPresent p _ => unwalkable? p = none → S (spot here p)
  | .remove p _ => ∀ l, spot here p <+: l → S l
  | .record _ | .snapshot _ | .snapshotIfPresent _ | .folder _ => True

theorem Step.Confined.mono {here : Location} {S T : Location → Prop} {s : Step} (h : s.Confined here S)
    (himp : ∀ l, S l → T l) : s.Confined here T := by
  cases s with
  | newFile p t => exact fun hwalk => himp _ (h hwalk)
  | file p t => exact fun hwalk => himp _ (h hwalk)
  | edit p e => exact fun hwalk => himp _ (h hwalk)
  | editIfPresent p e => exact fun hwalk => himp _ (h hwalk)
  | remove p missingOk => exact fun l hl => himp l (h l hl)
  | record p => trivial
  | snapshot p => trivial
  | snapshotIfPresent p => trivial
  | folder p => trivial

theorem confined_making {here : Location} {top : Path} {things : List (List Text × Made)}
    {S : Location → Prop} (hstraight : ∀ x ∈ things, ['.', '.'] ∉ x.1)
    (h : ∀ x ∈ things, x.2 ≠ .folder → unwalkable? (top.below x.1) = none → S (spot here top ++ x.1)) :
    ∀ s ∈ making top things, s.Confined here S := by
  intro s hs
  rcases mem_making.mp hs with ⟨⟨names, made⟩, hx, rfl⟩
  have hplace := h _ hx
  rw [← spot_below here top (hstraight _ hx)] at hplace
  cases made with
  | folder => trivial
  | newFile t => exact hplace (by simp)
  | file t => exact hplace (by simp)

namespace Journal

variable {j : Journal} {here : Location} {i : Intent} {s : Step} {R : Tree → Write → Prop}
  {S : Location → Prop} {now : Timestamp} {verb : Text} {args : List Text} {mode : Mode}
  {plan : List Step}

theorem confined_save (h : S (spot here (j.file i.id))) : Does here (Confined S) (j.save i) :=
  does_save (confined_folders _) fun _ => confined_replace fun _ => h

theorem confined_take (h : s.Confined here S) (hdoc : S (spot here (j.file i.id))) :
    Does here (Confined S) (j.take i s) := by
  refine does_take (fun i' hid => confined_save (by rw [hid]; exact hdoc)) (fun p _ => confined_folders p)
    (fun p t hs => ?_) (fun p t hs => ?_) (fun p e hs => ?_) fun p b hs => ?_
  · subst hs
    exact confined_newFile h
  · subst hs
    exact confined_writeText h
  · rcases hs with rfl | rfl <;> exact confined_edit h
  · subst hs
    exact confined_remove h

/-- The writes of a command are those of its steps, and those that save and drop
    its intent. -/
theorem does_track (hsave : ∀ i : Intent, i.id = Intent.identifier verb args mode now →
      Does here R (j.save i))
    (hdrop : ∀ i : Intent, i.id = Intent.identifier verb args mode now → Does here R (j.drop i))
    (htake : ∀ s ∈ plan, ∀ i : Intent, i.id = Intent.identifier verb args mode now →
      Does here R (j.take i s)) : Does here R (j.track now verb args mode plan) := by
  have hbegin : Does here R (j.begin now verb args mode) := (hsave _ rfl).bind fun _ => does_pure _
  refine hbegin.bind_of fun d i d₁ _ hi hhere => ?_
  have hid : i.id = Intent.identifier verb args mode now := by
    rcases on_bind_eq_ok.mp hi with ⟨u, d₂, -, hpure⟩
    rw [on_pure, Prod.mk.injEq, Except.ok.injEq] at hpure
    rw [← hpure.1]
    rfl
  -- What the steps come to is no job of its own: they may fail and leave an intent.
  rcases does_followed (i := i) (fun s hs k hk => htake s hs k (hk.trans hid)) d₁ hhere with
    ⟨ws, hws, hruns, hid'⟩
  have hsettle : Does here R (j.settle (j.followed i plan d₁).1 (j.followed i plan d₁).2.1) := by
    cases (j.followed i plan d₁).2.1 with
    | ok changed => exact (hdrop _ (hid'.trans hid)).bind fun _ => does_pure _
    | error f => exact (hsave (Intent.withError _ f.message) (hid'.trans hid)).bind fun _ => does_fail _
  rcases hsettle (j.followed i plan d₁).2.2 (by rw [hws, after_here, hhere]) with ⟨vs, hvs, hruns'⟩
  rw [hws, after_tree] at hruns'
  refine ⟨ws ++ vs, ?_, Runs.append.mpr ⟨hruns, hruns'⟩⟩
  rw [after_append, ← hws, ← hvs]
  rfl

/-- A command stays within a footprint if its steps do, and if no document of an
    intent lies outside. -/
theorem confined_track (h : ∀ s ∈ plan, s.Confined here S)
    (hdoc : ∀ id : Text, (∀ c ∈ id, isTame c = true) → S (spot here (j.file id))) :
    Does here (Confined S) (j.track now verb args mode plan) := by
  have hid := hdoc _ (Intent.identifier_char verb args mode now)
  exact does_track (fun i hi => confined_save (by rw [hi]; exact hid))
    (fun i hi => confined_unlinkIfPresent (by rw [hi]; exact hid))
    fun s hs i hi => confined_take (h s hs) (by rw [hi]; exact hid)

end Journal

end RouteScaffold
