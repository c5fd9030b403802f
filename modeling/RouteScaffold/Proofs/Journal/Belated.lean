import RouteScaffold.Proofs.Journal.Footprint
import RouteScaffold.Proofs.Journal.Recording

/-!
# Undoing on Another Disk

An intent may be recovered long after its command was stopped, when other commands have
changed the disk. Undoing does not ask what has happened since. It keeps to a reach that
is read off the intent: the document of the intent, the files of its snapshots, and what
lies at a listed path or below it. What other commands have done outside this reach is
left alone, wherever the undoing is stopped.

Inside the reach their work is lost. A file of a snapshot holds again what it held when
the command was begun, whatever was written to it since.

## Main definitions

* `Journal.Reaches`: The reach of an undoing.

## Theorems

* `confined_rollback`: Undoing keeps to its reach.
* `rollback_ok`: What undoing consists of, when it comes to its end.
* `restored_of_rollback`: A file of a snapshot holds what it held.
-/

namespace RouteScaffold

open Job Disk RouteScaffold.Tree Location

namespace Job

variable {here : Location} {p : Path} {S : Location → Prop}

/-- A path that cannot be walked leads to nothing that could be removed. -/
theorem confined_remove_walkable {missingOk : Bool} (h : unwalkable? p = none → ∀ l, spot here p <+: l → S l) :
    Does here (Confined S) (remove p missingOk) := by
  by_cases hwalk : unwalkable? p = none
  · exact confined_remove (h hwalk)
  · refine does_of_unchanged fun d => ?_
    rw [remove, on_bind, on_isThere, look]
    cases hfind : d.find p with
    | ok loc => exact absurd (find_eq hfind).1 hwalk
    | error e => cases e <;> cases missingOk <;> rfl

end Job

namespace Journal

variable {j : Journal} {d e e' : Disk} {i : Intent} {here l : Location} {S : Location → Prop} {s : Snapshot} {c : Text}

/-- What undoing may change: the document of the intent, the files of its snapshots, and
    what lies at a listed path or below it. -/
def Reaches (j : Journal) (here : Location) (i : Intent) (l : Location) : Prop :=
  l = spot here (j.file i.id) ∨ (∃ s ∈ i.snapshots, s.place here = l)
    ∨ ∃ c ∈ i.created, unwalkable? (.ofText c) = none ∧ spot here (.ofText c) <+: l

theorem confined_restore (h : S (s.place here)) : Does here (Confined S) (restore s) := by
  rw [restore]
  cases s.content with
  | none =>
      exact does_isThere.bind fun _ => .ite
        (fun _ => Does.bind (does_unlink fun _ => ⟨trivial, Or.inl h⟩) fun _ => does_pure _) fun _ => does_pure _
  | some t =>
      exact does_isFolder.bind fun _ => .ite
        (fun _ => Does.bind (confined_replace fun _ => h) fun _ => does_pure _) fun _ => does_pure _

theorem confined_removeCreated (h : unwalkable? (.ofText c) = none → ∀ l, spot here (.ofText c) <+: l → S l) :
    Does here (Confined S) (removeCreated c) := confined_remove_walkable h

/-- Undoing keeps to its reach. -/
theorem confined_rollback : Does here (Confined (j.Reaches here i)) (j.rollback i) := by
  refine Does.bind (Does.filterM fun s hs => confined_restore (Or.inr (Or.inl ⟨s, hs, rfl⟩))) fun _ => ?_
  refine Does.bind (Does.filterM fun c hc => confined_removeCreated fun hwalk l hl =>
    Or.inr (Or.inr ⟨c, List.mem_reverse.mp hc, hwalk, hl⟩)) fun _ => ?_
  exact (confined_unlinkIfPresent (Or.inl rfl)).bind fun _ => does_pure _

/-- What undoing consists of, when it comes to its end and there is one snapshot, and one
    path that is listed, at most. -/
theorem rollback_ok {ls : List Text} (h : (j.rollback i).on e = (.ok ls, e')) : ∃ ss cs e₁ e₂,
    (i.snapshots.filterM restore).on e = (.ok ss, e₁)
      ∧ (i.created.reverse.filterM removeCreated).on e₁ = (.ok cs, e₂) ∧ (j.drop i).on e₂ = (.ok (), e') := by
  rcases on_bind_eq_ok.mp h with ⟨ss, e₁, hrestore, hrest⟩
  rcases on_bind_eq_ok.mp hrest with ⟨cs, e₂, hremove, hrest⟩
  rcases on_bind_eq_ok.mp hrest with ⟨u, e₃, hdrop, hpure⟩
  rw [(looks_pure _).ok hpure]
  exact ⟨ss, cs, e₁, e₂, hrestore, hremove, hdrop⟩

/-- A file that is put back holds what it held, whatever it holds by now. -/
theorem restore_ok (hs : s.Original d) (hsound : e.Sound) (hfind : e.find (.ofText s.file) = .ok (s.place d.here))
    (hplain : e.tree.get? (s.place d.here) ≠ some .folder) {b : Bool} (h : (restore s).on e = (.ok b, e')) :
    e'.tree.get? (s.place d.here) = d.tree.get? (s.place d.here) := by
  have hheld := hs.2
  cases hcontent : s.content with
  | none =>
      rw [hcontent] at hheld
      rw [hheld]
      rw [on_restore_none hcontent hfind hplain] at h
      -- The file was not there when the command was begun, so it is erased if there is one now.
      split at h
      · next hnone =>
          rw [Prod.mk.injEq] at h
          rw [← h.2, hnone]
          rfl
      · next hthere =>
          rw [Prod.mk.injEq] at h
          have hroot : s.place d.here ≠ [] := fun hnil => hplain (by rw [hnil, get?_root])
          rw [← h.2, made, get?_apply_erase, if_pos ⟨rfl, hroot⟩]
          rfl
  | some t =>
      rw [hcontent] at hheld
      rw [hheld]
      -- Otherwise its text is written again, unless the system refuses that.
      rcases on_restore_some hcontent hfind hplain hsound.closed hsound.here hsound.named with ⟨hadmits, hon⟩ | ⟨f, -, hon⟩
      · rw [hon, Prod.mk.injEq] at h
        rw [← h.2, made, get?_apply_put hadmits, if_pos rfl]
        rfl
      · rw [hon] at h
        exact absurd h (by simp)

/-- The file of a snapshot holds again what it held when the command was begun. -/
theorem restored_of_rollback (hs : s.Original d) (honly : i.snapshots = [s]) (hhere : e.here = d.here) (hsound : e.Sound)
    (hfind : e.find (.ofText s.file) = .ok (s.place d.here)) (hplain : e.tree.get? (s.place d.here) ≠ some .folder)
    (hdoc : s.place d.here ≠ spot d.here (j.file i.id)) (hout : ¬ ∃ c ∈ i.created, d.Covers c (s.place d.here))
    {ls : List Text} (h : (j.rollback i).on e = (.ok ls, e')) : d.tree.SameFile e'.tree (s.place d.here) := by
  rcases rollback_ok h with ⟨ss, cs, e₁, e₂, hrestore, hremove, hdrop⟩
  rw [honly] at hrestore
  rcases filterM_singleton_ok hrestore with ⟨b, hb⟩
  have hheld := restore_ok hs hsound hfind hplain hb
  have hrestoring : Does e.here (Confined (· = s.place d.here)) (restore s) := confined_restore (by rw [hhere])
  -- Neither what is removed nor the document is the file, so it stays as it was put back.
  have hhere₁ : e₁.here = d.here := (hrestoring.outside hb hdoc.symm).1.trans hhere
  have hremoving : Does e₁.here (Confined fun l => ∃ c ∈ i.created, d.Covers c l) (i.created.reverse.filterM removeCreated) :=
    Does.filterM fun c hc => confined_removeCreated fun hwalk l hl =>
      ⟨c, List.mem_reverse.mp hc, hwalk, by rwa [← hhere₁]⟩
  rcases hremoving.outside hremove hout with ⟨hhere₂, hsame⟩
  have hdropping : Does e₂.here (Confined (· = spot d.here (j.file i.id))) (j.drop i) :=
    confined_unlinkIfPresent (by rw [hhere₂, hhere₁])
  -- First the file, then the removals, then the document.
  exact (sameFile_of_eq hheld).trans (hsame.trans (hdropping.outside hdrop hdoc).2)

end Journal

end RouteScaffold
