import RouteScaffold.Proofs.Journal.Making

/-!
# The Faults of Plans

What the machine below refuses is beyond a command: the file system may refuse anything
at any time. Any other fault of a step is one of the sorts that a user is meant to see. A
new file may be there already, what is to be read or removed may be absent, and an edit may
not find its anchor. Only where there are files whose bytes are no text, reading one of them
is a fault that is neither; and no command writes such a file.

Where a fault comes from does not matter for this, so it is enough to look at the
parts that a step is made of, one by one, whatever they are applied to.

## Main definitions

* `Disk.Readable`: A disk whose files all hold texts.
* `Fault.Proper`: A fault that a user is meant to see, or a refusal.
* `Job.RaisesProper`: A job that has only such faults.

## Theorems

* `tolerates_proper`: Refusals are proper, and what is written is text.
* `raises_readRaw`, `raises_newFile`, `raises_remove`: The faults of jobs.
* `proper_apply`: The only fault of an edit is an anchor that is missing.
* `raises_take`, `raises_track`: The faults of steps, and of plans under an intent.
-/

namespace RouteScaffold

open Job Disk

/-- A disk whose files all hold texts. -/
def Disk.Readable (d : Disk) : Prop := ∀ l c, d.tree.get? l = some (.file c) → ∃ t, c = .text t

/-- A disk whose files all hold texts, unless it is granted that there are others. -/
def Disk.Spelled (garbled : Prop) (d : Disk) : Prop := garbled ∨ d.Readable

/-- A fault that a user is meant to see, or a refusal of the machine below. That bytes are
    no text is such a refusal only where it is granted that there are files of them. -/
inductive Fault.Proper (garbled : Prop) : Fault → Prop where
  | meant {f : Fault} (h : f.category ≠ none) : f.Proper garbled
  | refused (e : SystemError) (path : Text) : Fault.Proper garbled (.system e path)
  | unread (h : garbled) (u : Utf8.Fault) : Fault.Proper garbled (.undecodable u)

variable {garbled : Prop}

theorem Fault.Proper.of_category {f : Fault} {c : Category} (h : f.category = some c) : f.Proper garbled :=
  .meant (by rw [h]; simp)

open Fault (Proper)

/-! ### Files -/

/-- A write of anything but bytes leaves texts where there were texts. -/
theorem Disk.Readable.made {d : Disk} {w : Write} (h : d.Readable)
    (hw : ∀ loc bs, w ≠ .put loc (.file (.bytes bs))) : (d.made w).Readable := by
  intro l c hfile
  change (d.tree.apply w).get? l = _ at hfile
  have hroot : l ≠ [] := by
    rintro rfl
    exact absurd (hfile.symm.trans (Tree.get?_root _)) (by simp)
  rw [Tree.get?, if_neg hroot] at hfile
  have hbefore : Tree.entryAt l d.tree.entries = some (.file c) → ∃ t, c = .text t := fun hold =>
    h l c (by rw [Tree.get?, if_neg hroot, hold])
  -- What is written is a text, and what is erased was one.
  cases w with
  | put loc e =>
      rw [Tree.apply, Tree.put, Tree.entryAt_putAt] at hfile
      split at hfile
      · cases c with
        | text t => exact ⟨t, rfl⟩
        | bytes bs => exact absurd (congrArg (Write.put loc) (Option.some.inj hfile)) (hw loc bs)
      · exact hbefore hfile
  | erase loc =>
      rw [Tree.apply, Tree.erase, Tree.entryAt_filter] at hfile
      split at hfile
      · exact absurd hfile (by simp)
      · exact hbefore hfile

/-- A job that writes no bytes that are no text, and that has only proper faults. -/
abbrev Job.RaisesProper {α : Type} (garbled : Prop) (j : Job α) : Prop :=
  Raises (Disk.Spelled garbled) (Proper garbled) j

/-- Refusals are proper, and what is written is text. -/
theorem tolerates_proper : Tolerates (Disk.Spelled garbled) (Proper garbled) :=
  ⟨.refused, fun _ _ hw hd => hd.imp_right fun h => h.made hw⟩

namespace Job

/-- A file holds a text, or it is granted that it does not. -/
theorem proper_of_read {d : Disk} {l : Location} {c : Content} {u : Utf8.Fault} (hd : d.Spelled garbled)
    (hfile : d.tree.get? l = some (.file c)) (hread : c.read = .error u) : Proper garbled (.undecodable u) := by
  rcases hd with hgarbled | hreadable
  · exact .unread hgarbled u
  · rcases hreadable l c hfile with ⟨t, rfl⟩
    exact absurd hread (by simp [Content.read])

theorem raises_readText (p : Path) : RaisesProper garbled (readText p) :=
  raises_of_looks (looks_readText p) fun d hd f hf => by
    rw [on_readText] at hf
    -- The system may refuse to open the file; and a file that it opens may not be read as a text.
    cases hopened : d.opened p with
    | error e =>
        rw [hopened, Prod.mk.injEq, Except.error.injEq] at hf
        rw [← hf.1]
        exact .refused e _
    | ok o =>
        rw [hopened] at hf
        dsimp only at hf
        cases hread : o.2.read with
        | ok t =>
            rw [hread] at hf
            exact absurd hf (by simp)
        | error u =>
            rw [hread, Prod.mk.injEq, Except.error.injEq] at hf
            rw [← hf.1]
            exact proper_of_read hd (opened_eq hopened).2 hread

theorem raises_readRaw (p : Path) : RaisesProper garbled (readRaw p) :=
  raises_of_looks (looks_readRaw p) fun d hd f hf => by
    rw [on_readRaw] at hf
    split at hf
    · next c hlook =>
        cases hread : c.read with
        | ok t =>
            rw [hread] at hf
            exact absurd hf (by simp)
        | error u =>
            rw [hread, Prod.mk.injEq, Except.error.injEq] at hf
            rcases look_eq_some.mp hlook with ⟨l, -, hfile⟩
            rw [← hf.1]
            exact proper_of_read hd hfile hread
    -- The file may be a folder, or may not be found.
    · rw [Prod.mk.injEq, Except.error.injEq] at hf
      rw [← hf.1]
      exact .of_category rfl
    · rw [Prod.mk.injEq, Except.error.injEq] at hf
      rw [← hf.1]
      exact .refused _ _

theorem raises_readSource (p : Path) : RaisesProper garbled (readSource p) :=
  (raises_readRaw p).bind fun _ => raises_pure _

theorem raises_newFile (p : Path) (t : Text) : RaisesProper garbled (newFile p t) :=
  (raises_isThere tolerates_proper p).bind fun _ => .refuse (fun _ => .of_category rfl) fun _ =>
    (raises_folders tolerates_proper _).bind fun _ => raises_writeText tolerates_proper p t

theorem raises_remove (p : Path) (missingOk : Bool) : RaisesProper garbled (remove p missingOk) := by
  -- Removing goes on in the same way whether absence is tolerated or not.
  have hrest : RaisesProper garbled (do
      if ← isFolder p then removeTree p else unlink p
      return true : Job Bool) :=
    (raises_isFolder tolerates_proper p).bind fun _ => .ite
      (fun _ => (raises_removeTree tolerates_proper p).bind fun _ => raises_pure _)
      fun _ => (raises_unlink tolerates_proper p).bind fun _ => raises_pure _
  exact (raises_isThere tolerates_proper p).bind fun _ => .ite
    (fun _ => .ite (fun _ => raises_pure _) fun _ =>
      (raises_fail (.of_category rfl)).bind fun _ => hrest)
    fun _ => hrest

end Job

/-! ### Edits -/

/-- A fault of two things found without a disk is one of the first, or of the second. -/
theorem bind_fault {α β : Type} {r : Except Fault α} {k : α → Except Fault β} {f : Fault}
    (h : r >>= k = .error f) : r = .error f ∨ ∃ a, r = .ok a ∧ k a = .error f := by
  cases r with
  | error g => exact Or.inl (congrArg Except.error (Except.error.inj h))
  | ok a => exact Or.inr ⟨a, rfl, h⟩

namespace Edit

variable {e : Edit} {file content : Text} {f : Fault}

/-- An anchor that is looked for may be missing. -/
theorem proper_locate {a : Anchor} (h : a.locate file content = .error f) : f.Proper garbled := by
  unfold Anchor.locate at h
  split at h
  · exact absurd h (by simp)
  · rw [← Except.error.inj h]
    exact .of_category rfl

theorem proper_forest (h : Route.forest content file = .error f) : f.Proper garbled := by
  unfold Route.forest at h
  split at h
  · exact absurd h (by simp)
  · rw [← Except.error.inj h]
    exact .of_category rfl

/-- The only fault of an edit is an anchor that is missing. -/
theorem proper_apply (h : e.apply file content = .error f) : f.Proper garbled := by
  -- Only the edits that look for a place in the text can fail.
  cases e with
  | before a t =>
      simp only [apply, Insert.before] at h
      split at h
      · exact absurd h (by simp)
      · rcases bind_fault h with hlocate | ⟨o, -, hmade⟩
        · exact proper_locate hlocate
        · exact absurd hmade (by simp [pure, Except.pure])
  | behind a t =>
      simp only [apply, Insert.behind] at h
      split at h
      · exact absurd h (by simp)
      · rcases bind_fault h with hlocate | ⟨o, -, hmade⟩
        · exact proper_locate hlocate
        · exact absurd hmade (by simp [pure, Except.pure])
  | atHead t => exact absurd h (by simp [apply])
  | append line => exact absurd h (by simp [apply])
  | erase pattern => exact absurd h (by simp [apply])
  | cutRoute segment within =>
      rcases bind_fault h with hforest | ⟨roots, -, hcut⟩
      · exact proper_forest hforest
      · split at hcut <;> exact absurd hcut (by simp [pure, Except.pure])

theorem proper_written {raw : Text} (h : e.written file raw = .error f) : f.Proper garbled := by
  rcases bind_fault h with happly | ⟨t, -, hmade⟩
  · exact proper_apply happly
  · exact absurd hmade (by simp [pure, Except.pure])

end Edit

namespace Job

theorem raises_supply (p : Path) : RaisesProper garbled (supply p) :=
  (raises_isThere tolerates_proper p).bind fun b => by
    cases b
    · exact (raises_folders tolerates_proper _).bind fun _ => raises_writeText tolerates_proper p _
    · exact raises_pure _

theorem raises_editExisting (p : Path) (e : Edit) : RaisesProper garbled (editExisting p e) := by
  refine (raises_readRaw p).bind fun raw => (raises_ofExcept fun _ h => Edit.proper_written h).bind fun t => ?_
  cases t with
  | none => exact raises_pure _
  | some t => exact (raises_replace tolerates_proper p t).bind fun _ => raises_pure _

theorem raises_edit (p : Path) (e : Edit) : RaisesProper garbled (edit p e) := by
  unfold edit
  split
  · exact (raises_supply p).bind fun _ => raises_editExisting p e
  · exact raises_editExisting p e

end Job

/-! ### Plans -/

namespace Journal

variable {j : Journal} {i i' : Intent} {d d' : Disk} {f : Fault}

theorem raises_learnSnapshot (j : Journal) (i : Intent) (p : Path) : RaisesProper garbled (j.learnSnapshot i p) := by
  refine .ite (fun _ => raises_pure _) fun _ => Raises.bind ?_ fun k => raises_learn tolerates_proper j k
  -- What is left is to look at the file, unless the intent knows it.
  refine .ite (fun _ => raises_pure _) fun _ => Raises.bind ?_ fun _ => raises_pure _
  refine (raises_isThere tolerates_proper p).bind fun _ => .ite (fun _ => ?_) fun _ => raises_pure _
  exact (raises_readRaw p).bind fun _ => raises_pure _

/-- A step has only proper faults, one case for each sort of step. -/
theorem raises_take (j : Journal) (i : Intent) (s : Step) : RaisesProper garbled (j.take i s) := by
  cases s with
  | record p => exact raises_learn tolerates_proper j _
  | snapshot p => exact raises_learnSnapshot j i p
  | snapshotIfPresent p =>
      exact (raises_isThere tolerates_proper p).bind fun _ => .ite
        (fun _ => raises_learnSnapshot j i p) fun _ => raises_pure _
  | folder p => exact (raises_folders tolerates_proper p).bind fun _ => raises_pure _
  | newFile p t => exact (raises_newFile p t).bind fun _ => raises_pure _
  | file p t => exact (raises_writeText tolerates_proper p t).bind fun _ => raises_pure _
  | edit p e => exact (raises_edit p e).bind fun _ => raises_pure _
  | editIfPresent p e =>
      exact (raises_isThere tolerates_proper p).bind fun _ => .ite
        (fun _ => (raises_edit p e).bind fun _ => raises_pure _) fun _ => raises_pure _
  | remove p missingOk => exact (raises_remove p missingOk).bind fun _ => raises_pure _

/-- So has a whole plan. -/
theorem followed_proper {plan : List Step} {r : Except Fault Bool} (hd : d.Spelled garbled)
    (h : j.followed i plan d = (i', r, d')) : d'.Spelled garbled ∧ ∀ f, r = .error f → f.Proper garbled := by
  induction plan generalizing i d r with
  | nil =>
      rw [followed_nil, Prod.mk.injEq, Prod.mk.injEq] at h
      rcases h with ⟨-, rfl, rfl⟩
      exact ⟨hd, nofun⟩
  | cons s plan ih =>
      cases r with
      | ok changed =>
          rcases followed_cons_ok h with ⟨k, a, b, d₁, htake, hrest⟩
          exact ⟨(ih ((raises_take j i s).keeps hd htake) hrest).1, nofun⟩
      | error f =>
          rcases followed_cons_error h with htake | ⟨k, changed, d₁, htake, hrest⟩
          · refine ⟨(raises_take j i s).keeps hd htake, fun g hg => ?_⟩
            rw [← Except.error.inj hg]
            exact (raises_take j i s).fault hd htake
          · exact ih ((raises_take j i s).keeps hd htake) hrest

theorem raises_track (j : Journal) (now : Timestamp) (verb : Text) (args : List Text) (mode : Mode) (plan : List Step) :
    RaisesProper garbled (j.track now verb args mode plan) := fun _ _ _ hd hrun =>
  track_raises tolerates_proper hd (fun _ hd₁ _ _ _ _ hfollow => followed_proper hd₁ hfollow) hrun

end Journal

end RouteScaffold
