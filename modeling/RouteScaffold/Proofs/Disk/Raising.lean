import RouteScaffold.Proofs.Disk.Jobs

/-!
# The Faults of Jobs

What can go wrong in a job is read off its parts: a fault is one of the first part or
one of what follows it. So a property that all faults of the smallest jobs have is one
of all faults of the jobs made of them. Which faults there are may depend on what is on
the disk, and so the property comes with one of disks that every part keeps.

The smallest jobs are questions to the file system, and their faults are its refusals.
If all refusals have the property, and every write of a text keeps that of disks, it is
one of everything that makes and removes files and folders without looking at what they
hold.

## Main definitions

* `Job.Raises`: A job all of whose faults have a property.
* `Job.Tolerates`: Properties that refusals have, and that writes keep.

## Theorems

* `Raises.bind`: Faults of a job and of what follows it.
* `raises_folders`, `raises_replace`, `raises_unlinkIfPresent`, `raises_removeTree`:
  Jobs that are only refused by the file system.
-/

namespace RouteScaffold

open Disk

namespace Job

variable {α β : Type} {I : Disk → Prop} {P Q : Fault → Prop} {f : Fault} {d d' : Disk}

/-- A job that keeps a property of disks, and all of whose faults on such disks have a
    property. -/
def Raises (I : Disk → Prop) (P : Fault → Prop) (j : Job α) : Prop :=
  ∀ d r d', I d → j.on d = (r, d') → I d' ∧ ∀ f, r = .error f → P f

theorem Raises.fault {j : Job α} (h : Raises I P j) (hd : I d) (hf : j.on d = (.error f, d')) : P f :=
  (h d _ d' hd hf).2 f rfl

theorem Raises.keeps {j : Job α} (h : Raises I P j) (hd : I d) {r : Except Fault α} (hrun : j.on d = (r, d')) : I d' :=
  (h d r d' hd hrun).1

theorem Raises.mono {j : Job α} (h : Raises I P j) (himp : ∀ f, P f → Q f) : Raises I Q j :=
  fun d r d' hd hrun => (h d r d' hd hrun).imp_right fun hP f hf => himp f (hP f hf)

/-- What only looks need not be asked what it keeps. -/
theorem raises_of_looks {j : Job α} (hj : Looks j) (h : ∀ d, I d → ∀ f, j.on d = (.error f, d) → P f) : Raises I P j := by
  intro d r d' hd hrun
  have hd' : d' = d := (congrArg Prod.snd hrun).symm.trans (hj d)
  subst hd'
  exact ⟨hd, fun f hf => h d' hd f (hf ▸ hrun)⟩

theorem raises_pure (a : α) : Raises I P (pure a : Job α) :=
  raises_of_looks (looks_pure a) fun d _ f hf => absurd hf (by simp)

theorem raises_fail (h : P f) : Raises I P (fail f : Job α) :=
  raises_of_looks (looks_fail f) fun d _ g hg => by
    rw [on_fail, Prod.mk.injEq, Except.error.injEq] at hg
    rw [← hg.1]
    exact h

theorem raises_ofExcept {r : Except Fault α} (h : ∀ f, r = .error f → P f) : Raises I P (ofExcept r) :=
  raises_of_looks (looks_ofExcept r) fun d _ f hf => by
    rw [on_ofExcept, Prod.mk.injEq] at hf
    exact h f hf.1

/-- What is found in any case raises nothing. -/
theorem raises_of_isOk {r : Except Fault α} (h : ∃ a, r = .ok a) : Raises I P (ofExcept r) := by
  rcases h with ⟨a, rfl⟩
  exact raises_pure a

theorem Raises.bind {j : Job α} {k : α → Job β} (hj : Raises I P j) (hk : ∀ a, Raises I P (k a)) :
    Raises I P (j >>= k) := by
  intro d r d' hd hrun
  rcases hfirst : j.on d with ⟨f | a, d₁⟩
  · rw [on_bind_error hfirst, Prod.mk.injEq] at hrun
    rcases hrun with ⟨rfl, rfl⟩
    refine ⟨hj.keeps hd hfirst, fun g hg => ?_⟩
    rw [← Except.error.inj hg]
    exact hj.fault hd hfirst
  · rw [on_bind_ok hfirst] at hrun
    exact hk a d₁ r d' (hj.keeps hd hfirst) hrun

/-- What is found without a disk can be counted on behind it. -/
theorem Raises.ofExcept_bind {r : Except Fault α} {k : α → Job β} (hf : ∀ f, r = .error f → P f)
    (hk : ∀ a, r = .ok a → Raises I P (k a)) : Raises I P (ofExcept r >>= k) := by
  cases r with
  | error f => exact fun d r d' hd hrun => raises_fail (α := β) (hf f rfl) d r d' hd hrun
  | ok a => exact hk a rfl

/-- What the disk is asked for raises nothing. -/
theorem raises_get_bind {k : Disk → Job α} (h : ∀ d, Raises I P (k d)) : Raises I P (MonadState.get >>= k) :=
  fun d r d' hd hrun => h d d r d' hd (on_get_bind k d ▸ hrun)

section Checks

variable {c : Prop} [Decidable c] {k : Job α}

theorem Raises.refuse (hf : c → P f) (hk : ¬c → Raises I P k) : Raises I P (do
    if c then fail f
    k) := fun d r d' hd hrun => by
  rw [on_refuse] at hrun
  split at hrun
  · next hc => exact raises_fail (α := α) (hf hc) d r d' hd hrun
  · next hc => exact hk hc d r d' hd hrun

theorem Raises.require (hf : ¬c → P f) (hk : c → Raises I P k) : Raises I P (do
    unless c do fail f
    k) := fun d r d' hd hrun => by
  rw [on_require] at hrun
  split at hrun
  · next hc => exact hk hc d r d' hd hrun
  · next hc => exact raises_fail (α := α) (hf hc) d r d' hd hrun

theorem Raises.ite {k' : Job α} (hk : c → Raises I P k) (hk' : ¬c → Raises I P k') :
    Raises I P (if c then k else k') := by
  split
  · next hc => exact hk hc
  · next hc => exact hk' hc

end Checks

theorem raises_forM {xs : List α} {k : α → Job Unit} (h : ∀ x ∈ xs, Raises I P (k x)) : Raises I P (xs.forM k) := by
  induction xs with
  | nil => exact raises_pure ()
  | cons x xs ih =>
      exact (h x List.mem_cons_self).bind fun _ => ih fun y hy => h y (List.mem_cons_of_mem x hy)

/-! ### Refusals of the file system -/

/-- Properties of disks and of faults that the file system has its way with: all refusals
    have the one, and every write but that of bytes which spell no text keeps the other. -/
structure Tolerates (I : Disk → Prop) (P : Fault → Prop) : Prop where
  refusal : ∀ e t, P (.system e t)
  write : ∀ d w, (∀ loc bs, w ≠ .put loc (.file (.bytes bs))) → I d → I (d.made w)

section Refusals

variable (h : Tolerates I P)
include h

theorem raises_ask (question : Disk → Path → Except SystemError α) (p : Path) :
    Raises I P (ask question p) :=
  raises_of_looks (looks_ask question p) fun d _ f hf => by
    rw [on_ask] at hf
    split at hf
    · exact absurd hf (by simp)
    · rw [Prod.mk.injEq, Except.error.injEq] at hf
      rw [← hf.1]
      exact h.refusal _ _

theorem raises_write {w : Write} (hw : ∀ loc bs, w ≠ .put loc (.file (.bytes bs))) : Raises I P (write w) :=
  fun d r d' hd hrun => by
    rw [on_write, Prod.mk.injEq] at hrun
    rcases hrun with ⟨rfl, rfl⟩
    exact ⟨h.write d w hw hd, nofun⟩

theorem raises_isThere (p : Path) : Raises I P (isThere p) :=
  (raises_ask h _ _).bind fun _ => raises_pure _

theorem raises_isFolder (p : Path) : Raises I P (isFolder p) :=
  (raises_ask h _ _).bind fun _ => raises_pure _

theorem raises_writeText (p : Path) (t : Text) : Raises I P (writeText p t) :=
  (raises_ask h _ _).bind fun _ => raises_write h (by simp)

theorem raises_replace (p : Path) (t : Text) : Raises I P (replace p t) :=
  (raises_ask h _ _).bind fun _ => raises_write h (by simp)

theorem raises_unlink (p : Path) : Raises I P (unlink p) :=
  (raises_ask h _ _).bind fun _ => raises_write h (by simp)

theorem raises_folder (p : Path) : Raises I P (folder p) := by
  have hunless : ∀ e, Raises I P (do
      unless ← isFolder p do fail (.system e p.text) : Job Unit) := fun e =>
    (raises_isFolder h p).bind fun b => by
      cases b
      · exact raises_fail (h.refusal _ _)
      · exact raises_pure _
  -- A folder that is there already is as good, and so is looked for before the refusal counts.
  refine raises_get_bind fun d => ?_
  cases d.vacant p with
  | ok loc => exact raises_write h (by simp)
  | error e =>
      cases e <;> first | exact raises_fail (h.refusal _ _) | exact hunless _

theorem raises_foldersFrom (depth : Nat) (p : Path) : Raises I P (foldersFrom depth p) := by
  induction depth generalizing p with
  | zero => exact raises_folder h p
  | succ depth ih =>
      refine raises_get_bind fun d => ?_
      split
      · exact (ih p.parent).bind fun _ => raises_folder h p
      · exact raises_folder h p

theorem raises_folders (p : Path) : Raises I P (folders p) := raises_foldersFrom h _ p

theorem raises_unlinkIfPresent (p : Path) : Raises I P (unlinkIfPresent p) := by
  refine raises_get_bind fun d => ?_
  split
  · exact raises_pure _
  · exact raises_unlink h p

theorem raises_removeEmptied (p : Path) : Raises I P (removeEmptied p) :=
  .refuse (fun _ => h.refusal _ _) fun _ => (raises_ask h _ _).bind fun _ => raises_write h (by simp)

theorem raises_removeTree (p : Path) : Raises I P (removeTree p) :=
  (raises_ask h _ _).bind fun _ => raises_get_bind fun _ =>
    (raises_forM fun _ _ => raises_write h (by simp)).bind fun _ => raises_removeEmptied h p

end Refusals

end Job

end RouteScaffold
