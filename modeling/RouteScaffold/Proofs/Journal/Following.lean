import RouteScaffold.Journal.Plan
import RouteScaffold.Proofs.Disk.Spares

/-!
# Plans Followed

What a plan does to a disk is what its steps do, one after the other. Following
one plan and then another is following both, so a plan can be looked at part by
part: the part before an edit, the edits, and the part behind them.

A command that keeps a journal has saved its intent before its first step. As
long as the steps only make things the document is still there at the end, and
dropping it cannot fail; after a removal it is there, or is gone as well.

## Main definitions

* `Journal.followed`: What following a plan ends with, and on which disk.

## Theorems

* `followed_append`: Plans part by part.
* `does_followed`: The writes of a plan are those of its steps.
* `on_track`: A command is its intent saved, its plan, and its end.
* `on_drop_of_opened`: When dropping an intent succeeds.
-/

namespace RouteScaffold

open Job Disk RouteScaffold.Tree

/-- What an intent becomes by learning: it is still the intent of the same command. -/
structure Intent.Continues (i' i : Intent) : Prop where
  id : i'.id = i.id
  verb : i'.verb = i.verb
  args : i'.args = i.args
  mode : i'.mode = i.mode

theorem Intent.Continues.refl (i : Intent) : i.Continues i := ⟨rfl, rfl, rfl, rfl⟩

theorem Intent.Continues.trans {i k l : Intent} (h : i.Continues k) (h' : k.Continues l) : i.Continues l :=
  ⟨h.id.trans h'.id, h.verb.trans h'.verb, h.args.trans h'.args, h.mode.trans h'.mode⟩

namespace Journal

variable {here : Location} {j : Journal} {i : Intent} {R : Tree → Write → Prop}

/-- What following a plan ends with, and on which disk. -/
def followed (j : Journal) (i : Intent) (plan : List Step) (d : Disk) :
    Intent × Except Fault Bool × Disk :=
  let r : (Intent × Except Fault Bool) × Disk := (j.follow i plan) d
  (r.1.1, r.1.2, r.2)

theorem followed_nil (j : Journal) (i : Intent) (d : Disk) : j.followed i [] d = (i, .ok false, d) := rfl

theorem followed_cons (j : Journal) (i : Intent) (s : Step) (plan : List Step) (d : Disk) :
    j.followed i (s :: plan) d = match (j.take i s).on d with
      | (.error f, d') => (i, .error f, d')
      | (.ok (i', changed), d') =>
        let r := j.followed i' plan d'
        (r.1, r.2.1.map (changed || ·), r.2.2) := by
  rcases h : (j.take i s).on d with ⟨r, d'⟩
  have hrun : ExceptT.run (j.take i s) d = (r, d') := h
  rw [followed, follow]
  simp only [bind, StateT.bind, hrun]
  rcases r with f | ⟨i', changed⟩ <;> rfl

/-- Following one plan and then another is following both. -/
theorem followed_append (j : Journal) (i : Intent) (xs ys : List Step) (d : Disk) :
    j.followed i (xs ++ ys) d = match j.followed i xs d with
      | (i', .error f, d') => (i', .error f, d')
      | (i', .ok changed, d') =>
        let r := j.followed i' ys d'
        (r.1, r.2.1.map (changed || ·), r.2.2) := by
  induction xs generalizing i d with
  | nil =>
      rw [List.nil_append, followed_nil]
      dsimp only
      rcases j.followed i ys d with ⟨i', r, d'⟩
      cases r <;> rfl
  -- A first part that has failed leaves the second one out.
  | cons s xs ih =>
      rw [List.cons_append, followed_cons, followed_cons]
      rcases (j.take i s).on d with ⟨r, d'⟩
      rcases r with f | ⟨i', changed⟩
      · rfl
      · dsimp only
        rw [ih]
        rcases j.followed i' xs d' with ⟨i'', r, d''⟩
        cases r with
        | error f => rfl
        | ok c =>
            dsimp only [Except.map]
            cases (j.followed i'' ys d'').2.1 <;> simp [Bool.or_assoc]

/-- A fault of two plans is one of the first, or of the second behind the first. -/
theorem followed_append_error {xs ys : List Step}
    {d d' : Disk} {i' : Intent} {f : Fault}
    (h : j.followed i (xs ++ ys) d = (i', .error f, d')) : j.followed i xs d = (i', .error f, d')
      ∨ ∃ k changed d₁, j.followed i xs d = (k, .ok changed, d₁)
        ∧ j.followed k ys d₁ = (i', .error f, d') := by
  rw [followed_append] at h
  rcases hxs : j.followed i xs d with ⟨k, r, d₁⟩
  rw [hxs] at h
  cases r with
  | error g => exact Or.inl h
  -- The first part has succeeded, so the fault is one of the second.
  | ok changed =>
      right
      refine ⟨k, changed, d₁, rfl, ?_⟩
      dsimp only at h
      rcases hys : j.followed k ys d₁ with ⟨k', r', d₂⟩
      rw [hys, Prod.mk.injEq, Prod.mk.injEq] at h
      cases r' with
      | ok c => exact absurd h.2.1 (by simp [Except.map])
      | error g =>
          rw [Prod.mk.injEq, Prod.mk.injEq]
          exact ⟨h.1, h.2.1, h.2.2⟩

/-- Two plans that have come to their end, one after the other. -/
theorem followed_append_ok {xs ys : List Step} {d d' : Disk} {i' : Intent} {c : Bool}
    (h : j.followed i (xs ++ ys) d = (i', .ok c, d')) : ∃ k a b d₁,
      j.followed i xs d = (k, .ok a, d₁) ∧ j.followed k ys d₁ = (i', .ok b, d') := by
  rw [followed_append] at h
  rcases hxs : j.followed i xs d with ⟨k, r, d₁⟩
  rw [hxs] at h
  cases r with
  | error f => exact absurd (Prod.mk.inj (Prod.mk.inj h).2).1 (by simp)
  | ok a =>
      dsimp only at h
      rcases hys : j.followed k ys d₁ with ⟨k', r', d₂⟩
      rw [hys, Prod.mk.injEq, Prod.mk.injEq] at h
      rcases h with ⟨rfl, hc, rfl⟩
      cases r' with
      | error f => exact absurd hc (by simp [Except.map])
      | ok b => exact ⟨k, a, b, d₁, rfl, hys⟩

/-- A step that has been taken, and a plan behind it that has come to its end. -/
theorem followed_cons_ok {s : Step} {plan : List Step} {d d' : Disk} {i' : Intent} {c : Bool}
    (h : j.followed i (s :: plan) d = (i', .ok c, d')) : ∃ k a b d₁,
      (j.take i s).on d = (.ok (k, a), d₁) ∧ j.followed k plan d₁ = (i', .ok b, d') := by
  rw [followed_cons] at h
  rcases htake : (j.take i s).on d with ⟨r, d₁⟩
  rw [htake] at h
  cases r with
  | error f => exact absurd (Prod.mk.inj (Prod.mk.inj h).2).1 (by simp)
  | ok x =>
      -- The changes that are told of are put together, and do not matter here.
      dsimp only at h
      rcases hrest : j.followed x.1 plan d₁ with ⟨k', r', d₂⟩
      rw [hrest, Prod.mk.injEq, Prod.mk.injEq] at h
      rcases h with ⟨rfl, hc, rfl⟩
      cases r' with
      | error f => exact absurd hc (by simp [Except.map])
      | ok b => exact ⟨x.1, x.2, b, d₁, rfl, hrest⟩

/-- A fault of a plan is one of its first step, or of the others behind it. -/
theorem followed_cons_error {s : Step} {plan : List Step}
    {d d' : Disk} {i' : Intent} {f : Fault}
    (h : j.followed i (s :: plan) d = (i', .error f, d')) : (j.take i s).on d = (.error f, d')
      ∨ ∃ k changed d₁, (j.take i s).on d = (.ok (k, changed), d₁)
        ∧ j.followed k plan d₁ = (i', .error f, d') := by
  rw [followed_cons] at h
  rcases htake : (j.take i s).on d with ⟨r, d₁⟩
  rw [htake] at h
  cases r with
  | error g =>
      rw [Prod.mk.injEq, Prod.mk.injEq] at h
      left
      rw [h.2.2, Except.error.inj h.2.1]
  | ok x =>
      -- The step has been taken, so the fault is one of the rest.
      right
      refine ⟨x.1, x.2, d₁, rfl, ?_⟩
      dsimp only at h
      rcases hrest : j.followed x.1 plan d₁ with ⟨k', r', d₂⟩
      rw [hrest, Prod.mk.injEq, Prod.mk.injEq] at h
      cases r' with
      | ok c => exact absurd h.2.1 (by simp [Except.map])
      | error g =>
          rw [Prod.mk.injEq, Prod.mk.injEq]
          exact ⟨h.1, h.2.1, h.2.2⟩

theorem on_track (j : Journal) (now : Timestamp) (verb : Text) (args : List Text) (mode : Mode)
    (plan : List Step) (d : Disk) : (j.track now verb args mode plan).on d
      = match (j.save (Intent.start verb args mode now)).on d with
        | (.error f, d') => (.error f, d')
        | (.ok _, d') =>
          let r := j.followed (Intent.start verb args mode now) plan d'
          (j.settle r.1 r.2.1).on r.2.2 := by
  rw [track, on_bind, begin, on_bind]
  rcases (j.save (Intent.start verb args mode now)).on d with ⟨r, d'⟩
  cases r <;> rfl

/-- A command that has come to its end has saved its intent, followed its plan
    and dropped its intent. -/
theorem track_ok {now : Timestamp} {verb : Text} {args : List Text} {mode : Mode} {plan : List Step}
    {d d' : Disk} {b : Bool} (h : (j.track now verb args mode plan).on d = (.ok b, d')) : ∃ k d₁ d₂,
      (j.save (Intent.start verb args mode now)).on d = (.ok (), d₁)
        ∧ j.followed (Intent.start verb args mode now) plan d₁ = (k, .ok b, d₂)
        ∧ (j.drop k).on d₂ = (.ok (), d') := by
  rw [on_track] at h
  rcases hsave : (j.save (Intent.start verb args mode now)).on d with ⟨r, d₁⟩
  rw [hsave] at h
  cases r with
  | error f => exact absurd h (by simp)
  | ok u =>
      rcases hfollow : j.followed (Intent.start verb args mode now) plan d₁ with ⟨k, q, d₂⟩
      dsimp only at h
      rw [hfollow] at h
      cases q with
      | error f =>
          -- Behind a fault the intent is saved, and the fault is raised again.
          rcases on_bind_eq_ok.mp h with ⟨u, d₃, -, hfail⟩
          exact absurd hfail (by simp)
      | ok changed =>
          rcases on_bind_eq_ok.mp h with ⟨u, d₃, hdrop, hpure⟩
          rw [on_pure, Prod.mk.injEq, Except.ok.injEq] at hpure
          rcases hpure with ⟨rfl, rfl⟩
          exact ⟨k, d₁, d₂, rfl, hfollow, hdrop⟩

/-! ### The writes of a plan -/

theorem does_save (hfolders : Does here R (folders j.folder))
    (hfile : ∀ t, Does here R (replace (j.file i.id) t)) : Does here R (j.save i) :=
  .ite (fun _ => hfolders.bind fun _ => hfile _) fun _ => does_pure _

theorem makes_save (j : Journal) (i : Intent) : Does here Makes (j.save i) :=
  does_save (makes_folders _) fun _ => makes_replace _ _

theorem spares_save {l : Location} (h : spot here (j.file i.id) ≠ l) : Does here (Spares l) (j.save i) :=
  does_save (spares_folders _) fun _ => spares_replace h

theorem does_snapshotOf (p : Path) : Does here R (snapshotOf p) :=
  does_isThere.bind fun _ => .ite (fun _ => does_readRaw.bind fun _ => does_pure _) fun _ => does_pure _

theorem looks_snapshotOf (p : Path) : Looks (snapshotOf p) :=
  (looks_isThere p).bind fun _ => .ite ((looks_readRaw p).bind fun _ => looks_pure _) (looks_pure _)

theorem does_withSnapshotOf (i : Intent) (p : Path) : Does here R (withSnapshotOf i p) :=
  .ite (fun _ => does_pure _) fun _ => (does_snapshotOf p).bind fun _ => does_pure _

theorem continues_of_withSnapshotOf {p : Path} {i' : Intent} {d d' : Disk}
    (h : (withSnapshotOf i p).on d = (.ok i', d')) : i'.Continues i := by
  rw [withSnapshotOf] at h
  split at h
  · rw [on_pure, Prod.mk.injEq, Except.ok.injEq] at h
    rw [← h.1]
    exact .refl i
  · rw [on_bind] at h
    split at h
    · rw [on_pure, Prod.mk.injEq, Except.ok.injEq] at h
      rw [← h.1]
      exact ⟨rfl, rfl, rfl, rfl⟩
    · exact absurd h (by simp)

/-- Learning keeps the identifier of an intent. -/
theorem id_of_withSnapshotOf {p : Path} {i' : Intent} {d d' : Disk}
    (h : (withSnapshotOf i p).on d = (.ok i', d')) : i'.id = i.id := (continues_of_withSnapshotOf h).id

/-- Taking a step keeps to the command of an intent. -/
theorem continues_of_take {s : Step} {i' : Intent} {changed : Bool} {d d' : Disk}
    (h : (j.take i s).on d = (.ok (i', changed), d')) : i'.Continues i := by
  -- Only what an intent learns changes it, and none of that is its command.
  have hlearn : ∀ (k : Intent) (d : Disk), (j.learn k).on d = (.ok (i', changed), d') → i' = k := by
    intro k d h
    rw [learn, on_bind] at h
    split at h
    · rw [on_pure, Prod.mk.injEq, Except.ok.injEq, Prod.mk.injEq] at h
      exact h.1.1.symm
    · exact absurd h (by simp)
  have hsnapshot : ∀ (p : Path) (d : Disk), (j.learnSnapshot i p).on d = (.ok (i', changed), d') →
      i'.Continues i := by
    intro p d h
    rw [learnSnapshot] at h
    split at h
    · rw [on_pure, Prod.mk.injEq, Except.ok.injEq, Prod.mk.injEq] at h
      rw [← h.1.1]
      exact .refl i
    · rw [on_bind] at h
      split at h
      · next k d'' hk =>
          rw [hlearn k d'' h]
          exact continues_of_withSnapshotOf hk
      · exact absurd h (by simp)
  -- A step that only acts on the disk hands its intent on as it is.
  have hdone : ∀ {α : Type} (x : Job α) (c : α → Bool),
      (x >>= fun a => pure (i, c a) : Job (Intent × Bool)).on d = (.ok (i', changed), d') → i' = i := by
    intro α x c h
    rw [on_bind] at h
    split at h
    · rw [on_pure, Prod.mk.injEq, Except.ok.injEq, Prod.mk.injEq] at h
      exact h.1.1.symm
    · exact absurd h (by simp)
  cases s with
  | record p =>
      rw [hlearn _ _ h]
      exact ⟨rfl, rfl, rfl, rfl⟩
  | snapshot p => exact hsnapshot p d h
  | snapshotIfPresent p =>
      rw [take, on_bind] at h
      split at h
      · split at h
        · exact hsnapshot p _ h
        · rw [on_pure, Prod.mk.injEq, Except.ok.injEq, Prod.mk.injEq] at h
          rw [← h.1.1]
          exact .refl i
      · exact absurd h (by simp)
  | folder p =>
      rw [hdone (folders p) (fun _ => false) h]
      exact .refl i
  | newFile p t =>
      rw [hdone (newFile p t) (fun _ => false) h]
      exact .refl i
  | file p t =>
      rw [hdone (writeText p t) (fun _ => false) h]
      exact .refl i
  | edit p e =>
      rw [hdone (Job.edit p e) id h]
      exact .refl i
  | editIfPresent p e =>
      rw [take, on_bind] at h
      split at h
      · next there d'' _ =>
          split at h
          · rw [on_bind] at h
            split at h
            · rw [on_pure, Prod.mk.injEq, Except.ok.injEq, Prod.mk.injEq] at h
              rw [← h.1.1]
              exact .refl i
            · exact absurd h (by simp)
          · rw [on_pure, Prod.mk.injEq, Except.ok.injEq, Prod.mk.injEq] at h
            rw [← h.1.1]
            exact .refl i
      · exact absurd h (by simp)
  | remove p missingOk =>
      rw [hdone (Job.remove p missingOk) (fun _ => false) h]
      exact .refl i

/-- Taking a step keeps the identifier of an intent. -/
theorem id_of_take {s : Step} {i' : Intent} {changed : Bool} {d d' : Disk}
    (h : (j.take i s).on d = (.ok (i', changed), d')) : i'.id = i.id := (continues_of_take h).id

/-- The writes of a plan are those of its steps, and it ends with the intent of the
    same command. -/
theorem does_followed_continuing {plan : List Step}
    (h : ∀ s ∈ plan, ∀ i' : Intent, i'.Continues i → Does here R (j.take i' s)) (d : Disk)
    (hhere : d.here = here) : ∃ ws, (j.followed i plan d).2.2 = d.after ws ∧ d.tree.Runs R ws
      ∧ (j.followed i plan d).1.Continues i := by
  induction plan generalizing i d with
  | nil => exact ⟨[], rfl, trivial, .refl i⟩
  | cons s plan ih =>
      rcases h s (by simp) i (.refl i) d hhere with ⟨ws, hd, hws⟩
      rw [followed_cons]
      rcases htake : (j.take i s).on d with ⟨r, d'⟩
      rw [htake] at hd
      dsimp only at hd
      subst hd
      -- A step that has failed is the last one; behind any other the plan goes on.
      rcases r with f | ⟨i', changed⟩
      · exact ⟨ws, rfl, hws, .refl i⟩
      · have hcontinues := continues_of_take htake
        -- What the plan is followed with from here on continues the same intent.
        have hrest : ∀ s ∈ plan, ∀ k : Intent, k.Continues i' → Does here R (j.take k s) :=
          fun s hs k hk => h s (by simp [hs]) k (hk.trans hcontinues)
        rcases ih hrest (d.after ws) (by rw [after_here, hhere]) with ⟨vs, hd', hvs, hk⟩
        rw [after_tree] at hvs
        refine ⟨ws ++ vs, ?_, Runs.append.mpr ⟨hws, hvs⟩, hk.trans hcontinues⟩
        rw [after_append]
        exact hd'

theorem does_followed {plan : List Step}
    (h : ∀ s ∈ plan, ∀ i' : Intent, i'.id = i.id → Does here R (j.take i' s)) (d : Disk)
    (hhere : d.here = here) : ∃ ws, (j.followed i plan d).2.2 = d.after ws ∧ d.tree.Runs R ws
      ∧ (j.followed i plan d).1.id = i.id := by
  rcases does_followed_continuing (fun s hs k hk => h s hs k hk.id) d hhere with ⟨ws, hd, hws, hk⟩
  exact ⟨ws, hd, hws, hk.id⟩

end Journal

namespace Step

/-- Whether a step only makes things. -/
def makes : Step → Bool
  | .remove .. => false
  | _ => true

/-- Whether a step leaves the file at a location alone. -/
def Spares (here l : Location) : Step → Prop
  | .newFile p _ | .file p _ | .edit p _ | .editIfPresent p _ => spot here p ≠ l
  | .remove p _ => ¬ spot here p <+: l
  | .record _ | .snapshot _ | .snapshotIfPresent _ | .folder _ => True

end Step

namespace Journal

variable {here l : Location} {j : Journal} {i : Intent} {R : Tree → Write → Prop}

theorem does_learnSnapshot_continuing {p : Path}
    (h : ∀ i' : Intent, i'.Continues i → Does here R (j.save i')) : Does here R (j.learnSnapshot i p) := by
  refine .ite (fun _ => does_pure _) fun _ => ?_
  refine (does_withSnapshotOf i p).bind_of fun d i' d' _ hon hhere' => ?_
  exact ((h i' (continues_of_withSnapshotOf hon)).bind fun _ => does_pure _) d' hhere'

theorem does_learnSnapshot {p : Path} (h : ∀ i' : Intent, i'.id = i.id → Does here R (j.save i')) :
    Does here R (j.learnSnapshot i p) := does_learnSnapshot_continuing fun i' hi' => h i' hi'.id

/-- The writes of a step. -/
theorem does_take_continuing {s : Step} (hsave : ∀ i' : Intent, i'.Continues i → Does here R (j.save i'))
    (hfolder : ∀ p, s = .folder p → Does here R (folders p))
    (hnewFile : ∀ p t, s = .newFile p t → Does here R (newFile p t))
    (hfile : ∀ p t, s = .file p t → Does here R (writeText p t))
    (hedit : ∀ p e, s = .edit p e ∨ s = .editIfPresent p e → Does here R (Job.edit p e))
    (hremove : ∀ p b, s = .remove p b → Does here R (Job.remove p b)) :
    Does here R (j.take i s) := by
  -- One case for each step: it saves the intent, or does one thing to the disk.
  cases s with
  | record p => exact (hsave (i.withCreated p.text) ⟨rfl, rfl, rfl, rfl⟩).bind fun _ => does_pure _
  | snapshot p => exact does_learnSnapshot_continuing hsave
  | snapshotIfPresent p =>
      exact does_isThere.bind fun _ => .ite (fun _ => does_learnSnapshot_continuing hsave) fun _ => does_pure _
  | folder p => exact (hfolder p rfl).bind fun _ => does_pure _
  | newFile p t => exact (hnewFile p t rfl).bind fun _ => does_pure _
  | file p t => exact (hfile p t rfl).bind fun _ => does_pure _
  | edit p e => exact (hedit p e (Or.inl rfl)).bind fun _ => does_pure _
  | editIfPresent p e =>
      exact does_isThere.bind fun _ => .ite
        (fun _ => Does.bind (hedit p e (Or.inr rfl)) fun _ => does_pure _) fun _ => does_pure _
  | remove p b => exact (hremove p b rfl).bind fun _ => does_pure _

theorem does_take {s : Step} (hsave : ∀ i' : Intent, i'.id = i.id → Does here R (j.save i'))
    (hfolder : ∀ p, s = .folder p → Does here R (folders p))
    (hnewFile : ∀ p t, s = .newFile p t → Does here R (newFile p t))
    (hfile : ∀ p t, s = .file p t → Does here R (writeText p t))
    (hedit : ∀ p e, s = .edit p e ∨ s = .editIfPresent p e → Does here R (Job.edit p e))
    (hremove : ∀ p b, s = .remove p b → Does here R (Job.remove p b)) :
    Does here R (j.take i s) :=
  does_take_continuing (fun i' hi' => hsave i' hi'.id) hfolder hnewFile hfile hedit hremove

theorem makes_take {s : Step} (h : s.makes = true) : Does here Makes (j.take i s) := by
  refine does_take (fun i' _ => makes_save j i') (fun p _ => makes_folders p)
    (fun p t _ => makes_newFile p t) (fun p t _ => makes_writeText p t)
    (fun p e _ => makes_edit p e) fun p b hs => ?_
  rw [hs] at h
  exact absurd h (by simp [Step.makes])

theorem spares_take {s : Step} (h : s.Spares here l) (hdoc : spot here (j.file i.id) ≠ l) :
    Does here (Spares l) (j.take i s) := by
  refine does_take (fun i' hid => spares_save (by rw [hid]; exact hdoc)) (fun p _ => spares_folders p)
    (fun p t hs => ?_) (fun p t hs => ?_) (fun p e hs => ?_) fun p b hs => ?_
  · subst hs
    exact spares_newFile h
  · subst hs
    exact spares_writeText h
  · rcases hs with rfl | rfl <;> exact spares_edit h
  · subst hs
    exact spares_remove h

/-- A plan that only makes things. -/
theorem makes_followed {plan : List Step} (h : ∀ s ∈ plan, s.makes = true) (i : Intent) (d : Disk) :
    ∃ ws, (j.followed i plan d).2.2 = d.after ws ∧ d.tree.Runs Makes ws
      ∧ (j.followed i plan d).1.id = i.id :=
  does_followed (fun s hs _ _ => makes_take (h s hs)) d rfl

/-- A plan that spares a location. -/
theorem spares_followed {plan : List Step} {d : Disk} (h : ∀ s ∈ plan, s.Spares d.here l)
    (hdoc : spot d.here (j.file i.id) ≠ l) : ∃ ws, (j.followed i plan d).2.2 = d.after ws
      ∧ d.tree.Runs (Spares l) ws ∧ (j.followed i plan d).1.id = i.id :=
  does_followed (fun s hs i' hid => spares_take (h s hs) (by rw [hid]; exact hdoc)) d rfl

/-! ### The end of an intent -/

theorem on_drop_of_opened {d : Disk} {loc : Location} {c : Content}
    (h : d.opened (j.file i.id) = .ok (loc, c)) : (j.drop i).on d = (.ok (), d.made (.erase loc)) := by
  rw [drop, on_unlinkIfPresent, h]

/-- What an intent was saved to can be opened. -/
theorem opened_of_save {d d' : Disk} (hkeeps : j.keeps = true) (h : (j.save i).on d = (.ok (), d')) :
    ∃ loc, d'.opened (j.file i.id) = .ok (loc, .text i.document) := by
  rw [save, hkeeps, if_pos rfl, on_bind] at h
  split at h
  · next d'' _ =>
      rw [on_replace] at h
      split at h
      · next loc hloc =>
          rw [Prod.mk.injEq] at h
          -- The document takes the place of whatever was there, and is then found there.
          have hadmits : d''.tree.Admits (.put loc (.file (.text i.document))) :=
            (replaceable_eq hloc).2.1
          refine ⟨loc, @opened_of_find _ _ loc _ ?_ ?_⟩
          · rw [← h.2]
            exact @find_after _ _ _ [.put loc (.file (.text i.document))] (replaceable_eq hloc).1
              (.singleton ⟨hadmits, _, _, rfl⟩)
          · rw [← h.2]
            change (d''.tree.apply (.put loc (.file (.text i.document)))).get? loc = _
            rw [get?_apply_put hadmits, if_pos rfl]
      · exact absurd h (by simp)
  · exact absurd h (by simp)

end Journal

end RouteScaffold
