import RouteScaffold.Proofs.Disk.Walk

/-!
# Runs of Writes

What a job does to a disk is a list of writes, each made to what the ones
before it have left. A run is such a list, every write of which has some
property where it is made. A job that is cut short has made the first few
writes of its run, and these are a run as well.

Most of what is shown of jobs is of this form: that every write is one that a
file system admits, and that it lies in a certain place. What single writes
preserve is then preserved by the job, and by every part of it.

## Main definitions

* `Tree.Admits`: What a file system lets be made.
* `Disk.made`, `Disk.after`: A disk after a write, and after some writes.
* `Tree.Runs`: A list of writes with a property.
* `Job.on`: What a job does on a disk.
* `Job.Does`: All writes of a job have a property.
* `Job.Looks`: A job that writes nothing.

## Theorems

* `get?_apply_of_ne`: Where a write is not made, everything is as before.
* `Runs.preserves`: What single writes preserve is preserved by a run.
* `Runs.take`: The first writes of a run are a run.
* `Does.bind`, `Does.and`: Jobs and properties put together.
-/

namespace RouteScaffold

namespace Tree

/-- What a file system lets be made: a folder where there is nothing, and a
    file where there is no folder. -/
def Admits (t : Tree) : Write → Prop
  | .put loc .folder => t.get? loc = none
  | .put loc (.file _) => t.get? loc ≠ some .folder
  | .erase _ => True

variable {t : Tree} {loc : Location} {entry : Entry} {w : Write}

theorem Admits.ne_root (h : t.Admits (.put loc entry)) : loc ≠ [] := by
  rintro rfl
  cases entry with
  | folder => exact absurd (h.symm.trans (get?_root t)) (by simp)
  | file content => exact absurd (get?_root t) h

theorem get?_apply_put (h : t.Admits (.put loc entry)) (l : Location) :
    (t.apply (.put loc entry)).get? l = if l = loc then some entry else t.get? l :=
  get?_put t loc l entry h.ne_root

theorem get?_apply_erase (loc l : Location) :
    (t.apply (.erase loc)).get? l = if l = loc ∧ loc ≠ [] then none else t.get? l := by
  by_cases hloc : loc = []
  · subst hloc
    have : (t.apply (.erase [])).get? l = t.get? l := by
      by_cases hl : l = []
      · rw [hl, get?_root, get?_root]
      · simpa [get?, Tree.apply, erase, hl] using entryAt_filter [] l t.entries
    simp [this]
  · rw [Tree.apply, get?_erase t loc l hloc]
    simp [hloc]

/-- What is made leaves folders where they are. -/
theorem Admits.keeps_folder (h : t.Admits (.put loc entry)) {l : Location}
    (hl : t.get? l = some .folder) : (t.apply (.put loc entry)).get? l = some .folder := by
  rw [get?_apply_put h]
  split
  · next heq =>
      subst heq
      cases entry with
      | folder => rfl
      | file content => exact absurd hl h
  · exact hl

/-- What is made leaves files where they are, though not what they hold. -/
theorem Admits.keeps_file (h : t.Admits (.put loc entry)) {l : Location} {c : Content}
    (hl : t.get? l = some (.file c)) : ∃ c', (t.apply (.put loc entry)).get? l = some (.file c') := by
  rw [get?_apply_put h]
  split
  · next heq =>
      subst heq
      cases entry with
      | folder => exact absurd (h.symm.trans hl) (by simp)
      | file content => exact ⟨content, rfl⟩
  · exact ⟨c, hl⟩

end Tree

/-- Where a write is made. -/
def Write.place : Write → Location
  | .put loc _ => loc
  | .erase loc => loc

theorem Tree.get?_apply_of_ne {t : Tree} {w : Write} (h : t.Admits w) {l : Location} (hl : l ≠ w.place) :
    (t.apply w).get? l = t.get? l := by
  cases w with
  | put loc e =>
      change l ≠ loc at hl
      rw [get?_apply_put h, if_neg hl]
  | erase loc =>
      change l ≠ loc at hl
      rw [get?_apply_erase, if_neg fun hand => hl hand.1]

/-! ### Disks after writes -/

namespace Disk

/-- A disk after a write. -/
def made (d : Disk) (w : Write) : Disk := { d with tree := d.tree.apply w, trail := d.trail ++ [w] }

/-- A disk after some writes. -/
def after (d : Disk) (ws : List Write) : Disk := ws.foldl made d

theorem after_append (d : Disk) (ws vs : List Write) : d.after (ws ++ vs) = (d.after ws).after vs :=
  List.foldl_append

@[simp] theorem after_nil (d : Disk) : d.after [] = d := rfl

theorem after_cons (d : Disk) (w : Write) (ws : List Write) :
    d.after (w :: ws) = (d.made w).after ws := rfl

@[simp] theorem after_here (d : Disk) (ws : List Write) : (d.after ws).here = d.here := by
  induction ws generalizing d with
  | nil => rfl
  | cons w ws ih => exact ih (d.made w)

@[simp] theorem after_tree (d : Disk) (ws : List Write) : (d.after ws).tree = d.tree.applyAll ws := by
  induction ws generalizing d with
  | nil => rfl
  | cons w ws ih => exact ih (d.made w)

@[simp] theorem after_trail (d : Disk) (ws : List Write) : (d.after ws).trail = d.trail ++ ws := by
  induction ws generalizing d with
  | nil => rw [after_nil, List.append_nil]
  | cons w ws ih =>
      rw [after_cons, ih, made, List.append_assoc, List.singleton_append]

/-- The writes that made a disk of another are determined by the two. -/
theorem after_inj {d : Disk} {ws vs : List Write} (h : d.after ws = d.after vs) : ws = vs := by
  have := congrArg Disk.trail h
  rw [after_trail, after_trail] at this
  exact List.append_cancel_left this

end Disk

namespace Tree

/-- A list of writes, each with a property where it is made. -/
def Runs (R : Tree → Write → Prop) : Tree → List Write → Prop
  | _, [] => True
  | t, w :: ws => R t w ∧ Runs R (t.apply w) ws

namespace Runs

variable {R S : Tree → Write → Prop} {t : Tree} {ws vs : List Write}

@[simp] theorem nil : Runs R t [] := trivial

theorem append : Runs R t (ws ++ vs) ↔ Runs R t ws ∧ Runs R (t.applyAll ws) vs := by
  induction ws generalizing t with
  | nil => simp [applyAll]
  | cons w ws ih => rw [List.cons_append, Runs, Runs, ih, and_assoc]; rfl

theorem singleton {w : Write} (h : R t w) : Runs R t [w] := ⟨h, trivial⟩

/-- The first writes of a run are a run. -/
theorem take (h : Runs R t ws) (n : Nat) : Runs R t (ws.take n) := by
  rw [← List.take_append_drop n ws] at h
  exact (append.mp h).1

theorem and (hr : Runs R t ws) (hs : Runs S t ws) : Runs (fun t w => R t w ∧ S t w) t ws := by
  induction ws generalizing t with
  | nil => trivial
  | cons w ws ih => exact ⟨⟨hr.1, hs.1⟩, ih hr.2 hs.2⟩

theorem mono (h : Runs R t ws) (himp : ∀ t w, R t w → S t w) : Runs S t ws := by
  induction ws generalizing t with
  | nil => trivial
  | cons w ws ih => exact ⟨himp t w h.1, ih h.2⟩

/-- What single writes preserve is preserved by a run. -/
theorem preserves {I : Tree → Prop} (h : Runs R t ws) (ht : I t)
    (hstep : ∀ t w, I t → R t w → I (t.apply w)) : I (t.applyAll ws) := by
  induction ws generalizing t with
  | nil => exact ht
  | cons w ws ih => exact ih h.2 (hstep t w ht h.1)

end Runs

end Tree

/-! ### Jobs -/

namespace Job

variable {α β : Type} {here : Location} {R S : Tree → Write → Prop}

/-- What a job does on a disk. -/
def on (j : Job α) (d : Disk) : Except Fault α × Disk := j d

@[simp] theorem on_pure (a : α) (d : Disk) : (pure a : Job α).on d = (.ok a, d) := rfl

@[simp] theorem on_fail (f : Fault) (d : Disk) : (fail f : Job α).on d = (.error f, d) := rfl

theorem on_bind (j : Job α) (k : α → Job β) (d : Disk) : (j >>= k).on d = match j.on d with
    | (.ok a, d') => (k a).on d'
    | (.error f, d') => (.error f, d') := by
  change (ExceptT.bindCont k (j d).1 : StateM Disk (Except Fault β)) (j d).2 = _
  rw [on]
  rcases j d with ⟨r, d'⟩
  cases r <;> rfl

theorem on_bind_ok {j : Job α} {k : α → Job β} {d d' : Disk} {a : α} (h : j.on d = (.ok a, d')) :
    (j >>= k).on d = (k a).on d' := by
  rw [on_bind, h]

theorem on_bind_error {j : Job α} {k : α → Job β} {d d' : Disk} {f : Fault}
    (h : j.on d = (.error f, d')) : (j >>= k).on d = (.error f, d') := by
  rw [on_bind, h]

theorem on_ofExcept_bind (a : α) (k : α → Job β) (d : Disk) :
    (ofExcept (.ok a) >>= k).on d = (k a).on d := rfl

/-- A job that ends well has gone on from a first part that did. -/
theorem on_bind_eq_ok {j : Job α} {k : α → Job β} {d d'' : Disk} {b : β} :
    (j >>= k).on d = (.ok b, d'') ↔ ∃ a d', j.on d = (.ok a, d') ∧ (k a).on d' = (.ok b, d'') := by
  rw [on_bind]
  rcases j.on d with ⟨r, d'⟩
  cases r with
  | error f => simp
  | ok a =>
      constructor
      · intro h
        exact ⟨a, d', rfl, h⟩
      · rintro ⟨a', d₁, heq, h⟩
        rw [Prod.mk.injEq, Except.ok.injEq] at heq
        rcases heq with ⟨rfl, rfl⟩
        exact h

/-- A job that fails has failed in its first part, or has gone on from there. -/
theorem on_bind_eq_error {j : Job α} {k : α → Job β} {d d'' : Disk} {f : Fault} :
    (j >>= k).on d = (.error f, d'') ↔ j.on d = (.error f, d'')
      ∨ ∃ a d', j.on d = (.ok a, d') ∧ (k a).on d' = (.error f, d'') := by
  rw [on_bind]
  rcases j.on d with ⟨r, d'⟩
  cases r with
  | error f' => simp
  | ok a =>
      simp only [Prod.mk.injEq, reduceCtorEq, false_and, false_or, Except.ok.injEq]
      exact ⟨fun h => ⟨a, d', ⟨rfl, rfl⟩, h⟩, fun ⟨_, _, ⟨ha, hd⟩, h⟩ => ha ▸ hd ▸ h⟩

@[simp] theorem on_get (d : Disk) : (MonadState.get : Job Disk).on d = (.ok d, d) := rfl

theorem on_get_bind (k : Disk → Job α) (d : Disk) : (MonadState.get >>= k).on d = (k d).on d := rfl

@[simp] theorem on_ofExcept (r : Except Fault α) (d : Disk) : (ofExcept r).on d = (r, d) := by
  cases r <;> rfl

@[simp] theorem on_write (w : Write) (d : Disk) : (write w).on d = (.ok (), d.made w) := rfl

theorem on_ask (question : Disk → Path → Except SystemError α) (p : Path) (d : Disk) :
    (ask question p).on d = match question d p with
      | .ok a => (.ok a, d)
      | .error e => (.error (.system e p.text), d) := by
  rw [ask, on_get_bind]
  cases question d p <;> rfl

/-- All writes of a job have a property, wherever its relative paths are
    walked. -/
def Does (here : Location) (R : Tree → Write → Prop) (j : Job α) : Prop :=
  ∀ d, d.here = here → ∃ ws, (j.on d).2 = d.after ws ∧ d.tree.Runs R ws

theorem does_of_unchanged {j : Job α} (h : ∀ d, (j.on d).2 = d) : Does here R j := fun d _ => ⟨[], h d, trivial⟩

theorem does_pure (a : α) : Does here R (pure a : Job α) := does_of_unchanged fun _ => rfl

theorem does_fail (f : Fault) : Does here R (fail f : Job α) := does_of_unchanged fun _ => rfl

theorem does_ofExcept (r : Except Fault α) : Does here R (ofExcept r) :=
  does_of_unchanged fun d => by rw [on_ofExcept]

/-- A job and what it goes on with. What it goes on with is only met where the
    first part has ended well. -/
theorem Does.bind_of {j : Job α} {k : α → Job β} (hj : Does here R j)
    (hk : ∀ d a d', d.here = here → j.on d = (.ok a, d') → d'.here = here →
      ∃ ws, ((k a).on d').2 = d'.after ws ∧ d'.tree.Runs R ws) :
    Does here R (j >>= k) := by
  intro d hhere
  rcases hj d hhere with ⟨ws, hd, hws⟩
  rw [on_bind]
  rcases hjd : j.on d with ⟨r, d'⟩
  rw [hjd] at hd
  cases r with
  | error f => exact ⟨ws, hd, hws⟩
  | ok a =>
      dsimp only at hd
      have hhere' : d'.here = here := by
        rw [hd, Disk.after_here, hhere]
      -- The second part writes on from where the first has ended.
      rcases hk d a d' hhere hjd hhere' with ⟨vs, hd', hvs⟩
      subst hd
      rw [Disk.after_tree] at hvs
      exact ⟨ws ++ vs, by rw [Disk.after_append]; exact hd', Tree.Runs.append.mpr ⟨hws, hvs⟩⟩

theorem Does.bind {j : Job α} {k : α → Job β} (hj : Does here R j) (hk : ∀ a, Does here R (k a)) :
    Does here R (j >>= k) :=
  hj.bind_of fun _ a d' _ _ hhere => hk a d' hhere

theorem Does.mono {j : Job α} (h : Does here R j) (himp : ∀ t w, R t w → S t w) : Does here S j := fun d hhere => by
  rcases h d hhere with ⟨ws, hd, hws⟩
  exact ⟨ws, hd, hws.mono himp⟩

/-- Two properties of the writes of a job. -/
theorem Does.and {j : Job α} (hr : Does here R j) (hs : Does here S j) : Does here (fun t w => R t w ∧ S t w) j := by
  intro d hhere
  rcases hr d hhere with ⟨ws, hd, hws⟩
  rcases hs d hhere with ⟨vs, hd', hvs⟩
  have : ws = vs := Disk.after_inj (hd.symm.trans hd')
  subst this
  exact ⟨ws, hd, hws.and hvs⟩

theorem Does.ite {j k : Job α} {c : Prop} [Decidable c] (hj : c → Does here R j) (hk : ¬c → Does here R k) :
    Does here R (if c then j else k) := by
  split
  · next h => exact hj h
  · next h => exact hk h

/-- What stands in the way of a job is looked at first. -/
theorem on_refuse (c : Prop) [Decidable c] (f : Fault) (k : Job α) (d : Disk) :
    (do
      if c then fail f
      k : Job α).on d = if c then (.error f, d) else k.on d := by
  by_cases hc : c
  · rw [if_pos hc]
    dsimp only
    rw [if_pos hc]
    rfl
  · rw [if_neg hc]
    dsimp only
    rw [if_neg hc]

theorem on_require (c : Prop) [Decidable c] (f : Fault) (k : Job α) (d : Disk) :
    (do
      unless c do fail f
      k : Job α).on d = if c then k.on d else (.error f, d) := by
  by_cases hc : c
  · rw [if_pos hc]
    dsimp only
    rw [if_pos hc]
  · rw [if_neg hc]
    dsimp only
    rw [if_neg hc]
    rfl

theorem Does.refuse {c : Prop} [Decidable c] {f : Fault} {k : Job α} (hk : ¬c → Does here R k) :
    Does here R (do
      if c then fail f
      k) := by
  intro d hhere
  rw [on_refuse]
  split
  · exact ⟨[], rfl, trivial⟩
  · next hc => exact hk hc d hhere

theorem Does.require {c : Prop} [Decidable c] {f : Fault} {k : Job α} (hk : c → Does here R k) :
    Does here R (do
      unless c do fail f
      k) := by
  intro d hhere
  rw [on_require]
  split
  · next hc => exact hk hc d hhere
  · exact ⟨[], rfl, trivial⟩

theorem Does.forM {xs : List α} {f : α → Job PUnit} (h : ∀ x ∈ xs, Does here R (f x)) :
    Does here R (xs.forM f) := by
  induction xs with
  | nil => exact does_pure _
  | cons x xs ih =>
      exact (h x (by simp)).bind fun _ => ih fun y hy => h y (by simp [hy])

theorem Does.filterM {xs : List α} {f : α → Job Bool} (h : ∀ x ∈ xs, Does here R (f x)) :
    Does here R (xs.filterM f) := by
  have haux : ∀ (ys acc : List α), (∀ y ∈ ys, y ∈ xs) → Does here R (ys.filterAuxM f acc) := by
    intro ys
    induction ys with
    | nil => exact fun acc _ => does_pure acc
    | cons y ys ih =>
        exact fun acc hys => (h y (hys y (by simp))).bind fun b => ih _ fun z hz => hys z (by simp [hz])
  exact (haux xs [] fun y hy => hy).bind fun ys => does_pure _

/-! ### Jobs that only look -/

/-- A job that writes nothing. -/
def Looks (j : Job α) : Prop := ∀ d, (j.on d).2 = d

theorem Looks.does {j : Job α} (h : Looks j) : Does here R j := does_of_unchanged h

/-- A job that writes nothing ends with a fault or with a value. -/
theorem Looks.cases {j : Job α} (h : Looks j) (d : Disk) :
    (∃ f, j.on d = (.error f, d)) ∨ ∃ a, j.on d = (.ok a, d) := by
  have hd := h d
  rcases hj : j.on d with ⟨r, d'⟩
  rw [hj] at hd
  dsimp only at hd
  subst hd
  cases r with
  | error f => exact Or.inl ⟨f, rfl⟩
  | ok a => exact Or.inr ⟨a, rfl⟩

theorem Looks.ok {j : Job α} (h : Looks j) {d d' : Disk} {a : α} (hj : j.on d = (.ok a, d')) :
    d' = d := by
  have := h d
  rw [hj] at this
  exact this

theorem looks_pure (a : α) : Looks (pure a : Job α) := fun _ => rfl

theorem looks_fail (f : Fault) : Looks (fail f : Job α) := fun _ => rfl

theorem looks_get : Looks (MonadState.get : Job Disk) := fun _ => rfl

theorem looks_ofExcept (r : Except Fault α) : Looks (ofExcept r) := fun d => by rw [on_ofExcept]

theorem looks_ask (question : Disk → Path → Except SystemError α) (p : Path) :
    Looks (ask question p) := fun d => by
  rw [on_ask]
  cases question d p <;> rfl

theorem Looks.on_eq {j : Job α} (h : Looks j) {d : Disk} {a : α} (hok : (j.on d).1 = .ok a) :
    j.on d = (.ok a, d) := by
  rcases h.cases d with ⟨f, hf⟩ | ⟨b, hb⟩
  · rw [hf] at hok
    exact absurd hok (by simp)
  · rw [hb] at hok
    rw [hb, Except.ok.inj hok]

theorem Looks.bind {j : Job α} {k : α → Job β} (hj : Looks j) (hk : ∀ a, Looks (k a)) :
    Looks (j >>= k) := fun d => by
  rcases hj.cases d with ⟨f, hf⟩ | ⟨a, ha⟩
  · rw [on_bind_error hf]
  · rw [on_bind_ok ha]
    exact hk a d

theorem Looks.ite {j k : Job α} {c : Prop} [Decidable c] (hj : Looks j) (hk : Looks k) :
    Looks (if c then j else k) := by
  split
  · exact hj
  · exact hk

theorem Looks.refuse {c : Prop} [Decidable c] {f : Fault} {k : Job α} (hk : Looks k) :
    Looks (do
      if c then fail f
      k) := fun d => by
  rw [on_refuse]
  split
  · rfl
  · exact hk d

theorem Looks.require {c : Prop} [Decidable c] {f : Fault} {k : Job α} (hk : Looks k) :
    Looks (do
      unless c do fail f
      k) := fun d => by
  rw [on_require]
  split
  · exact hk d
  · rfl

/-! ### Deciding -/

variable {P : β → Prop} {d : Disk}

/-- A job that decides: it writes nothing, and ends with a fault, or with
    something that has a property. -/
def Decides (d : Disk) (P : β → Prop) (j : Job β) : Prop :=
  (∃ f, j.on d = (.error f, d)) ∨ ∃ b, j.on d = (.ok b, d) ∧ P b

theorem Decides.imp {Q : β → Prop} {j : Job β} (h : Decides d P j) (himp : ∀ b, j.on d = (.ok b, d) → P b → Q b) :
    Decides d Q j := by
  rcases h with hf | ⟨b, hb, hP⟩
  · exact Or.inl hf
  · exact Or.inr ⟨b, hb, himp b hb hP⟩

theorem Decides.of_ok {j : Job β} (h : Decides d P j) {b : β} {d' : Disk} (hb : j.on d = (.ok b, d')) : P b := by
  rcases h with ⟨f, hf⟩ | ⟨a, ha, hP⟩
  · rw [hf] at hb
    exact absurd (Prod.mk.inj hb).1 (by simp)
  · rw [ha, Prod.mk.injEq, Except.ok.injEq] at hb
    exact hb.1 ▸ hP

theorem decides_bind {j : Job α} {k : α → Job β} (hj : Looks j)
    (hk : ∀ a, j.on d = (.ok a, d) → Decides d P (k a)) : Decides d P (j >>= k) := by
  rcases hj.cases d with ⟨f, hf⟩ | ⟨a, ha⟩
  · exact Or.inl ⟨f, on_bind_error hf⟩
  · rw [Decides, on_bind_ok ha]
    exact hk a ha

theorem decides_ofExcept {r : Except Fault α} {k : α → Job β}
    (hk : ∀ a, r = .ok a → Decides d P (k a)) : Decides d P (ofExcept r >>= k) := by
  refine decides_bind (looks_ofExcept r) fun a ha => hk a ?_
  rw [on_ofExcept, Prod.mk.injEq] at ha
  exact ha.1

theorem decides_refuse {c : Prop} [Decidable c] {f : Fault} {k : Job β}
    (hk : ¬c → Decides d P k) : Decides d P (do
      if c then fail f
      k) := by
  rw [Decides, on_refuse]
  split
  · exact Or.inl ⟨f, rfl⟩
  · next hc => exact hk hc

theorem decides_require {c : Prop} [Decidable c] {f : Fault} {k : Job β}
    (hk : c → Decides d P k) : Decides d P (do
      unless c do fail f
      k) := by
  rw [Decides, on_require]
  split
  · next hc => exact hk hc
  · exact Or.inl ⟨f, rfl⟩

theorem decides_pure {b : β} (h : P b) : Decides d P (pure b : Job β) := Or.inr ⟨b, rfl, h⟩

end Job

end RouteScaffold
