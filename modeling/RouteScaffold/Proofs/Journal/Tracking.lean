import RouteScaffold.Proofs.Edit.Leading
import RouteScaffold.Proofs.Journal.Making

/-!
# Commands That Change One File

Between the steps that make something and those that remove something, a command
makes its edits, all of them to one file. The steps around them do not touch that
file, and neither do the documents of intents. So whatever becomes of the
command, the file holds what the edits lead to, or what it held before; the
latter only if the command has failed.

## Main definitions

* `Journal.Avoids`: A location at which no intent has its document.

## Theorems

* `spares_track`: A file that no step touches is as it was.
* `track_leads`: What a command has made of the file that it edits.
-/

namespace RouteScaffold

open Job Disk RouteScaffold.Tree Naming

namespace Journal

/-- No intent has its document at a location. -/
def Avoids (j : Journal) (here l : Location) : Prop :=
  ∀ id : Text, (∀ c ∈ id, isTame c = true) → spot here (j.file id) ≠ l

variable {j : Journal} {root : Path} {here l : Location} {i : Intent} {d d' : Disk}
  {now : Timestamp} {verb : Text} {args : List Text} {mode : Mode} {plan : List Step}

/-- Documents have names of their own. -/
theorem avoids_of_name (h : j.Set root) {name : Text}
    (hname : ∀ id : Text, (∀ c ∈ id, isTame c = true) → id ++ ".json".toList ≠ name) (here l : Location) :
    j.Avoids here (l ++ [name]) := by
  intro id hid heq
  -- The way to a document has no pair of dots.
  have hdots : ['.', '.'] ∉ [".aviators".toList, "intents".toList, id ++ ".json".toList] := by
    intro hmem
    simp only [List.mem_cons, List.not_mem_nil, or_false] at hmem
    rcases hmem with hmem | hmem | hmem
    · exact absurd hmem (by decide)
    · exact absurd hmem (by decide)
    · have := congrArg List.length hmem
      rw [List.length_append] at this
      change 2 = id.length + 5 at this
      omega
  rw [file_eq h hid, spot_below _ _ hdots] at heq
  rw [show spot here root ++ [".aviators".toList, "intents".toList, id ++ ".json".toList]
    = (spot here root ++ [".aviators".toList, "intents".toList]) ++ [id ++ ".json".toList] by simp] at heq
  -- The last name is that of a document.
  have hlast := List.append_inj_right' heq rfl
  rw [List.cons.injEq] at hlast
  exact hname id hid hlast.1

theorem spares_settle (hdoc : spot here (j.file i.id) ≠ l) (r : Except Fault Bool) :
    Does here (Spares l) (j.settle i r) := by
  cases r with
  | ok changed => exact Does.bind (spares_unlinkIfPresent hdoc) fun _ => does_pure _
  | error f => exact (spares_save (i := i.withError f.message) hdoc).bind fun _ => does_fail _

/-- The writes of a command whose steps leave the file at a location alone. -/
theorem spares_track (h : ∀ s ∈ plan, s.Spares here l) (hdoc : j.Avoids here l) :
    Does here (Spares l) (j.track now verb args mode plan) := by
  have hid := Intent.identifier_char verb args mode now
  intro d hhere
  subst hhere
  have hstart : spot d.here (j.file (Intent.start verb args mode now).id) ≠ l := hdoc _ hid
  rw [on_track]
  rcases spares_save (i := Intent.start verb args mode now) hstart d rfl with ⟨ws, hws, hruns⟩
  rcases hsave : (j.save (Intent.start verb args mode now)).on d with ⟨r, d₁⟩
  rw [hsave] at hws
  dsimp only at hws
  cases r with
  | error f => exact ⟨ws, hws, hruns⟩
  | ok u =>
      dsimp only
      -- The journal does not change the working directory, so the plan is about the same place.
      have hhere : d₁.here = d.here := by rw [hws, after_here]
      rw [← hhere] at h hstart
      rcases spares_followed h hstart with ⟨vs, hvs, hruns', hid'⟩
      have hend : spot d₁.here (j.file (j.followed (Intent.start verb args mode now) plan d₁).1.id) ≠ l := by
        rw [hid']
        exact hstart
      rcases spares_settle hend (j.followed (Intent.start verb args mode now) plan d₁).2.1 _
        (show (j.followed (Intent.start verb args mode now) plan d₁).2.2.here = d₁.here by
          rw [hvs, after_here]) with ⟨us, hus, hruns''⟩
      refine ⟨ws ++ (vs ++ us), ?_, Runs.append.mpr ⟨hruns, Runs.append.mpr ⟨?_, ?_⟩⟩⟩
      · rw [hus, hvs, hws, after_append, after_append]
      · rw [← after_tree, ← hws]
        exact hruns'
      · rw [← after_tree, ← hws, ← after_tree, ← hvs]
        -- The stretches of writes are those of saving, of the plan, and of settling.
        exact hruns''

/-- What a command has made of the file that it edits: what the edits lead to, or
    nothing, if it has failed. -/
theorem track_leads {p : Path} {before behind : List Step} {edits : List Edit} {t t' : Text}
    (hlead : Edit.Leads p.text edits t t') (hop : ∀ e ∈ edits, e.operation ≠ .append)
    (hne : edits ≠ []) (ht : '\r' ∉ t)
    (hspares : ∀ s ∈ before ++ behind, s.Spares d.here (spot d.here p))
    (hdoc : j.Avoids d.here (spot d.here p))
    (hfile : d.tree.get? (spot d.here p) = some (.file (.text t))) {r : Except Fault Bool}
    (h : (j.track now verb args mode (before ++ (edits.map (.edit p) ++ behind))).on d = (r, d')) :
    d'.tree.get? (spot d.here p) = some (.file (.text t'))
      ∨ (∃ f, r = .error f) ∧ d'.tree.get? (spot d.here p) = some (.file (.text t)) := by
  have hid : ∀ k : Intent, k.id = Intent.identifier verb args mode now →
      spot d.here (j.file k.id) ≠ spot d.here p := fun k hk => by
    rw [hk]
    exact hdoc _ (Intent.identifier_char verb args mode now)
  -- What spares the file keeps it, wherever the command has come to.
  have hkeep : ∀ {α : Type} (x : Job α) (e e' : Disk) (a : Except Fault α) (u : Text), e.here = d.here →
      Does d.here (Spares (spot d.here p)) x → e.tree.get? (spot d.here p) = some (.file (.text u)) →
      x.on e = (a, e') → e'.here = d.here ∧ e'.tree.get? (spot d.here p) = some (.file (.text u)) := by
    intro α x e e' a u hhere hdoes hu hon
    rcases hdoes e hhere with ⟨ws, hws, hruns⟩
    rw [hon] at hws
    dsimp only at hws
    rw [hws, after_here, after_tree]
    exact ⟨hhere, hruns.spares hu⟩
  have hfollow : ∀ (steps : List Step) (k : Intent) (e : Disk) (u : Text),
      (∀ s ∈ steps, s ∈ before ++ behind) → k.id = Intent.identifier verb args mode now →
      e.here = d.here → e.tree.get? (spot d.here p) = some (.file (.text u)) →
      (j.followed k steps e).1.id = Intent.identifier verb args mode now
        ∧ (j.followed k steps e).2.2.here = d.here
        ∧ (j.followed k steps e).2.2.tree.get? (spot d.here p) = some (.file (.text u)) := by
    intro steps k e u hsteps hk hhere hu
    rcases spares_followed (i := k) (d := e) (fun s hs => by rw [hhere]; exact hspares s (hsteps s hs))
      (by rw [hhere]; exact hid k hk) with ⟨ws, hws, hruns, hid'⟩
    rw [hws, after_here, after_tree, hid']
    exact ⟨hk, hhere, hruns.spares hu⟩
  have hsettle : ∀ (k : Intent) (e e' : Disk) (q : Except Fault Bool) (a : Except Fault Bool) (u : Text),
      k.id = Intent.identifier verb args mode now → e.here = d.here →
      e.tree.get? (spot d.here p) = some (.file (.text u)) → (j.settle k q).on e = (a, e') →
      e'.tree.get? (spot d.here p) = some (.file (.text u)) := fun k e e' q a u hk hhere hu hon =>
    (hkeep _ e e' a u hhere (spares_settle (hid k hk) q) hu hon).2
  have hfails : ∀ (k : Intent) (e e' : Disk) (f : Fault) (a : Except Fault Bool),
      (j.settle k (.error f)).on e = (a, e') → ∃ g, a = .error g := by
    intro k e e' f a hon
    rw [settle, on_bind] at hon
    split at hon
    · exact ⟨_, (Prod.mk.inj hon).1.symm⟩
    · exact ⟨_, (Prod.mk.inj hon).1.symm⟩
  rw [on_track] at h
  rcases hsave : (j.save (Intent.start verb args mode now)).on d with ⟨r₁, d₁⟩
  rcases hkeep _ d d₁ r₁ t rfl (spares_save (hid (Intent.start verb args mode now) rfl)) hfile hsave
    with ⟨hhere₁, hfile₁⟩
  rw [hsave] at h
  cases r₁ with
  | error f =>
      rw [Prod.mk.injEq] at h
      rw [← h.2]
      exact Or.inr ⟨⟨f, h.1.symm⟩, hfile₁⟩
  | ok u =>
      dsimp only at h
      rcases hfollow before (Intent.start verb args mode now) d₁ t (fun s hs => List.mem_append_left _ hs)
        rfl hhere₁ hfile₁ with ⟨hid₂, hhere₂, hfile₂⟩
      rw [followed_append] at h
      rcases hbefore : j.followed (Intent.start verb args mode now) before d₁ with ⟨k, r₂, d₂⟩
      rw [hbefore] at h hid₂ hhere₂ hfile₂
      dsimp only at hid₂ hhere₂ hfile₂
      cases r₂ with
      | error f => exact Or.inr ⟨hfails _ _ _ _ _ h, hsettle k d₂ d' _ r t hid₂ hhere₂ hfile₂ h⟩
      | ok changed =>
          dsimp only at h
          rw [followed_append] at h
          rw [← hhere₂] at hfile₂
          rcases followed_edits hlead hop ht hfile₂ hne k with
            ⟨f, hedits⟩ | ⟨-, c, ws, hedits, hruns, hfile₃⟩
          · rw [hedits] at h
            rw [hhere₂] at hfile₂
            exact Or.inr ⟨hfails _ _ _ _ _ h, hsettle k d₂ d' _ r t hid₂ hhere₂ hfile₂ h⟩
          · rw [hedits] at h
            dsimp only at h
            rw [hhere₂, ← after_tree] at hfile₃
            have hhere₃ : (d₂.after ws).here = d.here := by rw [after_here, hhere₂]
            rcases hfollow behind k (d₂.after ws) t' (fun s hs => List.mem_append_right _ hs) hid₂ hhere₃
              hfile₃ with ⟨hid₄, hhere₄, hfile₄⟩
            exact Or.inl (hsettle _ _ d' _ r t' hid₄ hhere₄ hfile₄ h)

/-! ### Files that are written -/

end Journal

/-- A step that writes a text to a file. -/
def Step.Writes (p : Path) (t : Text) (s : Step) : Prop := s = .newFile p t ∨ s = .file p t

namespace Journal

variable {j : Journal} {here l : Location} {i i' : Intent} {d d' : Disk} {now : Timestamp} {verb : Text}
  {args : List Text} {mode : Mode} {p : Path} {t : Text} {s : Step} {changed : Bool}

theorem writeText_ok (h : (writeText p t).on d = (.ok (), d')) :
    d'.here = d.here ∧ d'.tree.get? (spot d.here p) = some (.file (.text t)) := by
  rcases on_bind_eq_ok.mp h with ⟨loc, d₁, hask, hwrite⟩
  rw [on_ask] at hask
  split at hask
  · next a hwritable =>
      rw [Prod.mk.injEq, Except.ok.injEq] at hask
      rcases hask with ⟨rfl, rfl⟩
      rw [on_write, Prod.mk.injEq] at hwrite
      rw [← hwrite.2, ← spot_of_find (writable_eq hwritable).1]
      refine ⟨rfl, ?_⟩
      change (d.tree.apply _).get? a = _
      rw [get?_apply_put (admits_writable hwritable), if_pos rfl]
  · exact absurd hask (by simp)

theorem newFile_ok (h : (newFile p t).on d = (.ok (), d')) :
    d'.here = d.here ∧ d'.tree.get? (spot d.here p) = some (.file (.text t)) := by
  rcases on_bind_eq_ok.mp h with ⟨there, d₁, hthere, hrest⟩
  have hd₁ := (looks_isThere p).ok hthere
  subst hd₁
  rw [on_refuse] at hrest
  split at hrest
  · exact absurd hrest (by simp)
  · rcases on_bind_eq_ok.mp hrest with ⟨u, d₂, hfolders, hwrite⟩
    -- Making folders does not move the working directory.
    have hhere : d₂.here = d₁.here := by
      rcases @makes_folders d₁.here p.parent d₁ rfl with ⟨ws, hws, -⟩
      rw [hfolders] at hws
      dsimp only at hws
      rw [hws, after_here]
    rw [← hhere]
    exact writeText_ok hwrite

/-- A step that writes a text has written it. -/
theorem take_writes (hs : s.Writes p t) (h : (j.take i s).on d = (.ok (i', changed), d')) :
    d'.here = d.here ∧ d'.tree.get? (spot d.here p) = some (.file (.text t)) := by
  rcases hs with rfl | rfl
  · rcases on_bind_eq_ok.mp h with ⟨u, d₁, hnew, hpure⟩
    rw [on_pure, Prod.mk.injEq] at hpure
    rw [← hpure.2]
    exact newFile_ok hnew
  · rcases on_bind_eq_ok.mp h with ⟨u, d₁, hwrite, hpure⟩
    rw [on_pure, Prod.mk.injEq] at hpure
    rw [← hpure.2]
    exact writeText_ok hwrite

/-- What a command has written that has come to its end, and has not touched
    since. -/
theorem track_writes {before behind : List Step} (hs : s.Writes p t)
    (hmakes : ∀ s' ∈ before, s'.makes = true) (hspares : ∀ s' ∈ behind, s'.Spares d.here (spot d.here p))
    (hdoc : j.Avoids d.here (spot d.here p)) {b : Bool}
    (h : (j.track now verb args mode (before ++ s :: behind)).on d = (.ok b, d')) :
    d'.here = d.here ∧ d'.tree.get? (spot d.here p) = some (.file (.text t)) := by
  have hdoc' := hdoc _ (Intent.identifier_char verb args mode now)
  rcases track_ok h with ⟨k, d₁, d₂, hsave, hfollow, hdrop⟩
  rcases followed_append_ok hfollow with ⟨k₁, _, _, d₃, hbefore, hrest⟩
  rcases followed_cons_ok hrest with ⟨k₂, _, _, d₄, htake, hbehind⟩
  rcases @makes_save d.here j (Intent.start verb args mode now) d rfl with ⟨ws₁, hd₁, -⟩
  rw [hsave] at hd₁
  dsimp only at hd₁
  rcases makes_followed hmakes (Intent.start verb args mode now) d₁ with ⟨ws₂, hd₃, -, hid₁⟩
  rw [hbefore] at hd₃ hid₁
  dsimp only at hd₃ hid₁
  have hhere₃ : d₃.here = d.here := by rw [hd₃, after_here, hd₁, after_here]
  rcases take_writes hs htake with ⟨hhere₄, hwritten⟩
  rw [hhere₃] at hhere₄ hwritten
  -- From here on the file is spared.
  have hid₂ : k₂.id = Intent.identifier verb args mode now := (id_of_take htake).trans hid₁
  rcases spares_followed (i := k₂) (d := d₄) (l := spot d.here p) (by rw [hhere₄]; exact hspares)
    (by rw [hhere₄, hid₂]; exact hdoc') with ⟨ws₃, hd₂, hruns₃, hid₃⟩
  rw [hbehind] at hd₂ hid₃
  dsimp only at hd₂ hid₃
  have hdrops : Does d.here (Spares (spot d.here p)) (unlinkIfPresent (j.file k.id)) :=
    spares_unlinkIfPresent (by rw [hid₃, hid₂]; exact hdoc')
  rcases hdrops d₂ (by rw [hd₂, after_here, hhere₄]) with
    ⟨ws₄, hd', hruns₄⟩
  rw [show (unlinkIfPresent (j.file k.id)).on d₂ = (.ok (), d') from hdrop] at hd'
  dsimp only at hd'
  refine ⟨by rw [hd', after_here, hd₂, after_here, hhere₄], ?_⟩
  rw [hd', after_tree]
  refine hruns₄.spares ?_
  rw [hd₂, after_tree]
  exact hruns₃.spares hwritten

/-- What is made has been made when a command has come to its end that makes
    nothing twice. -/
theorem track_making {top made : Path} {things : List (List Text × Made)} {names : List Text}
    {thing : Made} (hmem : (names, thing) ∈ things) (hthing : thing = .newFile t ∨ thing = .file t)
    (hstraight : ∀ x ∈ things, ['.', '.'] ∉ x.1) (hapart : things.Pairwise fun x y => x.1 ≠ y.1)
    (hdoc : j.Avoids d.here (spot d.here top ++ names)) {b : Bool}
    (h : (j.track now verb args mode (.record made :: making top things)).on d = (.ok b, d')) :
    d'.here = d.here ∧ d'.tree.get? (spot d.here top ++ names) = some (.file (.text t)) := by
  rcases List.append_of_mem hmem with ⟨xs, ys, rfl⟩
  have hsplit : Step.record made :: making top (xs ++ (names, thing) :: ys)
      = (.record made :: making top xs) ++ thing.step (top.below names) :: making top ys := by
    simp [making]
  have hspot : spot d.here (top.below names) = spot d.here top ++ names := spot_below _ _ (hstraight _ hmem)
  rw [← hspot] at hdoc ⊢
  rw [hsplit] at h
  have hwrites : (thing.step (top.below names)).Writes (top.below names) t := by
    rcases hthing with rfl | rfl
    · exact Or.inl rfl
    · exact Or.inr rfl
  -- The things are apart, so none that is made later is put in the place of this one.
  refine track_writes hwrites makes_making (fun s hs => ?_) hdoc h
  rw [hspot]
  refine spares_making (fun y hy => hstraight y (by simp [hy])) (fun y hy heq => ?_) d.here s
    (List.mem_cons_of_mem (.record made) hs)
  exact (List.pairwise_cons.mp (List.pairwise_append.mp hapart).2.1).1 y hy heq.symm

end Journal

end RouteScaffold
