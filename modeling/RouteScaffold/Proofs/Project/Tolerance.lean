import RouteScaffold.Proofs.Project.Inference
import RouteScaffold.Proofs.Project.Transparency

/-!
# Removing What Is Not There

A removal can be told that nothing has to be there, which is how one that was cut short
is taken up again. If its artifact is absent and the file in which it would be listed
has nothing of it, then every step of the removal finds nothing to do: nothing changes,
and the answer says that nothing was registered.

Whether an artifact is listed is a matter of its name alone, so something else of that
name must not be listed either.

## Main definitions

* `Step.Idle`: A step that finds nothing to do.
* `Registry.Unlisted`: Nothing of an artifact is in the file that would list it.
* `Tolerated`: A removal for which nothing has to be there.

## Theorems

* `Journal.track_idle`: A plan that finds nothing to do changes nothing.
* `Seen.History.tolerant_removal_idle`: Removing what is not there changes nothing.
-/

namespace RouteScaffold

open Naming Text Job Disk RouteScaffold.Tree Project

variable {j : Journal} {i : Intent} {d : Disk} {p root : Path} {e : Edit} {raw : Text} {plan : List Step}

/-! ### Steps that find nothing to do -/

/-- A step that finds nothing to do on a disk: where no intents are kept, it leaves the
    disk as it is. -/
def Step.Idle (d : Disk) (s : Step) : Prop :=
  ∀ (j : Journal) (i : Intent), j.keeps = false → ∃ i', (j.take i s).on d = (.ok (i', false), d)

namespace Journal

theorem on_save_unkept (hkeeps : j.keeps = false) (i : Intent) (d : Disk) : (j.save i).on d = (.ok (), d) := by
  rw [save, hkeeps]
  rfl

theorem on_learnSnapshot_of_read (hkeeps : j.keeps = false) (h : (readRaw p).on d = (.ok raw, d)) (i : Intent) :
    ∃ i', (j.learnSnapshot i p).on d = (.ok (i', false), d) := by
  rw [learnSnapshot]
  split
  · exact ⟨i, rfl⟩
  -- The snapshot is taken in memory only, as this journal keeps nothing.
  · next hnew =>
      rcases readRaw_ok h with ⟨-, loc, c, hfind, hfile, -⟩
      have hthere : (isThere p).on d = (.ok true, d) := by
        rw [on_isThere, look_eq_some.mpr ⟨loc, hfind, hfile⟩]
        rfl
      have hsnapshot : (snapshotOf p).on d = (.ok ⟨p.text, some raw⟩, d) := by
        rw [snapshotOf, on_bind_ok hthere, if_pos rfl, on_bind_ok h]
        rfl
      have hwith : (withSnapshotOf i p).on d = (.ok (i.withSnapshot ⟨p.text, some raw⟩), d) := by
        rw [withSnapshotOf, if_neg hnew, on_bind_ok hsnapshot]
        rfl
      refine ⟨i.withSnapshot ⟨p.text, some raw⟩, ?_⟩
      rw [on_bind_ok hwith, learn, on_bind_ok (on_save_unkept hkeeps _ _)]
      rfl

end Journal

namespace Step

/-- Looking at a file that can be read changes nothing. -/
theorem idle_snapshot (h : (readRaw p).on d = (.ok raw, d)) :
    (Step.snapshot p).Idle d ∧ (Step.snapshotIfPresent p).Idle d := by
  refine ⟨fun j i hkeeps => Journal.on_learnSnapshot_of_read hkeeps h i, fun j i hkeeps => ?_⟩
  rcases readRaw_ok h with ⟨-, loc, c, hfind, hfile, -⟩
  rw [Journal.take, on_bind, on_isThere, look_eq_some.mpr ⟨loc, hfind, hfile⟩]
  exact Journal.on_learnSnapshot_of_read hkeeps h i

/-- Neither does an edit that leaves the text of its file as it is. -/
theorem idle_edit (h : (readRaw p).on d = (.ok raw, d)) (hop : e.operation ≠ .append)
    (happly : e.apply p.text raw.toLf = .ok raw.toLf) : (Step.edit p e).Idle d ∧ (Step.editIfPresent p e).Idle d := by
  have hwritten : e.written p.text raw = .ok none := by
    rw [Edit.written, happly]
    simp [bind, Except.bind, pure, Except.pure]
  have hedit : (Job.edit p e).on d = (.ok false, d) := by
    rw [edit_of_not_append hop, on_editExisting_of_read h, hwritten]
  refine ⟨fun j i _ => ⟨i, ?_⟩, fun j i _ => ⟨i, ?_⟩⟩
  · rw [Journal.take, on_bind_ok hedit]
    rfl
  · rcases readRaw_ok h with ⟨-, loc, c, hfind, hfile, -⟩
    rw [Journal.take, on_bind, on_isThere, look_eq_some.mpr ⟨loc, hfind, hfile⟩]
    exact on_bind_ok hedit

/-- Nor does anything that is for a file that need not be there, if it is not. -/
theorem idle_absent (h : (isThere p).on d = (.ok false, d)) : (Step.snapshotIfPresent p).Idle d
    ∧ (∀ e, (Step.editIfPresent p e).Idle d) ∧ (Step.remove p true).Idle d := by
  refine ⟨fun j i _ => ⟨i, ?_⟩, fun e j i _ => ⟨i, ?_⟩, fun j i _ => ⟨i, ?_⟩⟩
  · rw [Journal.take, on_bind_ok h]
    rfl
  · rw [Journal.take, on_bind_ok h]
    rfl
  · have hremove : (Job.remove p true).on d = (.ok false, d) := by
      rw [Job.remove, on_bind_ok h]
      rfl
    rw [Journal.take, on_bind_ok hremove]
    rfl

end Step

namespace Journal

/-- A plan of idle steps changes nothing. -/
theorem followed_idle (hkeeps : j.keeps = false) (h : ∀ s ∈ plan, s.Idle d) (i : Intent) :
    ∃ i', j.followed i plan d = (i', .ok false, d) ∧ i'.id = i.id := by
  induction plan generalizing i with
  | nil => exact ⟨i, followed_nil j i d, rfl⟩
  | cons s plan ih =>
      rcases h s (by simp) j i hkeeps with ⟨k, htake⟩
      rcases ih (fun s' hs' => h s' (by simp [hs'])) k with ⟨i', hrest, hid⟩
      refine ⟨i', ?_, hid.trans (id_of_take htake)⟩
      rw [followed_cons, htake]
      dsimp only
      rw [hrest]
      rfl

/-- A command whose steps are idle answers that nothing has changed, and nothing has but
    in the tool's own folder. -/
theorem track_idle (horderly : d.Orderly root) (hj : j.Set root) {now : Timestamp} {verb : Text} {args : List Text}
    {mode : Mode} (hplan : ∀ s ∈ plan, s.Beside d.here root ∧ s.Idle d)
    (hfresh : d.tree.get? (spot d.here (j.file (Intent.identifier verb args mode now))) = none) :
    ∃ d', (j.track now verb args mode plan).on d = (.ok false, d') ∧ d.Alike (ownPlace d.here root) d' := by
  have hid := Intent.isIdentifier verb args mode now
  have hstart : Tends root (Intent.identifier verb args mode now ++ ".json".toList) d d := by
    refine horderly.tends ?_
    rw [intentsPlace, List.append_assoc, ← Journal.spot_file hj hid]
    exact hfresh
  -- Without a journal the steps leave the disk as it is, and with one they do the same.
  have hlax : ({ j with keeps := false } : Journal).Set root := hj
  rcases followed_idle (j := { j with keeps := false }) rfl (fun s hs => (hplan s hs).2)
    (Intent.start verb args mode now) with ⟨i, hfollowed, hi⟩
  rcases tends_drop (i := i) horderly hlax (by rw [hi]; exact hid) (by rw [hi]; exact hstart)
    with ⟨e, hdrop, -, halike, -⟩
  have hidle : (({ j with keeps := false } : Journal).track now verb args mode plan).on d = (.ok false, e) := by
    rw [on_track, on_save_unkept rfl]
    dsimp only
    rw [hfollowed]
    dsimp only
    rw [settle, on_bind_ok hdrop]
    rfl
  rcases match_track horderly hj hlax hid rfl (fun s hs => (hplan s hs).1) d d hstart hstart (.refl _ d)
    with ⟨r, d', e', hd', he', -, -, halike'⟩
  rw [hidle, Prod.mk.injEq] at he'
  rcases he' with ⟨rfl, rfl⟩
  exact ⟨d', hd', halike.trans halike'.symm⟩

end Journal

/-- What is absent does not lie on the way to the tool's own folder. -/
theorem Disk.not_onWay_of_absent (horderly : d.Orderly root) {folder : Path} {base : Location} {names : List Text}
    (hfound : d.find folder = .ok base) (hdots : ['.', '.'] ∉ names) (hnull : ∀ n ∈ names, '\x00' ∉ n)
    (hgone : (isThere (folder.below names)).on d = (.ok false, d)) :
    ∀ l, OnWay d.here root l → ¬ spot d.here (folder.below names) <+: l := by
  intro l hl hpre
  have hl : d.tree.get? l = some .folder := by
    rcases hl with hl | hl
    · exact way_of_find horderly.found l hl
    · exact horderly.above l hl
  rw [spot_below _ _ hdots, ← spot_of_find hfound] at hpre
  -- If it lay there, it would be a folder that is reached through folders.
  have hfolders : ∀ ns, ns <+: names → d.tree.get? (base ++ ns) = some .folder := by
    intro ns hns
    have hns := ((List.prefix_append_right_inj base).mpr hns).trans hpre
    by_cases heq : base ++ ns = l
    · rw [heq, hl]
    · exact horderly.closed.get?_of_prefix (by rw [hl]; simp) hns heq
  have hthrough : ∀ s ∈ Location.stations base names, d.tree.get? s = some .folder := by
    intro s hs
    rcases Location.exists_of_mem_stations hs with ⟨ns, n, ms, heq, rfl⟩
    have hns : ns <+: names := ⟨n :: ms, heq.symm⟩
    rw [Location.place_of_names fun hmem => hdots (hns.subset hmem)]
    exact hfolders ns hns
  rw [on_isThere, look] at hgone
  rcases find_through hfound hthrough hdots hnull with hthere | hlong
  · rw [hthere] at hgone
    dsimp only at hgone
    rw [hfolders names List.prefix_rfl] at hgone
    exact absurd (Prod.mk.inj hgone).1 (by simp)
  · rw [hlong] at hgone
    exact absurd (Prod.mk.inj hgone).1 (by simp)

/-! ### Tolerant removals -/

/-- The way from the folder of the modules to an artifact: to the folder of a module, or
    to the file of a page. -/
def Routed.trail : Routed → List Text
  | module m => [m.segment]
  | page p => [p.module.segment, "pages".toList, p.name ++ ".tsx".toList]

theorem Routed.Built.trail_plain {x : Routed} (h : x.Built) :
    ['.', '.'] ∉ x.trail ∧ ∀ n ∈ x.trail, '\x00' ∉ n := by
  have hsegment : ∀ {segment name : Text}, Accepts segment name → segment ≠ ['.', '.'] ∧ '\x00' ∉ segment :=
    fun haccepts => ⟨(isName_of_tame (tame_segment haccepts) (accepts_segment_ne haccepts)).2.2.2,
      not_mem_of_tame (tame_segment haccepts) (by decide)⟩
  cases x with
  | module m =>
      have hm := hsegment h.2
      exact ⟨by simpa [trail] using hm.1.symm, by simpa [trail] using hm.2⟩
  | page p =>
      have hm := hsegment h.2.1
      have hname := tame_name h.2.2
      have hfile : p.name ++ ".tsx".toList ≠ ['.', '.'] ∧ '\x00' ∉ p.name ++ ".tsx".toList :=
        ⟨(isName_component hname).2.2.2, fun hmem => (List.mem_append.mp hmem).elim
          (not_mem_of_tame hname (by decide)) (by decide)⟩
      refine ⟨?_, List.forall_mem_cons.mpr ⟨hm.2, List.forall_mem_cons.mpr ⟨by decide,
        List.forall_mem_singleton.mpr hfile.2⟩⟩⟩
      rw [trail, List.mem_cons, List.mem_cons, List.mem_singleton, not_or, not_or]
      exact ⟨hm.1.symm, by decide, hfile.1.symm⟩

namespace Registry

/-- The path of an artifact: the folder of a module, or the file of a page. -/
def own (r : Registry) (x : Routed) : Path := r.modules.below x.trail

/-- Nothing of an artifact is in the file that would list it. For a page of the flat
    dialect that file may be absent. -/
def Unlisted (r : Registry) (x : Routed) (d : Disk) : Prop :=
  (∃ raw, (readRaw (r.guard x).file).on d = (.ok raw, d) ∧ r.Lacks x raw.toLf)
    ∨ r.dialect = .flat ∧ (∃ p, x = .page p) ∧ (isThere (r.guard x).file).on d = (.ok false, d)

/-- Taking an artifact out of the file that would list it leaves that file as it is. -/
def Untouched (r : Registry) (x : Routed) (d : Disk) : Prop :=
  (∃ raw, (readRaw (r.guard x).file).on d = (.ok raw, d)
      ∧ ∀ e ∈ (r.remove x).edits, e.apply (r.guard x).file.text raw.toLf = .ok raw.toLf)
    ∨ r.dialect = .flat ∧ (∃ p, x = .page p) ∧ (isThere (r.guard x).file).on d = (.ok false, d)

/-- The steps that remove an artifact. -/
def removalPlan (r : Registry) : Routed → List Step
  | .module m => deleteModulePlan r m (r.own (.module m))
  | .page p => deletePagePlan r p (r.own (.page p))

variable {r : Registry} {x : Routed}

/-- An artifact is taken out of the file that its making looks at. -/
theorem remove_file (r : Registry) (x : Routed) : (r.remove x).file = (r.guard x).file := by
  rcases r with ⟨dialect, file, modules⟩
  cases dialect <;> cases x <;> rfl

theorem guard_module_file (r : Registry) (m : ModuleRef) : (r.guard (.module m)).file = r.file := by
  rcases r with ⟨dialect, file, modules⟩
  cases dialect <;> rfl

theorem guard_page_file (r : Registry) (p : PageRef) : (r.guard (.page p)).file = r.pageFile p := by
  rcases r with ⟨dialect, file, modules⟩
  cases dialect <;> rfl

/-- Everything of the marker dialect is listed in the registry itself. -/
theorem guard_file_marker (r : Registry) (hr : r.dialect = .marker) (x : Routed) : (r.guard x).file = r.file := by
  rcases r with ⟨dialect, file, modules⟩
  subst hr
  cases x <;> rfl

/-- What is removed is the artifact itself. -/
theorem remove_mem_removalPlan {path : Path} {missingOk : Bool} (h : .remove path missingOk ∈ r.removalPlan x) :
    path = r.own x := by
  cases x with
  | module m =>
      rcases List.mem_append.mp h with h | h
      -- The first step keeps a snapshot, and those behind it are edits.
      · rcases List.mem_cons.mp h with h | h
        · exact absurd h (by simp)
        · rcases List.mem_map.mp h with ⟨e, -, he⟩
          exact absurd he (by simp)
      · rw [List.mem_singleton, Step.remove.injEq] at h
        exact h.1
  | page p =>
      rcases List.mem_append.mp h with h | h
      · rcases List.mem_cons.mp h with h | h
        · exact absurd h (by simp)
        · split at h <;> rcases List.mem_map.mp h with ⟨e, -, he⟩ <;> exact absurd he (by simp)
      · rw [List.mem_singleton, Step.remove.injEq] at h
        exact h.1

/-- The removal of what is not there finds nothing to do. -/
theorem idle_removalPlan (hgone : (isThere (r.own x)).on d = (.ok false, d))
    (huntouched : r.Untouched x d) : ∀ s ∈ r.removalPlan x, s.Idle d := by
  have hremove : ∀ s ∈ [Step.remove (r.own x) true], s.Idle d :=
    List.forall_mem_singleton.mpr (Step.idle_absent hgone).2.2
  have hfile := r.remove_file x
  -- The registry holds nothing of the route, or is the missing one of a module.
  rcases huntouched with ⟨raw, hread, happly⟩ | ⟨hflat, ⟨p, rfl⟩, habsent⟩
  · have hedits : ∀ e ∈ (r.remove x).edits, (Step.edit (r.remove x).file e).Idle d
        ∧ (Step.editIfPresent (r.remove x).file e).Idle d := by
      rw [hfile]
      exact fun e he => Step.idle_edit hread ((operation_remove r x).1 e he) (happly e he)
    cases x with
    | module m =>
        rw [r.guard_module_file m] at hread
        refine List.forall_mem_append.mpr ⟨List.forall_mem_cons.mpr ⟨(Step.idle_snapshot hread).1, fun s hs => ?_⟩,
          hremove⟩
        rcases List.mem_map.mp hs with ⟨e, he, rfl⟩
        exact (hedits e he).1
    | page p =>
        rw [r.guard_page_file p] at hread
        refine List.forall_mem_append.mpr ⟨List.forall_mem_cons.mpr ⟨(Step.idle_snapshot hread).2, fun s hs => ?_⟩,
          hremove⟩
        -- The edits are made in any case, or if the file is there.
        split at hs
        · rcases List.mem_map.mp hs with ⟨e, he, rfl⟩
          exact (hedits e he).2
        · rcases List.mem_map.mp hs with ⟨e, he, rfl⟩
          exact (hedits e he).1
  -- Nothing is done to a registry that is not there.
  · have hmayBeAbsent : r.pageFileMayBeAbsent = true := by
      rw [pageFileMayBeAbsent, hflat]
      rfl
    rcases Step.idle_absent habsent with ⟨hsnapshot, hedit, -⟩
    refine List.forall_mem_append.mpr ⟨List.forall_mem_cons.mpr ⟨r.guard_page_file p ▸ hsnapshot, fun s hs => ?_⟩, hremove⟩
    rw [if_pos hmayBeAbsent] at hs
    rcases List.mem_map.mp hs with ⟨e, -, rfl⟩
    change (Step.editIfPresent (r.remove (.page p)).file e).Idle d
    rw [hfile]
    exact hedit e

end Registry

/-- A removal for which nothing has to be there, with the registry and the artifact that
    it finds. -/
inductive Tolerated (q : Project) (role : Text) (d : Disk) : Deletion → Registry → Routed → Prop
  | module {raw : Option Text} {t : ModuleTarget} (h : (q.moduleTarget (some role) raw).on d = (.ok t, d)) :
      Tolerated q role d (.module (some role) raw true) t.registry (.module t.ref)
  | page {module raw : Option Text} {t : PageTarget}
      (h : (q.pageTarget (some role) module raw).on d = (.ok t, d)) :
      Tolerated q role d (.page (some role) module raw true) t.within.registry (.page t.ref)

namespace Tolerated

variable {q : Project} {role : Text} {c : Deletion} {r : Registry} {x : Routed}

/-- What a tolerant removal finds: the registry of its role, and an artifact that is built
    of raw names. -/
theorem found (h : Tolerated q role d c r x) : x.Built ∧ ∃ (raw : Option Text) (t : ModuleTarget) (folder : Path)
    (base : Location), ModuleFound q (some role) raw d t folder base ∧ r = t.registry := by
  cases h with
  | module ht =>
      rcases moduleTarget_ok ht with ⟨folder, base, hfound⟩
      exact ⟨⟨hfound.roleName, hfound.accepted⟩, _, _, folder, base, hfound, rfl⟩
  | page ht =>
      rcases pageTarget_ok ht with ⟨folder, base, hfound, href, haccepted, -⟩
      exact ⟨⟨by rw [href]; exact hfound.roleName, haccepted⟩, _, _, folder, base, hfound, rfl⟩

/-- A tolerant removal of what is absent is an order to take the steps that remove it. -/
theorem order (h : Tolerated q role d c r x) (hgone : (isThere (r.own x)).on d = (.ok false, d)) :
    ∃ (k : Job Order) (o : Order), c.run q = k >>= q.carryOut ∧ k.on d = (.ok o, d)
      ∧ (o.plan = r.removalPlan x ∧ ∀ b, (o.answer b).registered = some b) ∧ (Command.delete c).Orders q d o
      ∧ (q.layout.Apart d.here → PlanOff (ownPlace d.here q.layout.root) d o) := by
  cases h with
  | module ht =>
      rename_i raw t
      rcases moduleTarget_ok ht with ⟨folder, base, hfound⟩
      have hown : t.registry.own (.module t.ref) = folder.below ["modules".toList, t.ref.segment] := by
        rw [Registry.own, hfound.registry_eq, Path.below_below]
        rfl
      rw [hown] at hgone
      have hordered : ∃ o, (q.moduleDeletion (some role) raw true).on d = (.ok o, d)
          ∧ o.plan = t.registry.removalPlan (.module t.ref) ∧ ∀ b, (o.answer b).registered = some b := by
        -- The target may be missing, so the deletion is planned all the same.
        rw [moduleDeletion, on_bind_ok ht, hfound.moduleFolder_eq, on_ofExcept_bind, on_bind_ok hgone, on_require,
          if_pos (by rfl), on_pure, Registry.removalPlan, hown]
        exact ⟨_, rfl, rfl, fun _ => rfl⟩
      rcases hordered with ⟨o, ho, hplan⟩
      exact ⟨_, o, rfl, ho, hplan, ho, fun hapart => (off_moduleDeletion hapart (some role) raw true).of_ok ho⟩
  | page ht =>
      rename_i module raw t
      rcases pageTarget_ok ht with ⟨folder, base, hfound, href, haccepted, -⟩
      have hown : t.within.registry.own (.page t.ref) = folder.below ["modules".toList, t.ref.module.segment,
          "pages".toList] / (t.ref.name ++ ".tsx".toList) := by
        rw [Registry.own, hfound.registry_eq, Path.div_name (isName_component haccepted.spelled.name), Path.below_below,
          Path.below_below]
        rfl
      rw [hown] at hgone
      have hordered : ∃ o, (q.pageDeletion (some role) module raw true).on d = (.ok o, d)
          ∧ o.plan = t.within.registry.removalPlan (.page t.ref) ∧ ∀ b, (o.answer b).registered = some b := by
        rw [pageDeletion, on_bind_ok ht, href, Layout.pagesFolder_eq hfound.folder_eq hfound.isName_segment,
          on_ofExcept_bind, ← href]
        dsimp only
        rw [on_bind_ok hgone, on_require, if_pos (by rfl), on_pure, Registry.removalPlan, hown]
        exact ⟨_, rfl, rfl, fun _ => rfl⟩
      rcases hordered with ⟨o, ho, hplan⟩
      exact ⟨_, o, rfl, ho, hplan, ho, fun hapart => (off_pageDeletion hapart (some role) module raw true).of_ok ho⟩

end Tolerated

namespace Seen

variable {q : Project} {role : Text} {dialect : Dialect} {folder : Path} {c : Deletion} {r : Registry} {x : Routed}

/-- Removing what a registry lacks leaves its text as it is. -/
theorem untouched_of_unlisted (h : Seen folder role dialect d) (hfolder : q.layout.roleFolder role = .ok folder)
    (htolerated : Tolerated q role d c r x) (hunlisted : r.Unlisted x d) : r.Untouched x d := by
  refine hunlisted.imp_left fun ⟨raw, hread, hlacks⟩ => ⟨raw, hread, fun e he => ?_⟩
  rcases htolerated.found with ⟨hbuilt, module, t, own, base, hfound, rfl⟩
  -- The registry is the one in the folder of this role.
  have hown : own = folder := by
    have := hfound.folder_eq
    rw [← Option.some.inj hfound.role_eq, hfolder] at this
    exact (Except.ok.inj this).symm
  subst hown
  cases hdialect : t.registry.dialect with
  | flat => exact hlacks.apply_flat hdialect hbuilt he _
  | marker =>
      -- In a marker registry the edits can only fail for a text that is no such registry.
      rcases h.registry with ⟨u, hshows, hregistry⟩
      rcases readRaw_ok hread with ⟨-, loc, content, hfind, hloc, hcontent⟩
      have hfile : (t.registry.guard x).file = own.below registryNames := by
        rw [t.registry.guard_file_marker hdialect]
        exact congrArg Registry.file hfound.registry_eq
      rw [hfile, h.registry_found, Except.ok.injEq] at hfind
      rw [← hfind, hregistry, Option.some.injEq, Entry.file.injEq] at hloc
      subst hloc
      rw [Content.read, Except.ok.injEq] at hcontent
      subst hcontent
      rw [toLf_of_no_return hshows.no_return] at hlacks ⊢
      rw [← (h.dialect_eq hfound).1, hdialect] at hshows
      rcases hshows with ⟨o, ⟨hsound, hpaged⟩, -, rfl⟩
      exact hlacks.apply_marker hdialect hsound hpaged hbuilt he _

variable {s : Settings} {now : Timestamp}

/-- Removing what is not there changes nothing, and answers that nothing was registered,
    if nothing of it is where it would be listed. -/
theorem History.tolerant_removal_idle (h : History root folder role dialect d) (hp : ofSettings s root now = .ok q)
    (hfolder : q.layout.roleFolder role = .ok folder) (horderly : d.Orderly root) (hapart : q.layout.Apart d.here)
    (htolerated : Tolerated q role d c r x) (hgone : (isThere (r.own x)).on d = (.ok false, d))
    (hunlisted : r.Unlisted x d) (hfresh : ∀ o, (Command.delete c).Orders q d o →
      d.tree.get? (spot d.here (q.journal.file (Intent.identifier o.verb o.args o.mode q.now))) = none) :
    ∃ a d', (c.run q).on d = (.ok a, d') ∧ a.registered = some false
      ∧ ∀ l, ¬ spot d.here q.layout.ownFolder <+: l → d'.tree.get? l = d.tree.get? l := by
  have hroot := root_of_settings hp
  have hj : q.journal.Set q.layout.root := (journal_of_settings hp).trans (Journal.set_intentsFolder q.layout true)
  subst hroot
  rcases htolerated.order hgone with ⟨k, o, hrun, ho, ⟨hplan, hanswer⟩, horders, hoff⟩
  have hidle : ∀ t ∈ o.plan, t.Idle d := by
    rw [hplan]
    exact Registry.idle_removalPlan hgone (h.seen.untouched_of_unlisted hfolder htolerated hunlisted)
  -- No step reaches the folder of the tool, or removes what leads to it.
  have hbeside : ∀ t ∈ o.plan, t.Beside d.here q.layout.root := by
    refine fun t ht => ⟨hoff hapart t ht, fun path missingOk heq => ?_⟩
    rw [heq, hplan] at ht
    rw [Registry.remove_mem_removalPlan ht]
    rcases htolerated.found with ⟨hbuilt, module, mt, own, base, hfound, rfl⟩
    have hown : mt.registry.own x = own.below ("modules".toList :: x.trail) := by
      rw [Registry.own, hfound.registry_eq, Path.below_below]
      rfl
    rw [hown] at hgone ⊢
    rcases hbuilt.trail_plain with ⟨hdots, hnull⟩
    exact not_onWay_of_absent horderly hfound.found (List.not_mem_cons_of_ne_of_not_mem (by decide) hdots)
      (List.forall_mem_cons.mpr ⟨by decide, hnull⟩) hgone
  rcases Journal.track_idle horderly hj (fun t ht => ⟨hbeside t ht, hidle t ht⟩) (hfresh o horders)
    with ⟨d', htrack, halike⟩
  -- With nothing to do, the answer says that nothing was registered.
  refine ⟨o.answer false, d', ?_, hanswer false, fun l hl => ?_⟩
  · rw [hrun, on_bind_ok ho, carryOut, on_bind_ok htrack]
    rfl
  · rw [ownFolder_eq] at hl
    exact (halike.tree l hl).symm

end Seen

namespace Tolerances

open Histories

/-- The removal of a page that has the name of its module, and is not there. -/
def namesake : Except Fault Artifact × Disk :=
  (project.deletePage (some "inst".toList) (some "a".toList) (some "a".toList) true).on withModule

/-- The project that the settings tell. -/
def told : Project :=
  ⟨.ofRoot Histories.root, .marker, ⟨(Layout.ofRoot Histories.root).intentsFolder, true⟩, Footprints.now⟩

/-- What the removal of a module finds. -/
def target : ModuleTarget :=
  ⟨⟨"inst".toList, "inst".toList⟩, ⟨"a".toList, "A".toList⟩,
    ⟨.marker, folder.below registryNames, folder.below ["modules".toList]⟩, ⟨"inst".toList, "a".toList, "A".toList⟩⟩

theorem history_ready : Seen.History Histories.root folder "inst".toList .marker ready := by
  have hj : project.journal.Set Histories.root := Journal.set_intentsFolder (.ofRoot Histories.root) false
  have hfolder : project.layout.roleFolder "inst".toList = .ok folder := rfl
  have hapart : ∀ s ∈ way Histories.empty.here folder,
      ¬ spot Histories.empty.here folder ++ ["modules".toList] <+: s := by
    decide
  rcases role_made with ⟨a, ha⟩
  rcases ready_as_made with ⟨-, hhere, hsame⟩
  refine .elsewhere (.created hj hfolder rfl hapart ha) hhere fun names hnames => hsame names (by simpa using hnames)

theorem orderly_ready : ready.Orderly Histories.root := by
  have hshelves : ∀ ys ∈ intentsWay.inits, ready.tree.get? (spot [] Histories.root ++ ys) = some .folder
      ∨ ready.tree.get? (spot [] Histories.root ++ ys) = none := by decide
  have hnames : ready.tree.namesIn (intentsPlace [] Histories.root) = [] := by decide
  refine ⟨by decide, by decide, by decide, by decide,
    roomy_of_short (by decide) (by decide) (by decide) (by decide),
    fun ys hys => hshelves ys ((List.mem_inits _ _).mpr hys), fun n hn => ?_⟩
  rw [show ready.here = [] from rfl, hnames] at hn
  exact absurd hn (by simp)

end Tolerances

open Tolerances Histories in
theorem tolerant_removal_idle_moduleA : ofSettings .defaults Histories.root Footprints.now = .ok told
    ∧ Tolerated told "inst".toList ready (.module (some "inst".toList) (some "a".toList) true) target.registry
      (.module target.ref)
    ∧ ∃ a d', ((Deletion.module (some "inst".toList) (some "a".toList) true).run told).on ready = (.ok a, d')
      ∧ a.registered = some false
      ∧ ∀ l, ¬ spot ready.here told.layout.ownFolder <+: l → d'.tree.get? l = ready.tree.get? l := by
  have hp : ofSettings .defaults Histories.root Footprints.now = .ok told := by decide +kernel
  have hapart : told.layout.Apart ready.here := by
    constructor
    all_goals
      intro path hpath
      rw [← Except.ok.inj hpath]
      exact off_iff.mpr (by decide)
  have htolerated : Tolerated told "inst".toList ready (.module (some "inst".toList) (some "a".toList) true)
      target.registry (.module target.ref) :=
    .module ((looks_moduleTarget _ _ _).on_eq (by decide +kernel))
  have hgone : (isThere (target.registry.own (.module target.ref))).on ready = (.ok false, ready) :=
    (looks_isThere _).on_eq (by decide +kernel)
  have hread : (readRaw (folder.below registryNames)).on ready
      = (.ok (Marker.outline "inst".toList []).text, ready) :=
    (looks_readRaw _).on_eq (by decide +kernel)
  refine ⟨hp, htolerated, history_ready.tolerant_removal_idle hp rfl orderly_ready hapart htolerated hgone
    (Or.inl ⟨_, hread, ?_, ?_⟩) fun o _ => ?_⟩
  · rw [toLf_of_no_return (by decide +kernel)]
    decide +kernel
  · rintro m hm -
    rw [← Routed.module.inj hm, toLf_of_no_return (by decide +kernel)]
    decide +kernel
  · -- The tool's own folder is absent.
    have hown : ready.tree.get? (ownPlace [] Histories.root) = none := by decide +kernel
    have hj : told.journal.Set Histories.root := Journal.set_intentsFolder (.ofRoot Histories.root) true
    rw [Journal.spot_file hj (Intent.isIdentifier _ _ _ _), ← List.append_assoc]
    exact orderly_ready.closed.get?_below hown own_prefix_document

open Tolerances Histories in
/-- A page is not there, but a module of its name is: its import is lost. -/
theorem removal_takes_namesake :
    withModule.tree.get? (place ++ ["modules".toList, "a".toList, "pages".toList, "A.tsx".toList]) = none
      ∧ namesake.1.toOption.bind Artifact.registered = some true
      ∧ namesake.2.tree.get? (place ++ registryNames) ≠ withModule.tree.get? (place ++ registryNames) := by
  decide +kernel

end RouteScaffold
