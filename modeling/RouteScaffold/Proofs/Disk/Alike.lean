import RouteScaffold.Proofs.Disk.Clear
import RouteScaffold.Proofs.Disk.Exchange

/-!
# Disks That Differ in One Folder

Two disks are alike but for a folder if they hold the same at every place that
does not lie in it. A job is blind to the folder if it cannot tell such disks
apart: it answers the same on both, and leaves them alike.

A path that no part of leads into the folder is found on both disks or refused on
both, for the same reason. So every single job that is given such a path is
blind, and so is whatever is put together from blind jobs.

## Main definitions

* `Disk.Alike`: Two disks that hold the same outside a folder.
* `Disk.Off`: A path that does not lead into a folder.
* `Job.Match`: Two jobs that do the same on disks that are alike.
* `Job.Blind`: A job that cannot tell such disks apart.

## Theorems

* `Off.below`: A path that goes on straight does not lead into the folder.
* `Alike.find_eq`, `Alike.replaceable_eq`: What such a path leads to.
* `Match.bind_of`: Jobs one after another.
* `Blind.match`: A blind job may rely on what it leaves as it is.
* `blind_folders`, `blind_newFile`, `blind_edit`, `blind_remove`: The single jobs
  are blind.
-/

namespace RouteScaffold

open Location

namespace Tree

variable {t t' : Tree} {l : Location}

/-- A walk depends on the folders it goes through only. -/
theorem walk_congr {loc : Location} {names : List Text}
    (h : ∀ s ∈ stations loc names, t.get? s = t'.get? s) : t.walk loc names = t'.walk loc names := by
  induction names generalizing loc with
  | nil => rfl
  | cons name names ih =>
      rw [walk_cons, walk_cons, h loc (by simp [stations])]
      split
      · split
        · rfl
        · exact ih fun s hs => h s (by simp [stations, hs])
      · rfl
      · rfl

/-- What a write leaves at a place depends on what was there only. -/
theorem get?_apply_congr (h : t.get? l = t'.get? l) (w : Write) :
    (t.apply w).get? l = (t'.apply w).get? l := by
  by_cases hl : l = []
  · subst hl
    simp
  · simp only [get?, hl, if_false] at h
    cases w with
    | put loc entry =>
        simp only [apply, put, get?, hl, if_false, entryAt_putAt, h]
    | erase loc =>
        simp only [apply, erase, get?, hl, if_false, entryAt_filter, h]

/-- What is left when everything below a place has been erased. -/
theorem get?_erased (t : Tree) (loc l : Location) :
    (t.applyAll ((t.below loc).map .erase)).get? l
      = if loc <+: l ∧ loc ≠ l then none else t.get? l := by
  rw [get?_applyAll_erase]
  by_cases hbelow : loc <+: l ∧ loc ≠ l
  · rw [if_pos hbelow]
    split
    · rfl
    · next hnot =>
        have hl : l ≠ [] := by
          rintro rfl
          exact hbelow.2 (List.prefix_nil.mp hbelow.1)
        by_contra hthere
        exact hnot ⟨mem_below hthere hbelow.1 hbelow.2, hl⟩
  · rw [if_neg hbelow, if_neg fun hand => hbelow (below_of_mem hand.1)]

/-- What every write of a run preserves of a disk. -/
theorem Runs.after_preserves {R : Tree → Write → Prop} {I : Disk → Prop} {d : Disk} {ws : List Write}
    (hws : d.tree.Runs R ws) (h : I d) (hstep : ∀ d w, I d → R d.tree w → I (d.made w)) :
    I (d.after ws) := by
  induction ws generalizing d with
  | nil => exact h
  | cons w ws ih => exact ih hws.2 (hstep d w h hws.1)

end Tree

namespace Disk

/-- Two disks that hold the same everywhere but in a folder. -/
structure Alike (own : Location) (d e : Disk) : Prop where
  here : d.here = e.here
  tree : ∀ l, ¬ own <+: l → d.tree.get? l = e.tree.get? l

/-- A path of which no part leads into a folder. -/
def Off (own here : Location) (p : Path) : Prop := ∀ l, own <+: l → Clear here p l

variable {own here : Location} {p : Path} {d e f : Disk}

/-! ### Paths that do not lead into a folder -/

theorem Off.parent (h : Off own here p) : Off own here p.parent := fun l hl => (h l hl).parent

theorem Off.of_prefix (h : Off own here p) {names : List Text} (hnames : names <+: p.names) :
    Off own here ⟨p.anchor, names⟩ := fun l hl names' hnames' => h l hl names' (hnames'.trans hnames)

theorem Off.spot (h : Off own here p) : ¬ own <+: spot here p := fun hown => (h _ hown).spot_ne rfl

theorem Off.way (h : Off own here p) : ∀ s ∈ way here p, ¬ own <+: s := by
  intro s hs hown
  rcases exists_of_mem_stations hs with ⟨xs, n, ys, hnames, rfl⟩
  exact h _ hown xs ⟨n :: ys, hnames.symm⟩ rfl

theorem off_iff : Off own here p ↔ (∀ s ∈ Disk.way here p, ¬ own <+: s) ∧ ¬ own <+: Disk.spot here p := by
  refine ⟨fun h => ⟨h.way, h.spot⟩, fun ⟨hway, hspot⟩ l hl names hnames heq => ?_⟩
  rcases hnames with ⟨rest, hrest⟩
  cases rest with
  | nil =>
      rw [List.append_nil] at hrest
      rw [show (⟨p.anchor, names⟩ : Path) = p by rw [hrest]] at heq
      exact hspot (heq ▸ hl)
  | cons n rest =>
      refine hway l ?_ hl
      rw [Disk.way, ← hrest, ← heq]
      exact place_mem_stations _ names n rest

/-- A path that goes on straight leads into the folder only by its name. -/
theorem Off.below {base : Location} {name : Text} (h : Off (base ++ [name]) here p) {names : List Text}
    (hdots : ['.', '.'] ∉ names) (hname : name ∉ names) : Off (base ++ [name]) here (p.below names) := by
  refine fun l hl => clear_below hdots (h l hl) fun ys hys _ heq => ?_
  rw [← heq] at hl
  rcases List.prefix_or_prefix_of_prefix hl (List.prefix_append _ ys) with hpre | ⟨zs, hzs⟩
  · exact h.spot hpre
  · -- What the folder has more than the place is a beginning of the names.
    have hpre : zs <+: ys := by
      rw [← hzs] at hl
      exact (List.prefix_append_right_inj _).mp hl
    cases hrev : zs.reverse with
    | nil =>
        rw [List.reverse_eq_nil_iff] at hrev
        rw [hrev, List.append_nil] at hzs
        exact h.spot (hzs ▸ List.prefix_refl _)
    | cons z rest =>
        have hz : zs = rest.reverse ++ [z] := by
          rw [← List.reverse_reverse zs, hrev, List.reverse_cons]
        rw [hz, ← List.append_assoc] at hzs
        rcases List.append_inj' hzs rfl with ⟨-, hlast⟩
        rw [List.singleton_inj] at hlast
        -- What remains ends in the name of the folder, and that is not among the names.
        refine hname (hys.subset (hpre.subset ?_))
        rw [hz, hlast]
        simp

/-! ### What such a path leads to -/

namespace Alike

theorem refl (own : Location) (d : Disk) : d.Alike own d := ⟨rfl, fun _ _ => rfl⟩

theorem symm (h : d.Alike own e) : e.Alike own d := ⟨h.here.symm, fun l hl => (h.tree l hl).symm⟩

theorem trans (h : d.Alike own e) (h' : e.Alike own f) : d.Alike own f :=
  ⟨h.here.trans h'.here, fun l hl => (h.tree l hl).trans (h'.tree l hl)⟩

theorem made (h : d.Alike own e) (w : Write) : (d.made w).Alike own (e.made w) :=
  ⟨h.here, fun l hl => Tree.get?_apply_congr (h.tree l hl) w⟩

variable (h : d.Alike own e) (hp : Off own d.here p)
include h hp

theorem find_eq : d.find p = e.find p := by
  have horigin : e.origin p = d.origin p := by rw [origin, origin, h.here]
  rw [find, find, horigin]
  split
  · rfl
  · exact Tree.walk_congr fun s hs => h.tree s (hp.way s hs)

theorem get?_of_find {loc : Location} (hfind : d.find p = .ok loc) :
    d.tree.get? loc = e.tree.get? loc := h.tree loc (by rw [spot_of_find hfind]; exact hp.spot)

theorem look_eq : d.look p = e.look p := by
  rw [look, look, ← h.find_eq hp]
  split
  · next hfind => rw [h.get?_of_find hp hfind]
  · rfl
  · rfl

theorem vacant_eq : d.vacant p = e.vacant p := by
  rw [vacant, vacant, ← h.find_eq hp]
  split
  · next hfind => rw [h.get?_of_find hp hfind]
  · rfl

theorem opened_eq : d.opened p = e.opened p := by
  rw [opened, opened, ← h.find_eq hp]
  split
  · rfl
  · next hfind => rw [h.get?_of_find hp hfind]

theorem writable_eq : d.writable p = e.writable p := by
  rw [writable, writable, ← h.find_eq hp]
  split
  · rfl
  · next hfind => rw [h.get?_of_find hp hfind]

/-- The file aside is looked up in the folder in which the path lies. -/
theorem replaceable_eq (hdots : ∀ n ∈ d.here, n ≠ ['.', '.']) : d.replaceable p = e.replaceable p := by
  have haside : d.find (d.aside p) = e.find (e.aside p) := by
    rw [show e.aside p = d.aside p by rw [aside, aside, h.here], find, find]
    split
    · rfl
    · refine Tree.walk_congr fun s hs => h.tree s fun hown => hp.parent.spot ?_
      rw [aside_eq hdots] at hs
      rcases exists_of_mem_stations hs with ⟨xs, n, ys, hnames, rfl⟩
      have hup : ['.', '.'] ∉ Disk.spot d.here p.parent := by
        intro hmem
        rcases mem_place hmem with hmem | ⟨-, hne⟩
        · split at hmem
          · exact hdots _ hmem rfl
          · exact absurd hmem (by simp)
        · exact hne rfl
      -- A station of the path aside is a beginning of the place of the folder.
      have hxs : xs <+: Disk.spot d.here p.parent := by
        rcases List.append_eq_append_iff.mp hnames with ⟨zs, hxs, hzs⟩ | ⟨zs, hxs, -⟩
        · cases zs with
          | nil => exact ⟨[], by simpa using hxs⟩
          | cons z zs =>
              have := congrArg List.length hzs
              simp at this
        · exact ⟨zs, hxs.symm⟩
      rw [place_of_names fun hmem => hup (hxs.subset hmem)] at hown
      exact hown.trans hxs
  rw [replaceable, replaceable, ← haside, ← h.find_eq hp]
  split
  · rfl
  · rfl
  · next hfind => rw [h.get?_of_find hp hfind]

end Alike

end Disk

namespace Job

open Disk

variable {α β : Type} {own here : Location} {p : Path}

/-- Two jobs that answer the same on disks that hold the same outside a folder, and
    leave them alike, as long as both disks are of some sort. -/
def Match (own : Location) (I : Disk → Prop) (j k : Job α) : Prop := ∀ d e, I d → I e →
  d.Alike own e → ∃ r d' e', j.on d = (r, d') ∧ k.on e = (r, e') ∧ I d' ∧ I e' ∧ d'.Alike own e'

/-- A job that cannot tell apart disks that hold the same outside a folder. -/
def Blind (own here : Location) (j : Job α) : Prop := Match own (fun d => d.here = here) j j

variable {I : Disk → Prop}

theorem match_pure (a : α) : Match own I (pure a : Job α) (pure a) := fun d e hd he h =>
  ⟨.ok a, d, e, rfl, rfl, hd, he, h⟩

theorem match_fail (f : Fault) : Match own I (fail f : Job α) (fail f) := fun d e hd he h =>
  ⟨.error f, d, e, rfl, rfl, hd, he, h⟩

/-- Jobs one after another, which may rely on what the first ones answer. -/
theorem Match.bind_of {j k : Job α} {f g : α → Job β} (hj : Match own I j k)
    (hf : ∀ a d d', I d → j.on d = (.ok a, d') → Match own I (f a) (g a)) :
    Match own I (j >>= f) (k >>= g) := by
  intro d e hd he h
  rcases hj d e hd he h with ⟨r, d', e', hjd, hke, hd', he', h'⟩
  cases r with
  | error f => exact ⟨.error f, d', e', on_bind_error hjd, on_bind_error hke, hd', he', h'⟩
  | ok a =>
      rw [on_bind_ok hjd, on_bind_ok hke]
      exact hf a d d' hd hjd d' e' hd' he' h'

theorem Match.bind {j k : Job α} {f g : α → Job β} (hj : Match own I j k)
    (hf : ∀ a, Match own I (f a) (g a)) : Match own I (j >>= f) (k >>= g) :=
  hj.bind_of fun a _ _ _ _ => hf a

/-- A blind job matches itself, if what it writes leaves disks of their sort. -/
theorem Blind.match {R : Tree → Write → Prop} {j : Job α} (hj : Blind own here j) (hdoes : Does here R j)
    (hhere : ∀ d, I d → d.here = here) (hI : ∀ d w, I d → R d.tree w → I (d.made w)) :
    Match own I j j := by
  have hafter : ∀ d, I d → I (j.on d).2 := by
    intro d hd
    rcases hdoes d (hhere d hd) with ⟨ws, hws, hruns⟩
    rw [hws]
    exact hruns.after_preserves hd hI
  intro d e hd he h
  rcases hj d e (hhere d hd) (hhere e he) h with ⟨r, d', e', hjd, hje, -, -, h'⟩
  refine ⟨r, d', e', hjd, hje, ?_, ?_, h'⟩
  · have := hafter d hd
    rwa [hjd] at this
  · have := hafter e he
    rwa [hje] at this

theorem blind_pure (a : α) : Blind own here (pure a : Job α) := match_pure a

theorem blind_fail (f : Fault) : Blind own here (fail f : Job α) := match_fail f

theorem blind_ofExcept (r : Except Fault α) : Blind own here (ofExcept r) := by
  cases r with
  | ok a => exact blind_pure a
  | error f => exact blind_fail f

theorem Blind.bind {j : Job α} {k : α → Job β} (hj : Blind own here j)
    (hk : ∀ a, Blind own here (k a)) : Blind own here (j >>= k) := Match.bind hj hk

theorem blind_ask {question : Disk → Path → Except SystemError α}
    (h : ∀ d e, d.here = here → d.Alike own e → question d p = question e p) :
    Blind own here (ask question p) := by
  intro d e hd he hde
  unfold ask
  rw [on_get_bind, on_get_bind, ← h d e hd hde]
  cases question d p with
  | ok a => exact blind_pure a d e hd he hde
  | error f => exact blind_fail _ d e hd he hde

theorem blind_write (w : Write) : Blind own here (write w) := fun d e hd he h =>
  ⟨.ok (), d.made w, e.made w, on_write w d, on_write w e, hd, he, h.made w⟩

theorem Blind.ite {j k : Job α} {c : Prop} [Decidable c] (hj : c → Blind own here j)
    (hk : ¬c → Blind own here k) : Blind own here (if c then j else k) := by
  split
  · next hc => exact hj hc
  · next hc => exact hk hc

theorem Blind.refuse {c : Prop} [Decidable c] {f : Fault} {k : Job α} (hk : ¬c → Blind own here k) :
    Blind own here (do
      if c then fail f
      k) := by
  intro d e hd he h
  rw [on_refuse, on_refuse]
  split
  · exact match_fail f d e hd he h
  · next hc => exact hk hc d e hd he h

theorem Blind.require {c : Prop} [Decidable c] {f : Fault} {k : Job α} (hk : c → Blind own here k) :
    Blind own here (do
      unless c do fail f
      k) := by
  intro d e hd he h
  rw [on_require, on_require]
  split
  · next hc => exact hk hc d e hd he h
  · exact match_fail f d e hd he h

/-! ### The single jobs -/

section Single

variable (hp : Off own here p)
include hp

theorem blind_isThere : Blind own here (isThere p) :=
  (blind_ask fun _ _ hhere h => h.look_eq (hhere ▸ hp)).bind fun _ => blind_pure _

theorem blind_isFolder : Blind own here (isFolder p) :=
  (blind_ask fun _ _ hhere h => h.look_eq (hhere ▸ hp)).bind fun _ => blind_pure _

theorem blind_folder : Blind own here (folder p) := by
  intro d e hd he h
  rw [folder, on_get_bind, on_get_bind, ← h.vacant_eq (hd ▸ hp)]
  split
  · exact blind_write _ d e hd he h
  · exact blind_fail _ d e hd he h
  · exact (blind_isFolder hp).bind (fun b => .ite (fun _ => blind_pure _) fun _ => blind_fail _)
      d e hd he h

theorem blind_foldersFrom (depth : Nat) : Blind own here (foldersFrom depth p) := by
  induction depth generalizing p with
  | zero => exact blind_folder hp
  | succ depth ih =>
      intro d e hd he h
      rw [foldersFrom, on_get_bind, on_get_bind, ← h.vacant_eq (hd ▸ hp)]
      split
      · exact (ih hp.parent).bind (fun _ => blind_folder hp) d e hd he h
      · exact blind_folder hp d e hd he h

theorem blind_folders : Blind own here (folders p) := blind_foldersFrom hp _

omit hp in
theorem blind_decoded (c : Content) : Blind own here (decoded c) := by
  rw [decoded]
  split
  · exact blind_pure _
  · exact blind_fail _

theorem blind_readRaw : Blind own here (readRaw p) := by
  refine (blind_ask fun _ _ hhere h => h.look_eq (hhere ▸ hp)).bind fun entry => ?_
  split
  · exact blind_decoded _
  · exact blind_fail _

theorem blind_writeText (t : Text) : Blind own here (writeText p t) :=
  (blind_ask fun _ _ hhere h => h.writable_eq (hhere ▸ hp)).bind fun _ => blind_write _

theorem blind_newFile (t : Text) : Blind own here (newFile p t) :=
  (blind_isThere hp).bind fun _ => .refuse fun _ =>
    (blind_folders hp.parent).bind fun _ => blind_writeText hp t

theorem blind_unlink : Blind own here (unlink p) :=
  (blind_ask fun _ _ hhere h => h.opened_eq (hhere ▸ hp)).bind fun _ => blind_write _

theorem blind_removeEmptied : Blind own here (removeEmptied p) := by
  have hask : Blind own here (ask Disk.find p) := blind_ask fun _ _ hhere h => h.find_eq (hhere ▸ hp)
  exact .refuse fun _ => hask.bind fun _ => blind_write _

/-- Everything below a place is erased on both disks, whatever the order. -/
theorem blind_removeTree : Blind own here (removeTree p) := by
  have hask : Blind own here (ask Disk.find p) := blind_ask fun _ _ hhere h => h.find_eq (hhere ▸ hp)
  refine hask.bind fun loc d e hd he h => ?_
  rw [on_get_bind, on_get_bind, on_bind_ok (on_forM_erase _ d), on_bind_ok (on_forM_erase _ e)]
  refine blind_removeEmptied hp _ _ ((after_here _ _).trans hd) ((after_here _ _).trans he)
    ⟨?_, fun l hl => ?_⟩
  · rw [after_here, after_here, h.here]
  · rw [after_tree, after_tree, Tree.get?_erased, Tree.get?_erased, h.tree l hl]

theorem blind_remove (missingOk : Bool) : Blind own here (remove p missingOk) := by
  refine (blind_isThere hp).bind fun there => ?_
  refine .ite (fun _ => .ite (fun _ => blind_pure _) fun _ => blind_fail _) fun _ => ?_
  refine (blind_isFolder hp).bind fun _ => .ite (fun _ => ?_) fun _ => ?_
  · exact (blind_removeTree hp).bind fun _ => blind_pure _
  · exact (blind_unlink hp).bind fun _ => blind_pure _

variable (hdots : ∀ n ∈ here, n ≠ ['.', '.'])
include hdots

theorem blind_replace (t : Text) : Blind own here (replace p t) :=
  (blind_ask fun _ _ hhere h => h.replaceable_eq (hhere ▸ hp) (hhere ▸ hdots)).bind fun _ => blind_write _

theorem blind_edit (e : Edit) : Blind own here (edit p e) := by
  have hsupply : Blind own here (supply p) := (blind_isThere hp).bind fun _ =>
    .ite (fun _ => blind_pure _) fun _ => (blind_folders hp.parent).bind fun _ => blind_writeText hp _
  have hexisting : Blind own here (editExisting p e) := by
    refine (blind_readRaw hp).bind fun raw => (blind_ofExcept _).bind fun written => ?_
    split
    · exact (blind_replace hp hdots _).bind fun _ => blind_pure _
    · exact blind_pure _
  rw [edit]
  split
  · exact hsupply.bind fun _ => hexisting
  · exact hexisting

end Single

end Job

end RouteScaffold
