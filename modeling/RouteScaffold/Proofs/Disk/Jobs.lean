import Mathlib.Tactic.Tauto
import RouteScaffold.Proofs.Disk.Runs

/-!
# What Single Jobs Do

Each of the small jobs on a disk, by its writes: what they are, and where. A
job that is given a path writes where the path leads, or, when it makes the
folders before it, where a part of the path leads; a job that removes a path
erases where it leads and below.

## Main definitions

* `Disk.spot`: Where a path leads, if it leads anywhere.
* `Disk.way`: The folders through which it leads.
* `Job.erasures`: What removing erases.

## Theorems

* `does_folders`, `does_newFile`, `does_replace`, `does_remove`: The writes of
  single jobs.
* `on_replace`: When a file is exchanged, and what a disk is then.
* `on_remove_of_present`: What is there is removed, unless the path to it leads
  through what lies below it.
-/

namespace RouteScaffold

open Location

namespace Disk

/-- Where a path leads, if it leads anywhere. -/
def spot (here : Location) (p : Path) : Location :=
  place (match p.anchor with | .here => here | _ => []) p.names

/-- The folders in which the names of a path are looked up. -/
def way (here : Location) (p : Path) : List Location :=
  stations (match p.anchor with | .here => here | _ => []) p.names

variable {d : Disk} {p : Path} {loc : Location}

theorem find_eq (h : d.find p = .ok loc) :
    unwalkable? p = none ∧ d.tree.walk (d.origin p) p.names = .ok loc := by
  rw [find] at h
  split at h
  · exact absurd h (by simp)
  · next hw => exact ⟨hw, h⟩

theorem spot_of_find (h : d.find p = .ok loc) : loc = spot d.here p :=
  Tree.place_of_walk (find_eq h).2

theorem way_of_find (h : d.find p = .ok loc) : ∀ s ∈ way d.here p, d.tree.get? s = some .folder :=
  (Tree.walk_eq_ok.mp (find_eq h).2).1

/-- What is found is found in every tree that has the same folders. -/
theorem find_of_folders {d' : Disk} (h : d.find p = .ok loc) (hhere : d'.here = d.here)
    (hkeep : ∀ s ∈ way d.here p, d'.tree.get? s = some .folder) : d'.find p = .ok loc := by
  have hfind := find_eq h
  have horigin : d'.origin p = d.origin p := by
    rw [origin, origin, hhere]
  rw [find, hfind.1]
  dsimp only
  rw [horigin]
  have hwalk := Tree.walk_eq_ok.mp hfind.2
  exact Tree.walk_eq_ok.mpr ⟨hkeep, hwalk.2⟩

/-- What is found is still found after folders have been lost, or the path leads
    through nothing. -/
theorem find_of_fewer {d' : Disk} (h : d.find p = .ok loc) (hhere : d'.here = d.here)
    (hkeep : ∀ l, d.tree.get? l = some .folder →
      d'.tree.get? l = some .folder ∨ d'.tree.get? l = none) :
    d'.find p = .ok loc ∨ d'.find p = .error .missing := by
  have hfind := find_eq h
  have horigin : d'.origin p = d.origin p := by
    rw [origin, origin, hhere]
  rw [find, hfind.1]
  dsimp only
  rw [horigin]
  exact Tree.walk_of_fewer hfind.2 hkeep

theorem vacant_eq (h : d.vacant p = .ok loc) : d.find p = .ok loc ∧ d.tree.get? loc = none := by
  rw [vacant] at h
  split at h
  · next l hl =>
      split at h
      · exact absurd h (by simp)
      · next hnone =>
          rw [Except.ok.injEq] at h
          subst h
          exact ⟨hl, by simpa using hnone⟩
  · exact absurd h (by simp)

theorem opened_eq {c : Content} (h : d.opened p = .ok (loc, c)) :
    d.find p = .ok loc ∧ d.tree.get? loc = some (.file c) := by
  rw [opened] at h
  split at h
  · exact absurd h (by simp)
  · next l hl =>
      split at h
      · next c' hc =>
          rw [Except.ok.injEq, Prod.mk.injEq] at h
          rcases h with ⟨rfl, rfl⟩
          exact ⟨hl, hc⟩
      · exact absurd h (by simp)
      · exact absurd h (by simp)

theorem opened_of_find {c : Content} (h : d.find p = .ok loc) (hfile : d.tree.get? loc = some (.file c)) :
    d.opened p = .ok (loc, c) := by
  rw [opened, h]
  dsimp only
  rw [hfile]

theorem writable_eq (h : d.writable p = .ok loc) :
    d.find p = .ok loc ∧ d.tree.get? loc ≠ some .folder := by
  rw [writable] at h
  split at h
  · exact absurd h (by simp)
  · next l hl =>
      split at h
      · exact absurd h (by simp)
      · next hne =>
          rw [Except.ok.injEq] at h
          subst h
          exact ⟨hl, hne⟩

theorem replaceable_eq (h : d.replaceable p = .ok loc) :
    d.find p = .ok loc ∧ d.tree.get? loc ≠ some .folder ∧ ∃ l, d.find (d.aside p) = .ok l := by
  rw [replaceable] at h
  split at h
  · exact absurd h (by simp)
  · exact absurd h (by simp)
  · next l l' hl hl' =>
      split at h
      · exact absurd h (by simp)
      · split at h
        · exact absurd h (by simp)
        · next hne =>
            rw [Except.ok.injEq] at h
            subst h
            exact ⟨hl', hne, l, hl⟩

/-- What lets a file be exchanged once lets it be exchanged again, as long as
    there are the same folders. -/
theorem replaceable_of_folders {d' : Disk} (h : d.replaceable p = .ok loc) (hhere : d'.here = d.here)
    (hkeep : ∀ l, d.tree.get? l = some .folder → d'.tree.get? l = some .folder)
    (hfile : d'.tree.get? loc ≠ some .folder) : d'.replaceable p = .ok loc := by
  rcases replaceable_eq h with ⟨hfind, hne, l, haside⟩
  -- A path that ends in dots would have been refused before.
  have hlast : p.names.getLast?.all (· = ['.', '.']) = false := by
    cases hl : p.names.getLast?.all (· = ['.', '.']) with
    | false => rfl
    | true =>
        rw [replaceable, haside, hfind] at h
        dsimp only at h
        rw [hl, if_pos rfl] at h
        exact absurd h (by simp)
  have haside' : d'.aside p = d.aside p := by
    rw [aside, aside, hhere]
  have hfind' := find_of_folders hfind hhere fun s hs => hkeep s (way_of_find hfind s hs)
  -- The exchange is made aside, where the same folders are walked through.
  have haside'' := find_of_folders haside hhere fun s hs => hkeep s (way_of_find haside s hs)
  rw [replaceable, haside', haside'', hfind']
  dsimp only
  rw [hlast, if_neg (by simp), if_neg hfile]

theorem look_eq_some {e : Entry} : d.look p = .ok (some e) ↔
    ∃ loc, d.find p = .ok loc ∧ d.tree.get? loc = some e := by
  rw [look]
  constructor
  · intro h
    split at h
    · next l hl => exact ⟨l, hl, Except.ok.inj h⟩
    · exact absurd h (by simp)
    · exact absurd h (by simp)
  · rintro ⟨l, hl, he⟩
    rw [hl, ← he]

end Disk

namespace Job

open Disk

variable {α : Type} {here : Location} {R : Tree → Write → Prop} {d : Disk} {p : Path}

/-! ### Looking -/

/-- Looking at a path changes nothing. -/
theorem on_isThere (p : Path) (d : Disk) : (isThere p).on d = match d.look p with
    | .ok e => (.ok e.isSome, d)
    | .error e => (.error (.system e p.text), d) := by
  rw [isThere, on_bind, on_ask]
  cases d.look p <;> rfl

theorem on_isFolder (p : Path) (d : Disk) : (isFolder p).on d = match d.look p with
    | .ok e => (.ok (decide (e = some .folder)), d)
    | .error e => (.error (.system e p.text), d) := by
  rw [isFolder, on_bind, on_ask]
  cases d.look p <;> rfl

theorem looks_isThere (p : Path) : Looks (isThere p) := fun d => by
  rw [on_isThere]
  cases d.look p <;> rfl

theorem looks_isFolder (p : Path) : Looks (isFolder p) := fun d => by
  rw [on_isFolder]
  cases d.look p <;> rfl

theorem does_isThere : Does here R (isThere p) := (looks_isThere p).does

theorem does_isFolder : Does here R (isFolder p) := (looks_isFolder p).does

/-- What looking for something finds out. -/
theorem isThere_iff {b : Bool} (h : (isThere p).on d = (.ok b, d)) :
    b = true ↔ ∃ loc, d.find p = .ok loc ∧ d.tree.get? loc ≠ none := by
  rw [on_isThere] at h
  split at h
  -- What is seen is what the path leads to, if it leads anywhere.
  · next e he =>
      rw [Prod.mk.injEq, Except.ok.injEq] at h
      rw [← h.1, Option.isSome_iff_exists]
      constructor
      · rintro ⟨x, rfl⟩
        rcases look_eq_some.mp he with ⟨loc, hfind, hloc⟩
        exact ⟨loc, hfind, by rw [hloc]; simp⟩
      · rintro ⟨loc, hfind, hloc⟩
        rcases Option.ne_none_iff_exists'.mp hloc with ⟨x, hx⟩
        rw [look_eq_some.mpr ⟨loc, hfind, hx⟩, Except.ok.injEq] at he
        exact ⟨x, he.symm⟩
  · exact absurd h (by simp)

theorem isFolder_iff {b : Bool} (h : (isFolder p).on d = (.ok b, d)) :
    b = true ↔ ∃ loc, d.find p = .ok loc ∧ d.tree.get? loc = some .folder := by
  rw [on_isFolder] at h
  split at h
  · next e he =>
      rw [Prod.mk.injEq, Except.ok.injEq] at h
      rw [← h.1, decide_eq_true_eq]
      constructor
      · rintro rfl
        exact look_eq_some.mp he
      · intro hfolder
        rw [look_eq_some.mpr hfolder, Except.ok.injEq] at he
        exact he.symm
  · exact absurd h (by simp)

/-- Reading a source file changes nothing. -/
theorem on_readRaw (p : Path) (d : Disk) : (readRaw p).on d = match d.look p with
    | .ok (some (.file c)) => match c.read with
      | .ok t => (.ok t, d)
      | .error f => (.error (.undecodable f), d)
    | .ok _ => (.error (.notFound p.text), d)
    | .error e => (.error (.system e p.text), d) := by
  rw [readRaw, on_bind, on_ask]
  cases hlook : d.look p with
  | error e => rfl
  | ok e =>
      cases e with
      | none => rfl
      | some e =>
          -- Only the content of a file depends on anything further.
          cases e with
          | folder => rfl
          | file c =>
              change (decoded c).on d = _
              rw [decoded]
              dsimp only
              cases c.read <;> rfl

theorem looks_readRaw (p : Path) : Looks (readRaw p) := fun d => by
  rw [on_readRaw]
  split
  · split <;> rfl
  · rfl
  · rfl

theorem does_readRaw : Does here R (readRaw p) := (looks_readRaw p).does

/-- Reading a document changes nothing. -/
theorem on_readText (p : Path) (d : Disk) : (readText p).on d = match d.opened p with
    | .ok (_, c) => match c.read with
      | .ok t => (.ok t.unifyEndings, d)
      | .error f => (.error (.undecodable f), d)
    | .error e => (.error (.system e p.text), d) := by
  rw [readText, on_bind, on_ask]
  cases ho : d.opened p with
  | error e => rfl
  | ok o =>
      rcases o with ⟨loc, c⟩
      dsimp only
      rw [on_bind, decoded]
      cases c.read <;> rfl

theorem looks_readText (p : Path) : Looks (readText p) := fun d => by
  rw [on_readText]
  split
  · split <;> rfl
  · rfl

theorem on_readRaw_text {loc : Location} {t : Text} (h : d.find p = .ok loc)
    (ht : d.tree.get? loc = some (.file (.text t))) : (readRaw p).on d = (.ok t, d) := by
  rw [on_readRaw, look_eq_some.mpr ⟨loc, h, ht⟩]
  rfl

/-! ### Making -/

theorem does_folder (h : ∀ (d : Disk) loc, d.here = here → d.vacant p = .ok loc →
    R d.tree (.put loc .folder)) : Does here R (folder p) := by
  intro d hhere
  rw [folder, on_get_bind]
  cases hv : d.vacant p with
  | ok loc => exact ⟨[.put loc .folder], rfl, .singleton (h d loc hhere hv)⟩
  | error e =>
      have hunless : ∀ f, Does here R (do
          unless ← isFolder p do fail f : Job Unit) := fun f =>
        does_isFolder.bind fun b => .ite (fun _ => does_pure _) fun _ => does_fail _
      cases e <;> first | exact does_fail _ d hhere | exact hunless _ d hhere

/-- Making folders makes them where parts of the path lead. -/
theorem does_foldersFrom (depth : Nat) (h : ∀ n, n ≤ depth → ∀ (d : Disk) loc, d.here = here →
    d.vacant ⟨p.anchor, p.names.take (p.names.length - n)⟩ = .ok loc → R d.tree (.put loc .folder)) :
    Does here R (foldersFrom depth p) := by
  induction depth generalizing p with
  | zero =>
      have hwhole := h 0 (Nat.le_refl 0)
      rw [Nat.sub_zero, List.take_length] at hwhole
      exact does_folder hwhole
  | succ depth ih =>
      have hwhole := h 0 (Nat.zero_le _)
      rw [Nat.sub_zero, List.take_length] at hwhole
      -- The folders before are the paths that have one name less, one step down.
      have hparent : Does here R (foldersFrom depth p.parent) := by
        apply ih
        intro n hn d loc hhere hv
        apply h (n + 1) (by omega) d loc hhere
        rw [show p.parent = ⟨p.anchor, p.names.dropLast⟩ from rfl] at hv
        have : p.names.dropLast.take (p.names.dropLast.length - n)
            = p.names.take (p.names.length - (n + 1)) := by
          rw [List.dropLast_eq_take, List.take_take, List.length_take]
          congr 1
          omega
        rw [← this]
        exact hv
      intro d hhere
      rw [foldersFrom, on_get_bind]
      split
      · exact (hparent.bind fun _ => does_folder hwhole) d hhere
      · exact does_folder hwhole d hhere

theorem does_folders (h : ∀ names, names <+: p.names → ∀ (d : Disk) loc, d.here = here →
    d.vacant ⟨p.anchor, names⟩ = .ok loc → R d.tree (.put loc .folder)) :
    Does here R (folders p) :=
  does_foldersFrom _ fun _ _ => h _ (List.take_prefix _ _)

theorem does_writeText {t : Text} (h : ∀ (d : Disk) loc, d.here = here → d.writable p = .ok loc →
    R d.tree (.put loc (.file (.text t)))) : Does here R (writeText p t) := by
  intro d hhere
  rw [writeText, on_bind, on_ask]
  cases hw : d.writable p with
  | error e => exact ⟨[], rfl, trivial⟩
  | ok loc => exact ⟨[.put loc (.file (.text t))], rfl, .singleton (h d loc hhere hw)⟩

/-- When a file is exchanged, and what the disk is then. -/
theorem on_replace (p : Path) (t : Text) (d : Disk) : (replace p t).on d = match d.replaceable p with
    | .ok loc => (.ok (), d.made (.put loc (.file (.text t))))
    | .error e => (.error (.system e p.text), d) := by
  rw [replace, on_bind, on_ask]
  cases d.replaceable p <;> rfl

theorem does_replace {t : Text} (h : ∀ (d : Disk) loc, d.here = here → d.replaceable p = .ok loc →
    R d.tree (.put loc (.file (.text t)))) : Does here R (replace p t) := by
  intro d hhere
  rw [on_replace]
  cases hr : d.replaceable p with
  | error e => exact ⟨[], rfl, trivial⟩
  | ok loc => exact ⟨[.put loc (.file (.text t))], rfl, .singleton (h d loc hhere hr)⟩

theorem does_newFile {t : Text}
    (hfolder : ∀ names, names <+: p.names.dropLast → ∀ (d : Disk) loc, d.here = here →
      d.vacant ⟨p.anchor, names⟩ = .ok loc → R d.tree (.put loc .folder))
    (hfile : ∀ (d : Disk) loc, d.here = here → d.writable p = .ok loc →
      R d.tree (.put loc (.file (.text t)))) : Does here R (newFile p t) :=
  does_isThere.bind fun _ => .refuse fun _ =>
    Does.bind (does_folders hfolder) fun _ => does_writeText hfile

/-! ### Removing -/

theorem on_unlink (p : Path) (d : Disk) : (unlink p).on d = match d.opened p with
    | .ok (loc, _) => (.ok (), d.made (.erase loc))
    | .error e => (.error (.system e p.text), d) := by
  rw [unlink, on_bind, on_ask]
  cases d.opened p <;> rfl

theorem does_unlink (h : ∀ t, R t (.erase (spot here p))) : Does here R (unlink p) := by
  intro d hhere
  rw [on_unlink]
  cases ho : d.opened p with
  | error e => exact ⟨[], rfl, trivial⟩
  | ok o =>
      rcases o with ⟨loc, c⟩
      have hspot := spot_of_find (opened_eq ho).1
      rw [hhere] at hspot
      exact ⟨[.erase loc], rfl, .singleton (hspot ▸ h d.tree)⟩

theorem on_unlinkIfPresent (p : Path) (d : Disk) : (unlinkIfPresent p).on d = match d.opened p with
    | .ok (loc, _) => (.ok (), d.made (.erase loc))
    | .error .missing => (.ok (), d)
    | .error e => (.error (.system e p.text), d) := by
  rw [unlinkIfPresent, on_get_bind]
  cases ho : d.opened p with
  | ok o =>
      change (unlink p).on d = _
      rw [on_unlink, ho]
  | error e =>
      have hunlink : (unlink p).on d = (.error (.system e p.text), d) := by
        rw [on_unlink, ho]
      cases e <;> first | rfl | exact hunlink

theorem does_unlinkIfPresent (h : ∀ t, R t (.erase (spot here p))) :
    Does here R (unlinkIfPresent p) := by
  intro d hhere
  rw [unlinkIfPresent, on_get_bind]
  split
  · exact ⟨[], rfl, trivial⟩
  · exact does_unlink h d hhere

theorem does_removeEmptied (h : ∀ t, R t (.erase (spot here p))) : Does here R (removeEmptied p) := by
  refine .refuse fun _ => ?_
  intro d hhere
  rw [on_bind, on_ask]
  cases hf : d.find p with
  | error e => exact ⟨[], rfl, trivial⟩
  | ok loc =>
      have hspot := spot_of_find hf
      rw [hhere] at hspot
      exact ⟨[.erase loc], rfl, .singleton (hspot ▸ h d.tree)⟩

end Job

namespace Tree

theorem mem_placeByDepth {l loc : Location} {ls : List Location} :
    l ∈ placeByDepth loc ls ↔ l = loc ∨ l ∈ ls := by
  induction ls with
  | nil => simp [placeByDepth]
  | cons k ls ih =>
      rw [placeByDepth]
      split
      · simp
      · simp [ih]
        tauto

theorem mem_foldr_placeByDepth {l : Location} {ls : List Location} :
    l ∈ ls.foldr placeByDepth [] ↔ l ∈ ls := by
  induction ls with
  | nil => rfl
  | cons k ls ih => rw [List.foldr_cons, mem_placeByDepth, ih, List.mem_cons]

theorem isBelow_iff {folder loc : Location} : isBelow folder loc = true ↔ folder <+: loc ∧ folder ≠ loc := by
  rw [isBelow, Bool.and_eq_true, List.isPrefixOf_iff_prefix, decide_eq_true_eq]
  constructor
  · rintro ⟨hpre, hlt⟩
    exact ⟨hpre, fun heq => absurd hlt (by simp [heq])⟩
  · rintro ⟨hpre, hne⟩
    refine ⟨hpre, Nat.lt_of_le_of_ne hpre.length_le fun hlen => hne (hpre.eq_of_length hlen)⟩

theorem below_of_mem {t : Tree} {folder l : Location} (h : l ∈ t.below folder) :
    folder <+: l ∧ folder ≠ l := by
  rw [below, mem_foldr_placeByDepth, List.mem_filter] at h
  exact isBelow_iff.mp h.2

/-- What is there below a folder is listed. -/
theorem mem_below {t : Tree} {folder l : Location} (hl : t.get? l ≠ none) (hpre : folder <+: l)
    (hne : folder ≠ l) : l ∈ t.below folder := by
  rw [below, mem_foldr_placeByDepth, List.mem_filter]
  refine ⟨?_, isBelow_iff.mpr ⟨hpre, hne⟩⟩
  -- The root is not below anything, so it is an entry that is looked for.
  have hroot : l ≠ [] := by
    rintro rfl
    exact hne (List.prefix_nil.mp hpre)
  rw [get?, if_neg hroot] at hl
  generalize t.entries = es at hl
  induction es with
  | nil => exact absurd rfl hl
  | cons e es ih =>
      rcases e with ⟨k, x⟩
      by_cases hk : k = l
      · simp [hk]
      · rw [entryAt, if_neg hk] at hl
        simp [ih hl]

theorem get?_applyAll_erase (t : Tree) (ls : List Location) (l : Location) :
    (t.applyAll (ls.map .erase)).get? l = if l ∈ ls ∧ l ≠ [] then none else t.get? l := by
  induction ls generalizing t with
  | nil => simp [applyAll]
  | cons k ls ih =>
      rw [List.map_cons, show t.applyAll (.erase k :: ls.map .erase)
        = (t.apply (.erase k)).applyAll (ls.map .erase) from rfl, ih, get?_apply_erase]
      by_cases hmem : l ∈ ls ∧ l ≠ []
      · rw [if_pos hmem, if_pos ⟨List.mem_cons_of_mem k hmem.1, hmem.2⟩]
      · rw [if_neg hmem]
        -- An entry that is erased first stays away, unless the location is the root.
        by_cases hk : l = k ∧ k ≠ []
        · rw [if_pos hk, if_pos ⟨by simp [hk.1], hk.1 ▸ hk.2⟩]
        · rw [if_neg hk, if_neg]
          rintro ⟨hl, hroot⟩
          rcases List.mem_cons.mp hl with rfl | hl
          · exact hk ⟨rfl, hroot⟩
          · exact hmem ⟨hl, hroot⟩

end Tree

namespace Job

open Disk

variable {here : Location} {R : Tree → Write → Prop} {d : Disk} {p : Path}

theorem on_forM_erase (ls : List Location) (d : Disk) :
    (ls.forM fun l => write (.erase l)).on d = (.ok (), d.after (ls.map .erase)) := by
  induction ls generalizing d with
  | nil => rfl
  | cons l ls ih => exact ih (d.made (.erase l))

theorem does_removeTree (h : ∀ t l, spot here p <+: l → R t (.erase l)) :
    Does here R (removeTree p) := by
  intro d hhere
  rw [removeTree, on_bind, on_ask]
  cases hf : d.find p with
  | error e => exact ⟨[], rfl, trivial⟩
  | ok loc =>
      have hspot := spot_of_find hf
      rw [hhere] at hspot
      subst hspot
      dsimp only
      rw [on_get_bind]
      refine Does.bind (Does.forM fun l hl => ?_) (fun _ => does_removeEmptied fun t => ?_) d hhere
      · exact fun d _ => ⟨[.erase l], rfl, .singleton (h d.tree l (Tree.below_of_mem hl).1)⟩
      · exact h t _ (List.prefix_refl _)

theorem does_remove {missingOk : Bool} (h : ∀ t l, spot here p <+: l → R t (.erase l)) :
    Does here R (remove p missingOk) := by
  have hrest : Does here R (do
      if ← isFolder p then removeTree p else unlink p
      return true : Job Bool) :=
    does_isFolder.bind fun _ => .ite
      (fun _ => Does.bind (does_removeTree h) fun _ => does_pure _)
      fun _ => Does.bind (does_unlink fun t => h t _ (List.prefix_refl _)) fun _ => does_pure _
  exact does_isThere.bind fun _ => .ite
    (fun _ => .ite (fun _ => does_pure _) fun _ => .bind (does_fail _) fun _ => hrest)
    fun _ => hrest

/-- What removing what a path leads to erases, in this order. -/
def erasures (t : Tree) (loc : Location) : List Write :=
  if t.get? loc = some .folder then (t.below loc ++ [loc]).map .erase else [.erase loc]

/-- A folder is removed with all that is in it, unless the path to it leads
    through what lies below it. -/
theorem on_removeTree {loc : Location} (hfind : d.find p = .ok loc) (hnames : p.names ≠ [])
    (hway : ∀ s ∈ way d.here p, loc <+: s → s = loc) :
    (removeTree p).on d = (.ok (), d.after ((d.tree.below loc ++ [loc]).map .erase)) := by
  -- Nothing that the path goes through lies below, so it still leads there.
  have hkeep : (d.after ((d.tree.below loc).map .erase)).find p = .ok loc := by
    apply find_of_folders hfind (after_here _ _)
    intro s hs
    rw [after_tree, Tree.get?_applyAll_erase, if_neg]
    · exact way_of_find hfind s hs
    · rintro ⟨hmem, -⟩
      have hbelow := Tree.below_of_mem hmem
      exact hbelow.2 (hway s hs hbelow.1).symm
  have hemptied : (removeEmptied p).on (d.after ((d.tree.below loc).map .erase))
      = (.ok (), (d.after ((d.tree.below loc).map .erase)).made (.erase loc)) := by
    rw [removeEmptied, on_refuse, if_neg hnames, on_bind, on_ask, hkeep]
    rfl
  rw [removeTree, on_bind, on_ask, hfind]
  dsimp only
  rw [on_get_bind, on_bind, on_forM_erase]
  dsimp only
  rw [hemptied, List.map_append, after_append]
  rfl

/-- What is there is removed, unless the path to it leads through what lies
    below it. -/
theorem on_remove_of_present {loc : Location} (hfind : d.find p = .ok loc)
    (hthere : d.tree.get? loc ≠ none) (hnames : p.names ≠ [])
    (hway : ∀ s ∈ way d.here p, loc <+: s → s = loc) (missingOk : Bool) :
    (remove p missingOk).on d = (.ok true, d.after (erasures d.tree loc)) := by
  rcases Option.ne_none_iff_exists'.mp hthere with ⟨e, he⟩
  have hlook : d.look p = .ok (some e) := look_eq_some.mpr ⟨loc, hfind, he⟩
  have hisThere : (isThere p).on d = (.ok true, d) := by
    rw [on_isThere, hlook]
    rfl
  -- What is there need not be tolerated to be missing, so only its kind decides.
  rw [remove, on_bind_ok hisThere]
  simp only [Bool.not_true, Bool.false_eq_true, if_false]
  have hisFolder : (isFolder p).on d = (.ok (decide (some e = some .folder)), d) := by
    rw [on_isFolder, hlook]
  rw [on_bind_ok hisFolder, erasures, he]
  cases e with
  | folder =>
      simp only [decide_true, if_true]
      rw [on_bind_ok (on_removeTree hfind hnames hway)]
      rfl
  | file c =>
      have hunlink : (unlink p).on d = (.ok (), d.made (.erase loc)) := by
        rw [on_unlink, opened_of_find hfind he]
      simp only [Option.some.injEq, reduceCtorEq, decide_false, Bool.false_eq_true, if_false]
      rw [on_bind_ok hunlink]
      rfl

end Job

end RouteScaffold
