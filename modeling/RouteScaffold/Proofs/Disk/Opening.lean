import RouteScaffold.Proofs.Journal.Saving

/-!
# Folders That Are There or Can Be Made

Below a folder, a straight way along which every place holds a folder or nothing
can be made a way through folders. What is missing of it is made, from the top
down, and nothing else changes.

## Main definitions

* `Tree.Opens`: A write that makes a missing folder of a way.

## Theorems

* `walk_open`: Such a way is walked to its end, or leads through nothing.
* `on_folders_open`: Making the folders of such a way.
-/

namespace RouteScaffold

open Location

namespace Tree

variable {t : Tree} {base loc l : Location} {xs names : List Text} {ws : List Write}

/-- A way along which every place holds a folder or nothing. -/
theorem walk_open (hdots : ['.', '.'] ∉ names) (hsize : ∀ n ∈ names, Utf8.size n ≤ nameLimit)
    (h : ∀ ns n ms, names = ns ++ n :: ms →
      t.get? (loc ++ ns) = some .folder ∨ t.get? (loc ++ ns) = none) :
    t.walk loc names = .ok (loc ++ names)
        ∧ (∀ ns n ms, names = ns ++ n :: ms → t.get? (loc ++ ns) = some .folder)
      ∨ t.walk loc names = .error .missing
        ∧ ∃ ns n ms, names = ns ++ n :: ms ∧ t.get? (loc ++ ns) = none := by
  induction names generalizing loc with
  | nil => exact Or.inl ⟨by simp [walk], fun ns n ms heq => by simp at heq⟩
  | cons name names ih =>
      have hhead := h [] name names rfl
      rw [List.append_nil] at hhead
      rw [walk_cons]
      rcases hhead with hfolder | hnone
      -- The folder is walked into, and the rest of the way starts there.
      · have hstep : step loc name = loc ++ [name] := by
          rw [step, if_neg]
          exact fun heq => hdots (by simp [heq])
        rw [hfolder]
        dsimp only
        rw [if_neg (Nat.not_lt.mpr (hsize name (by simp))), hstep]
        have htail := @ih (loc ++ [name]) (fun hmem => hdots (List.mem_cons_of_mem _ hmem))
          (fun n hn => hsize n (List.mem_cons_of_mem _ hn)) fun ns n ms heq => by
            simpa using h (name :: ns) n ms (by rw [heq, List.cons_append])
        rcases htail with ⟨hwalk, hall⟩ | ⟨hwalk, ns, n, ms, heq, hnone⟩
        · refine Or.inl ⟨by simpa using hwalk, fun ns n ms heq => ?_⟩
          cases ns with
          | nil => simpa using hfolder
          | cons m ns =>
              rw [List.cons_append, List.cons.injEq] at heq
              rw [← heq.1]
              simpa using hall ns n ms heq.2
        · exact Or.inr ⟨hwalk, name :: ns, n, ms, by rw [heq, List.cons_append], by simpa using hnone⟩
      -- The way ends where nothing is.
      · rw [hnone]
        exact Or.inr ⟨rfl, [], name, names, rfl, by simpa using hnone⟩

/-- A write that makes a folder of a way, where there is nothing. -/
def Opens (base : Location) (xs : List Text) (t : Tree) (w : Write) : Prop :=
  ∃ ys, ys <+: xs ∧ w = .put (base ++ ys) .folder ∧ t.get? (base ++ ys) = none

theorem Runs.opens_outside (h : t.Runs (Opens base xs) ws) (hl : ∀ ys, ys <+: xs → l ≠ base ++ ys) :
    (t.applyAll ws).get? l = t.get? l := by
  refine Runs.shuns (h.mono fun t w hw => ?_)
  rcases hw with ⟨ys, hys, rfl, hnone⟩
  exact ⟨hnone, fun heq => hl ys hys heq.symm⟩

theorem Runs.opens_keeps_folder (h : t.Runs (Opens base xs) ws) (hl : t.get? l = some .folder) :
    (t.applyAll ws).get? l = some .folder := by
  refine Runs.keeps_folder (h.mono fun t w hw => ?_) hl
  rcases hw with ⟨ys, hys, rfl, hnone⟩
  exact ⟨hnone, _, _, rfl⟩

end Tree

namespace Job

open Disk RouteScaffold.Tree

variable {d : Disk} {p q : Path} {base loc : Location} {xs : List Text}

/-- One folder is made where there is nothing, and left where it is. -/
theorem on_folder_open (hfind : d.find q = .ok loc)
    (hopen : d.tree.get? loc = some .folder ∨ d.tree.get? loc = none) : ∃ ws,
      (folder q).on d = (.ok (), d.after ws) ∧ (d.after ws).tree.get? loc = some .folder
        ∧ (ws = [] ∨ ws = [.put loc .folder] ∧ d.tree.get? loc = none) := by
  rcases hopen with hfolder | hnone
  · exact ⟨[], on_foldersFrom_of_found hfind hfolder 0, hfolder, Or.inl rfl⟩
  · have hadmits : d.tree.Admits (.put loc .folder) := hnone
    refine ⟨[.put loc .folder], ?_, ?_, Or.inr ⟨rfl, hnone⟩⟩
    · rw [folder, on_get_bind, vacant, hfind]
      dsimp only
      rw [hnone]
      rfl
    · exact (get?_apply_put hadmits loc).trans (if_pos rfl)

/-- What a way leads to along which every place but the last holds a folder or
    nothing: its end, or nothing. -/
theorem find_open (hfind : d.find p = .ok base) (hdots : ['.', '.'] ∉ xs)
    (hsize : ∀ n ∈ xs, Utf8.size n ≤ nameLimit) (hwalk : unwalkable? (p.below xs) = none)
    (hopen : ∀ ns n ms, xs = ns ++ n :: ms →
      d.tree.get? (base ++ ns) = some .folder ∨ d.tree.get? (base ++ ns) = none) :
    d.find (p.below xs) = .ok (base ++ xs)
        ∧ (∀ ns n ms, xs = ns ++ n :: ms → d.tree.get? (base ++ ns) = some .folder)
      ∨ d.find (p.below xs) = .error .missing
        ∧ ∃ ns n ms, xs = ns ++ n :: ms ∧ d.tree.get? (base ++ ns) = none := by
  have hfound : d.find (p.below xs) = d.tree.walk base xs := by
    rw [find, hwalk]
    dsimp only
    rw [show (p.below xs).names = p.names ++ xs from rfl, Tree.walk_append,
      show d.origin (p.below xs) = d.origin p from rfl, (find_eq hfind).2]
  rw [hfound]
  exact walk_open hdots hsize hopen

section Way

variable (hfind : d.find p = .ok base) (hbase : d.tree.get? base = some .folder)
  (hdots : ['.', '.'] ∉ xs) (hsize : ∀ n ∈ xs, Utf8.size n ≤ nameLimit)
  (hwalk : ∀ ys, ys <+: xs → unwalkable? (p.below ys) = none)
  (hopen : ∀ ys, ys <+: xs → d.tree.get? (base ++ ys) = some .folder ∨ d.tree.get? (base ++ ys) = none)
include hfind hbase hdots hsize hwalk hopen

/-- The folders of the way are made, as far as they are missing. -/
theorem on_foldersFrom_open (depth : Nat) (hdepth : xs.length ≤ depth) : ∃ ws,
    (foldersFrom depth (p.below xs)).on d = (.ok (), d.after ws) ∧ d.tree.Runs (Opens base xs) ws
      ∧ ∀ ys, ys <+: xs → (d.after ws).tree.get? (base ++ ys) = some .folder := by
  -- By induction on how many folders may have to be made before the last one.
  induction depth generalizing xs with
  | zero =>
      rw [List.length_eq_zero_iff.mp (Nat.le_zero.mp hdepth)]
      refine ⟨[], on_foldersFrom_of_found (by simpa [Path.below] using hfind) hbase 0, trivial, fun ys hys => ?_⟩
      rw [List.prefix_nil.mp hys, List.append_nil]
      exact hbase
  | succ depth ih =>
      rcases find_open hfind hdots hsize (hwalk xs (List.prefix_refl _))
        (fun ns n ms heq => hopen ns ⟨n :: ms, heq.symm⟩) with ⟨hfound, hall⟩ | ⟨hmissing, ns, n, ms, heq, hnone⟩
      · -- Every folder but the last one is there.
        -- The last one is there too, or it alone is made.
        rcases hopen xs (List.prefix_refl _) with hfolder | hnone
        · refine ⟨[], on_foldersFrom_of_found hfound hfolder _, trivial, fun ys hys => ?_⟩
          rcases hys with ⟨zs, hzs⟩
          cases zs with
          | nil =>
              rw [List.append_nil] at hzs
              rw [hzs]
              exact hfolder
          | cons z zs => exact hall ys z zs hzs.symm
        · have hvacant : d.vacant (p.below xs) = .ok (base ++ xs) := by
            rw [vacant, hfound]
            dsimp only
            rw [hnone]
            rfl
          have hadmits : d.tree.Admits (.put (base ++ xs) .folder) := hnone
          refine ⟨[.put (base ++ xs) .folder], ?_, .singleton ⟨xs, List.prefix_refl _, rfl, hnone⟩,
            fun ys hys => ?_⟩
          · rw [foldersFrom, on_get_bind, hvacant]
            dsimp only
            rw [folder, on_get_bind, hvacant]
            rfl
          · refine (get?_apply_put hadmits _).trans ?_
            rcases hys with ⟨zs, hzs⟩
            cases zs with
            | nil =>
                rw [List.append_nil] at hzs
                rw [if_pos (by rw [hzs])]
            | cons z zs =>
                split
                · rfl
                · exact hall ys z zs hzs.symm
      · -- Something is missing before it, so what leads there is made first.
        rcases List.eq_nil_or_concat xs with hnil | ⟨zs, x, hxs⟩
        · rw [hnil] at heq
          simp at heq
        · rw [List.concat_eq_append] at hxs
          have hpre : zs <+: xs := ⟨[x], hxs.symm⟩
          have hlen : zs.length ≤ depth := by
            have := congrArg List.length hxs
            rw [List.length_append, List.length_singleton] at this
            omega
          rcases @ih zs (fun hmem => hdots (hpre.subset hmem)) (fun m hm => hsize m (hpre.subset hm))
            (fun ys hys => hwalk ys (hys.trans hpre)) (fun ys hys => hopen ys (hys.trans hpre)) hlen
            with ⟨ws, hrun, hopens, hfolders⟩
          -- The way is what leads there, and its last name.
          have hparent : (p.below xs).parent = p.below zs := by
            rw [hxs]
            simp [Path.parent, Path.below, ← List.append_assoc]
          have hvacant : d.vacant (p.below xs) = .error .missing := by
            rw [vacant, hmissing]
          have hfind' : (d.after ws).find p = .ok base := find_of_folders hfind (after_here d ws) fun s hs => by
            rw [after_tree]
            exact hopens.opens_keeps_folder (way_of_find hfind s hs)
          have hfound : (d.after ws).find (p.below xs) = .ok (base ++ xs) := by
            refine find_straight hfind' hdots (hwalk xs (List.prefix_refl _)) hsize fun ns n ms heq => ?_
            exact hfolders ns (prefix_of_concat (hxs ▸ heq))
          -- What was made lies higher up, so the end of the way is as it was.
          have hsame : (d.after ws).tree.get? (base ++ xs) = d.tree.get? (base ++ xs) := by
            rw [after_tree]
            refine hopens.opens_outside fun ys hys heq => ?_
            have := hys.length_le
            rw [← List.append_cancel_left heq, hxs, List.length_append, List.length_singleton] at this
            omega
          rcases on_folder_open hfound (by rw [hsame]; exact hopen xs (List.prefix_refl _))
            with ⟨vs, hlast, hfolder, hvs⟩
          have hrest : (d.after ws).tree.Runs (Opens base xs) vs := by
            rcases hvs with rfl | ⟨rfl, hnone⟩
            · trivial
            · exact .singleton ⟨xs, List.prefix_refl _, rfl, hnone⟩
          refine ⟨ws ++ vs, ?_, Runs.append.mpr ⟨?_, by rw [← after_tree]; exact hrest⟩, fun ys hys => ?_⟩
          · rw [foldersFrom, on_get_bind, hvacant]
            dsimp only
            rw [hparent, on_bind_ok hrun, hlast, after_append]
          · refine hopens.mono fun t w hw => ?_
            rcases hw with ⟨ys, hys, hw⟩
            exact ⟨ys, hys.trans hpre, hw⟩
          · rw [after_append]
            by_cases hsame : ys = xs
            · rw [hsame]
              exact hfolder
            · rw [after_tree]
              -- A way that is not the whole one is a way to the folder before.
              refine hrest.opens_keeps_folder (hfolders ys ?_)
              rw [hxs] at hys hsame
              exact (List.prefix_concat_iff.mp hys).resolve_left hsame

theorem on_folders_open : ∃ ws, (folders (p.below xs)).on d = (.ok (), d.after ws)
    ∧ d.tree.Runs (Opens base xs) ws
    ∧ ∀ ys, ys <+: xs → (d.after ws).tree.get? (base ++ ys) = some .folder :=
  on_foldersFrom_open hfind hbase hdots hsize hwalk hopen _ (by simp [Path.below])

end Way

end Job

end RouteScaffold
