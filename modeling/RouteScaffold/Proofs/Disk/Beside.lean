import RouteScaffold.Proofs.Disk.Alike

/-!
# Writes Beside a Folder

What happens beside a folder leaves everything in it as it is, the names that it
lists included, and their order. Some folders may be spared as well: those that
the way to the folder leads through.

The names in a folder are the names of the entries that lie in it. A write at one
place adds or takes away the name of that place and no other.

## Main definitions

* `Tree.Beside`: A write that is not made in a folder, and erases none of the
  spared ones.

## Theorems

* `Runs.beside_within`, `Runs.beside_spared`: What such writes leave as it was.
* `mem_namesIn`: The names in a folder.
* `filter_namesIn_apply`: A write at a place changes the name of that place only.
* `beside_folders`, `beside_edit`, `beside_remove`: The single jobs.
-/

namespace RouteScaffold

open Location

namespace Tree

/-- A write that is not made in a folder, and erases none of the spared places. -/
def Beside (own : Location) (spared : Location → Prop) (t : Tree) (w : Write) : Prop :=
  t.Admits w ∧ ¬ own <+: w.place ∧ ∀ l, w = .erase l → ¬ spared l

variable {t : Tree} {own folder l : Location} {spared : Location → Prop} {w : Write} {ws : List Write}

/-- What lies in the folder stays as it is. -/
theorem Runs.beside_within (h : t.Runs (Beside own spared) ws) (hl : own <+: l) :
    (t.applyAll ws).get? l = t.get? l :=
  (h.mono fun _ _ hw => ⟨hw.1, fun heq => hw.2.1 (heq ▸ hl)⟩ : t.Runs (Shuns l) ws).shuns

/-- A spared folder stays a folder. -/
theorem Runs.beside_spared (h : t.Runs (Beside own spared) ws) (hl : spared l)
    (hfolder : t.get? l = some .folder) : (t.applyAll ws).get? l = some .folder := by
  refine h.preserves (I := fun t => t.get? l = some .folder) hfolder fun t w ht hw => ?_
  cases w with
  | put loc entry => exact hw.1.keeps_folder ht
  | erase loc =>
      have hne : ¬ (l = loc ∧ loc ≠ []) := fun hand => hw.2.2 loc rfl (hand.1 ▸ hl)
      rw [get?_apply_erase, if_neg hne]
      exact ht

/-! ### The names in a folder -/

/-- The name that a place has in a folder. -/
def nameIn? (folder l : Location) : Option Text := if l.dropLast = folder then l.getLast? else none

theorem namesIn_eq (t : Tree) (folder : Location) :
    t.namesIn folder = (t.entries.map Prod.fst).filterMap (nameIn? folder) := by
  rw [namesIn, List.filterMap_map]
  rfl

theorem nameIn?_eq_some {n : Text} : nameIn? folder l = some n ↔ l = folder ++ [n] := by
  rw [nameIn?]
  constructor
  · intro h
    split at h
    · next hdrop =>
        rw [← hdrop]
        exact (List.dropLast_append_getLast? n h).symm
    · exact absurd h (by simp)
  · rintro rfl
    simp

theorem mem_namesIn {n : Text} : n ∈ t.namesIn folder ↔ t.get? (folder ++ [n]) ≠ none := by
  rw [namesIn_eq, List.mem_filterMap, get?, if_neg (by simp), entryAt_ne_none]
  simp only [nameIn?_eq_some, List.mem_map]
  constructor
  · rintro ⟨_, ⟨e, he, rfl⟩, hn⟩
    exact ⟨e, he, hn⟩
  · rintro ⟨e, he, hn⟩
    exact ⟨e.1, ⟨e, he, rfl⟩, hn⟩

theorem map_fst_putAt (loc : Location) (entry : Entry) (es : List (Location × Entry)) :
    (putAt loc entry es).map Prod.fst
      = if loc ∈ es.map Prod.fst then es.map Prod.fst else es.map Prod.fst ++ [loc] := by
  induction es with
  | nil => rfl
  | cons e es ih =>
      by_cases h : e.1 = loc
      · simp [putAt, h]
      -- The location may still be listed further on.
      · by_cases hmem : loc ∈ es.map Prod.fst
        · rw [if_pos hmem] at ih
          rw [if_pos (by simp [hmem])]
          simp [putAt, h, ih]
        · rw [if_neg hmem] at ih
          rw [if_neg fun hcons => by
            rcases List.mem_cons.mp hcons with heq | htail
            · exact h heq.symm
            · exact hmem htail]
          simp [putAt, h, ih]

/-- But for one name, a folder lists the same names after a write at the place of
    that name, or at none of its places. -/
theorem filter_namesIn_apply {n : Text} (h : ∀ m, w.place = folder ++ [m] → m = n) :
    ((t.apply w).namesIn folder).filter (· ≠ n) = (t.namesIn folder).filter (· ≠ n) := by
  -- At most one name of the folder is at stake, and the filter drops it.
  have hplace : ∀ m, nameIn? folder w.place = some m → m = n := fun m hm => h m (nameIn?_eq_some.mp hm)
  rw [namesIn_eq, namesIn_eq]
  cases w with
  | put loc entry =>
      rw [apply, put, map_fst_putAt]
      split
      · rfl
      -- A location that is new is listed last.
      · rw [List.filterMap_append, List.filter_append]
        cases hname : nameIn? folder loc with
        | none => simp [hname]
        | some m =>
            rw [hplace m hname] at hname
            simp [hname]
  | erase loc =>
      rw [apply, erase]
      -- What is erased drops out of the entries, and with it at most that name.
      induction t.entries with
      | nil => rfl
      | cons e es ih =>
          by_cases he : e.1 = loc
          · cases hname : nameIn? folder e.1 with
            | none => simpa [he, he ▸ hname] using ih
            | some m =>
                have hm := hplace m (he ▸ hname)
                subst hm
                simpa [he, he ▸ hname] using ih
          · cases hname : nameIn? folder e.1 with
            | none => simpa [he, hname] using ih
            | some m =>
                simp only [ne_eq, decide_not, List.map_cons, List.filterMap_cons, hname, List.filter_cons,
                  he, decide_false, Bool.not_false, if_true]
                split
                · exact congrArg _ (by simpa using ih)
                · simpa using ih

theorem Runs.beside_names (h : t.Runs (Beside own spared) ws) (hfolder : own <+: folder) (n : Text) :
    ((t.applyAll ws).namesIn folder).filter (· ≠ n) = (t.namesIn folder).filter (· ≠ n) := by
  refine h.preserves (I := fun t' => (t'.namesIn folder).filter (· ≠ n) = (t.namesIn folder).filter (· ≠ n))
    rfl fun t' w ht hw => ?_
  rw [filter_namesIn_apply fun m hm => absurd (hm ▸ hfolder.trans (List.prefix_append _ _)) hw.2.1, ht]

end Tree

/-! ### The single jobs -/

namespace Job

open Disk RouteScaffold.Tree

variable {own here : Location} {spared : Location → Prop} {p : Path} (hp : Off own here p)
include hp

theorem beside_put {d : Disk} {loc : Location} {entry : Entry} (hhere : d.here = here)
    (hfind : d.find p = .ok loc) (hadmits : d.tree.Admits (.put loc entry)) :
    d.tree.Beside own spared (.put loc entry) := by
  refine ⟨hadmits, fun hown => hp.spot ?_, fun l heq => by simp at heq⟩
  rw [← hhere, ← spot_of_find hfind]
  exact hown

theorem beside_folders : Does here (Beside own spared) (folders p) :=
  does_folders fun _ hnames _ _ hhere hv =>
    beside_put (hp.of_prefix hnames) hhere (vacant_eq hv).1 (admits_vacant hv)

theorem beside_writeText (t : Text) : Does here (Beside own spared) (writeText p t) :=
  does_writeText fun _ _ hhere hw => beside_put hp hhere (writable_eq hw).1 (admits_writable hw)

theorem beside_replace (t : Text) : Does here (Beside own spared) (replace p t) :=
  does_replace fun _ _ hhere hr => beside_put hp hhere (replaceable_eq hr).1 (admits_replaceable hr)

theorem beside_newFile (t : Text) : Does here (Beside own spared) (newFile p t) :=
  does_isThere.bind fun _ => .refuse fun _ => (beside_folders hp.parent).bind fun _ => beside_writeText hp t

theorem beside_edit (e : Edit) : Does here (Beside own spared) (edit p e) :=
  does_edit (beside_folders hp.parent) (beside_writeText hp _) fun _ => beside_replace hp _

/-- What is removed contains neither the folder nor any of the spared places. -/
theorem beside_remove {missingOk : Bool} (hown : ¬ Disk.spot here p <+: own)
    (hspared : ∀ l, spared l → ¬ Disk.spot here p <+: l) :
    Does here (Beside own spared) (remove p missingOk) := by
  refine does_remove fun t l hl => ⟨trivial, fun hpre => ?_, fun l' heq hs => ?_⟩
  · rcases List.prefix_or_prefix_of_prefix hpre hl with hcase | hcase
    · exact hp.spot hcase
    · exact hown hcase
  · rw [Write.erase.injEq] at heq
    exact hspared l' hs (heq ▸ hl)

end Job

end RouteScaffold
