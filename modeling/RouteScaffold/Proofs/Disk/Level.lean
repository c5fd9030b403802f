import RouteScaffold.Proofs.Disk.Clear

/-!
# Level Paths

Where a path leads is decided by its names alone, but what is there is not: a
double dot leads back out of a folder, and out of nothing there is no way back.
Once the missing folder has been made, the same path may lead to something that
has been there all the time.

On a level path this cannot happen. It first leads, over folders that are there,
to a folder, and from there straight down. If nothing is seen at the end of a
level path, nothing is there, and nothing further down either.

## Main definitions

* `Disk.Level`: A path that leads to a folder and from there straight down.
* `Disk.Absent`, `Disk.Folderless`: Nothing is there, or no folder, as far as
  that can be seen.
* `Disk.Sighted`: A path that leads somewhere, or is too long to be looked at.

## Theorems

* `Closed.get?_of_walk_error`: A way that ends too early leads to nothing.
* `Level.absent_below`: What is not seen is not there.
* `Level.clear`: A path clears what lies further down than it leads.
-/

namespace RouteScaffold

open Location

namespace Tree

/-- A way down that cannot be walked leads to nothing, unless it was one of its
    names that could not be looked up. -/
theorem Closed.get?_of_walk_error {t : Tree} (h : t.Closed) {loc : Location} {names : List Text}
    {e : SystemError} (hdots : ['.', '.'] ∉ names) (hwalk : t.walk loc names = .error e)
    (he : e ≠ .nameTooLong) : t.get? (loc ++ names) = none := by
  induction names generalizing loc with
  | nil => exact absurd hwalk (by simp [walk])
  | cons name names ih =>
      by_contra hthere
      -- What is there has folders all the way, so the way does not end here.
      have hfolder : t.get? loc = some .folder :=
        h.get?_of_prefix hthere (List.prefix_append loc _) (by simp)
      rw [walk_cons, hfolder] at hwalk
      dsimp only at hwalk
      split at hwalk
      · exact he (Except.error.inj hwalk).symm
      · rw [step, if_neg fun hname => hdots (by simp [hname])] at hwalk
        have := ih (fun hmem => hdots (List.mem_cons_of_mem _ hmem)) hwalk
        rw [List.append_assoc] at this
        exact hthere this

end Tree

namespace Disk

/-- A path that leads to a folder, and from there straight down. -/
def Level (d : Disk) (p : Path) : Prop :=
  ∃ xs ys loc, p.names = xs ++ ys ∧ ['.', '.'] ∉ ys ∧ d.tree.walk (d.origin p) xs = .ok loc
    ∧ d.tree.get? loc = some .folder

/-- Nothing is at a path, unless it cannot be walked at all. -/
def Absent (d : Disk) (p : Path) : Prop := unwalkable? p = none → d.tree.get? (spot d.here p) = none

/-- No folder is at a path, unless it cannot be walked at all. -/
def Folderless (d : Disk) (p : Path) : Prop :=
  unwalkable? p = none → d.tree.get? (spot d.here p) ≠ some .folder

/-- A path that can be looked at: it leads somewhere, or it is too long on every disk. -/
def Sighted (d : Disk) (p : Path) : Prop :=
  d.find p = .ok (spot d.here p) ∨ unwalkable? p = some .nameTooLong

variable {d : Disk} {p : Path} {loc l : Location} {names : List Text}

theorem level_of_found (h : d.find p = .ok loc) (hfolder : d.tree.get? loc = some .folder) :
    d.Level p :=
  ⟨p.names, [], loc, (List.append_nil _).symm, by simp, (find_eq h).2, hfolder⟩

theorem Level.below (h : d.Level p) (hdots : ['.', '.'] ∉ names) : d.Level (p.below names) := by
  rcases h with ⟨xs, ys, loc, hnames, hys, hwalk, hfolder⟩
  refine ⟨xs, ys ++ names, loc, ?_, ?_, hwalk, hfolder⟩
  · rw [Path.below, hnames, List.append_assoc]
  · rw [List.mem_append]
    rintro (hmem | hmem)
    · exact hys hmem
    · exact hdots hmem

theorem spot_of_walk {xs ys : List Text} (hnames : p.names = xs ++ ys) (hys : ['.', '.'] ∉ ys)
    (hwalk : d.tree.walk (d.origin p) xs = .ok loc) : spot d.here p = loc ++ ys := by
  rw [spot, hnames, place_append, Tree.place_of_walk hwalk]
  exact place_of_names hys

/-- What is not seen at the end of a level path is not there. -/
theorem Level.absent (h : d.Level p) (hclosed : d.tree.Closed)
    (hno : (Job.isThere p).on d = (.ok false, d)) : d.Absent p := by
  intro hwalkable
  rcases h with ⟨xs, ys, loc, hnames, hys, hwalk, hfolder⟩
  rw [Job.on_isThere, look, find, hwalkable] at hno
  dsimp only at hno
  cases hend : d.tree.walk (d.origin p) p.names with
  | ok loc' =>
      -- A path that leads somewhere leads to its spot, and nothing was seen there.
      have hspot : loc' = spot d.here p := spot_of_find (p := p) (by rw [find, hwalkable]; exact hend)
      rw [hend] at hno
      rw [← hspot]
      simpa using hno
  | error e =>
      rw [hend] at hno
      rw [spot_of_walk hnames hys hwalk]
      rw [hnames, Tree.walk_append, hwalk] at hend
      -- The walk was refused behind the last folder, so nothing can lie there.
      refine hclosed.get?_of_walk_error hys hend ?_
      rintro rfl
      exact absurd hno (by simp)

theorem unwalkable_of_null {p : Path} (h : '\x00' ∈ p.text) : unwalkable? p = some .nullCharacter := by
  rw [unwalkable?, if_pos h]

theorem isThere_of_too_long {p : Path} (h : unwalkable? p = some .nameTooLong) :
    (Job.isThere p).on d = (.error (.system .nameTooLong p.text), d) := by
  rw [Job.on_isThere, look, find, h]

/-- Nothing lies below what is not seen at the end of a level path. -/
theorem Level.absent_below (h : d.Level p) (hclosed : d.tree.Closed)
    (hno : (Job.isThere p).on d = (.ok false, d)) (hdots : ['.', '.'] ∉ names) :
    d.Absent (p.below names) := by
  intro hwalkable
  rw [spot_below d.here p hdots]
  refine hclosed.get?_below ?_ (List.prefix_append _ _)
  refine h.absent hclosed hno ?_
  -- A path that cannot be walked cannot be walked any further.
  cases hp : unwalkable? p with
  | none => rfl
  | some e =>
      by_cases hnull : '\x00' ∈ p.text
      · rcases (null_mem_text p).mp hnull with ⟨name, hname, hchar⟩
        have hbelow : '\x00' ∈ (p.below names).text :=
          (null_mem_text _).mpr ⟨name, List.mem_append_left _ hname, hchar⟩
        exact absurd hwalkable (by rw [unwalkable_of_null hbelow]; simp)
      · have hlong : unwalkable? p = some .nameTooLong := by
          rw [unwalkable?, if_neg hnull] at hp ⊢
          split
          · rfl
          · next hshort => exact absurd hp (by rw [if_neg hshort]; simp)
        exact absurd hno (by rw [isThere_of_too_long hlong]; simp)

/-- A path that leads down from a level one clears what lies further down, or
    in another direction. -/
theorem Level.clear (h : d.Level p) {zs : List Text} (hdots : ['.', '.'] ∉ names)
    (hl : d.tree.get? (spot d.here p ++ zs) ≠ some .folder) (hzs : ¬ zs <+: names) :
    Clear d.here (p.below names) (spot d.here p ++ zs) := by
  rcases h with ⟨xs, ys, loc, hnames, hys, hwalk, hfolder⟩
  have hspot := spot_of_walk hnames hys hwalk
  rw [hspot, List.append_assoc] at hl ⊢
  -- The part of the path that has been walked leads over folders.
  have hstart : Clear d.here ⟨p.anchor, xs⟩ (loc ++ (ys ++ zs)) := by
    rintro ns ⟨rest, hrest⟩ heq
    refine hl ?_
    rw [← heq]
    cases rest with
    | nil =>
        rw [List.append_nil] at hrest
        subst hrest
        rw [show spot d.here ⟨p.anchor, ns⟩ = loc from (Tree.place_of_walk hwalk).symm]
        exact hfolder
    | cons n rest =>
        refine (Tree.walk_eq_ok.mp hwalk).1 _ ?_
        dsimp only at hrest
        rw [← hrest]
        exact place_mem_stations _ ns n rest
  have hfrom : spot d.here ⟨p.anchor, xs⟩ = loc := (Tree.place_of_walk hwalk).symm
  have hbelow : p.below names = Path.below ⟨p.anchor, xs⟩ (ys ++ names) := by
    rw [Path.below, Path.below, hnames, List.append_assoc]
  rw [hbelow]
  refine clear_below ?_ hstart ?_
  · rw [List.mem_append]
    rintro (hmem | hmem)
    · exact hys hmem
    · exact hdots hmem
  · intro ns hns _ heq
    rw [hfrom, List.append_cancel_left_eq] at heq
    rw [heq, List.prefix_append_right_inj] at hns
    exact hzs hns

/-! ### Absence -/

theorem Absent.isThere (h : d.Absent p) : (Job.isThere p).on d = (.ok false, d)
    ∨ ∃ f, (Job.isThere p).on d = (.error f, d) := by
  rcases (Job.looks_isThere p).cases d with ⟨f, hf⟩ | ⟨b, hb⟩
  · exact Or.inr ⟨f, hf⟩
  · cases b with
    | false => exact Or.inl hb
    | true =>
        rcases (Job.isThere_iff hb).mp rfl with ⟨loc, hfind, hthere⟩
        rw [spot_of_find hfind] at hthere
        exact absurd (h (find_eq hfind).1) hthere

/-- What shuns a place leaves it absent. -/
theorem Absent.after {ws : List Write} (h : d.Absent p)
    (hws : unwalkable? p = none → d.tree.Runs (Tree.Shuns (spot d.here p)) ws) :
    (d.after ws).Absent p := by
  intro hwalk
  rw [after_here, after_tree, (hws hwalk).shuns]
  exact h hwalk

/-- What is found where no folder is. -/
theorem Folderless.ne_folder (h : d.Folderless p) (hfind : d.find p = .ok loc) :
    d.tree.get? loc ≠ some .folder := by
  rw [spot_of_find hfind]
  exact h (find_eq hfind).1

/-- No folder is below one where none is seen. -/
theorem folderless_below {name : Text} (hfind : d.find p = .ok loc)
    (hfolder : d.tree.get? loc = some .folder) (hname : name ≠ ['.', '.'])
    (hsize : Utf8.size name ≤ nameLimit) (hlook : d.look (p.below [name]) ≠ .ok (some .folder)) :
    d.Folderless (p.below [name]) := by
  intro hwalk hthere
  refine hlook (look_eq_some.mpr ⟨spot d.here (p.below [name]), ?_, hthere⟩)
  -- The name leads straight on from the folder, so what is there would be seen.
  have hwhole : d.tree.walk (d.origin p) (p.names ++ [name]) = .ok (loc ++ [name]) := by
    rw [Tree.walk_append, (find_eq hfind).2]
    dsimp only
    rw [Tree.walk_cons, hfolder]
    dsimp only
    rw [if_neg (Nat.not_lt.mpr hsize), step, if_neg hname]
    rfl
  have hfound : d.find (p.below [name]) = .ok (loc ++ [name]) := by
    rw [find, hwalk]
    exact hwhole
  rw [← spot_of_find hfound]
  exact hfound

/-- What lies in a folder that is there can be looked at. -/
theorem sighted_below {name : Text} (hfind : d.find p = .ok loc) (hfolder : d.tree.get? loc = some .folder)
    (hname : name ≠ ['.', '.']) (hnull : '\x00' ∉ name) (hsize : Utf8.size name ≤ nameLimit) :
    d.Sighted (p.below [name]) := by
  -- A name that is no dots is the last part of the spot.
  have hspot : spot d.here (p.below [name]) = loc ++ [name] := by
    rw [spot_below _ _ (by simpa using Ne.symm hname), spot_of_find hfind]
  rcases find_below name hfind hfolder hname hnull with hfound | hlong
  · exact Or.inl (hspot ▸ hfound)
  · right
    rw [find] at hlong
    split at hlong
    · next e he => rw [he, Except.error.inj hlong]
    · -- The name is short, so the way does not end before it.
      rw [show (p.below [name]).names = p.names ++ [name] from rfl, Tree.walk_append,
        show d.origin (p.below [name]) = d.origin p from rfl, (find_eq hfind).2] at hlong
      dsimp only at hlong
      rw [Tree.walk_cons, hfolder] at hlong
      dsimp only at hlong
      rw [if_neg (Nat.not_lt.mpr hsize)] at hlong
      exact absurd hlong (by simp [Tree.walk])

theorem Folderless.after {ws : List Write} (h : d.Folderless p)
    (hws : unwalkable? p = none → d.tree.Runs (Tree.MakesNoFolder (spot d.here p)) ws) :
    (d.after ws).Folderless p := by
  intro hwalk
  rw [after_here, after_tree]
  exact (hws hwalk).no_folder (h hwalk)

end Disk

end RouteScaffold
