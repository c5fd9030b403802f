import Mathlib.Data.List.Induction
import Mathlib.Tactic.ByContra
import RouteScaffold.Disk.Job

/-!
# Where Names Lead

Where names lead does not depend on the tree, only whether they lead anywhere:
each name is looked up in a station on the way, and a walk succeeds if all
stations are folders and no name is too long. So two walks of the same names
that both succeed arrive at the same location, whatever happened to the tree
in between.

A tree is closed if everything in it lies in a folder. A walk in a closed tree
arrives at a location whose folder is there.

## Main definitions

* `Location.place`: Where names lead, if they lead anywhere.
* `Location.stations`: The folders in which names are looked up on the way.
* `Tree.Closed`: Everything lies in a folder.

## Theorems

* `walk_eq_ok`: When a walk succeeds, and where it arrives.
* `walk_of_fewer`: A walk in a tree that has lost folders still succeeds, or
  leads through nothing.
* `Tree.Closed.get?_of_prefix`: Every folder before an entry is there.
-/

namespace RouteScaffold

namespace Location

/-- One name further. -/
def step (loc : Location) (name : Text) : Location :=
  if name = ['.', '.'] then loc.dropLast else loc ++ [name]

/-- Where names lead, if they lead anywhere. -/
def place (loc : Location) (names : List Text) : Location := names.foldl step loc

/-- The folders in which names are looked up on the way. -/
def stations (loc : Location) : List Text → List Location
  | [] => []
  | name :: names => loc :: stations (step loc name) names

theorem place_append (loc : Location) (xs ys : List Text) :
    place loc (xs ++ ys) = place (place loc xs) ys := by
  rw [place, List.foldl_append]
  rfl

/-- Names without double dots lead further down. -/
theorem place_of_names {loc : Location} {names : List Text} (h : ['.', '.'] ∉ names) :
    place loc names = loc ++ names := by
  induction names generalizing loc with
  | nil => rw [place, List.foldl_nil, List.append_nil]
  | cons n ns ih =>
      have hn : n ≠ ['.', '.'] := fun hn => h (by simp [hn])
      have hns : ['.', '.'] ∉ ns := fun hns => h (by simp [hns])
      rw [place, List.foldl_cons, step, if_neg hn, show ns.foldl step (loc ++ [n])
        = place (loc ++ [n]) ns from rfl, ih hns, List.append_assoc, List.singleton_append]

theorem stations_append (loc : Location) (xs ys : List Text) :
    stations loc (xs ++ ys) = stations loc xs ++ stations (place loc xs) ys := by
  induction xs generalizing loc with
  | nil => rfl
  | cons n ns ih =>
      rw [List.cons_append, stations, ih, stations]
      rfl

/-- A station is where the first few names lead. -/
theorem exists_of_mem_stations {loc s : Location} {names : List Text} (h : s ∈ stations loc names) :
    ∃ xs n ys, names = xs ++ n :: ys ∧ s = place loc xs := by
  induction names generalizing loc with
  | nil => exact absurd h (by simp [stations])
  | cons n ns ih =>
      rcases List.mem_cons.mp h with rfl | h
      · exact ⟨[], n, ns, rfl, rfl⟩
      · rcases ih h with ⟨xs, m, ys, rfl, rfl⟩
        exact ⟨n :: xs, m, ys, rfl, rfl⟩

theorem place_mem_stations (loc : Location) (xs : List Text) (n : Text) (ys : List Text) :
    place loc xs ∈ stations loc (xs ++ n :: ys) := by
  rw [stations_append]
  exact List.mem_append_right _ (List.mem_cons_self ..)

end Location

open Location

namespace Tree

variable {t t' : Tree} {loc loc' : Location} {names : List Text}

theorem walk_cons (name : Text) (names : List Text) :
    t.walk loc (name :: names) = match t.get? loc with
      | some .folder =>
        if nameLimit < Utf8.size name then .error .nameTooLong
        else t.walk (step loc name) names
      | some (.file _) => .error .notDirectory
      | none => .error .missing := rfl

/-- A walk succeeds if all stations are folders and no name is too long. -/
theorem walk_eq_ok : t.walk loc names = .ok loc' ↔ (∀ s ∈ stations loc names, t.get? s = some .folder)
    ∧ (∀ n ∈ names, Utf8.size n ≤ nameLimit) ∧ loc' = place loc names := by
  induction names generalizing loc with
  | nil =>
      rw [walk, Except.ok.injEq]
      constructor
      · rintro rfl
        exact ⟨by simp [stations], by simp, rfl⟩
      · rintro ⟨-, -, h⟩
        exact h.symm
  | cons n ns ih =>
      rw [walk_cons, stations, List.forall_mem_cons, List.forall_mem_cons,
        show place loc (n :: ns) = place (step loc n) ns from rfl]
      constructor
      -- The first station is a folder, or the walk would have ended there.
      · intro h
        split at h
        · next hfolder =>
            split at h
            · exact absurd h (by simp)
            · next hsize =>
                have hrest := ih.mp h
                exact ⟨⟨hfolder, hrest.1⟩, ⟨by omega, hrest.2.1⟩, hrest.2.2⟩
        · exact absurd h (by simp)
        · exact absurd h (by simp)
      · rintro ⟨⟨hfolder, hstations⟩, ⟨hsize, hsizes⟩, hplace⟩
        rw [hfolder]
        dsimp only
        rw [if_neg (by omega)]
        exact ih.mpr ⟨hstations, hsizes, hplace⟩

theorem place_of_walk (h : t.walk loc names = .ok loc') : loc' = place loc names :=
  (walk_eq_ok.mp h).2.2

theorem walk_append (xs ys : List Text) : t.walk loc (xs ++ ys) = match t.walk loc xs with
    | .ok loc' => t.walk loc' ys
    | .error e => .error e := by
  induction xs generalizing loc with
  | nil => rfl
  | cons n ns ih =>
      rw [List.cons_append, walk_cons, walk_cons]
      split
      · split
        · rfl
        · exact ih
      · rfl
      · rfl

/-- What a walk succeeds by is there in every tree that has the same
    folders. -/
theorem walk_of_folders (h : t.walk loc names = .ok loc')
    (hkeep : ∀ l, t.get? l = some .folder → t'.get? l = some .folder) :
    t'.walk loc names = .ok loc' := by
  have hwalk := walk_eq_ok.mp h
  exact walk_eq_ok.mpr ⟨fun s hs => hkeep s (hwalk.1 s hs), hwalk.2⟩

/-- A walk in a tree that has lost folders still succeeds, or leads through
    nothing. -/
theorem walk_of_fewer (h : t.walk loc names = .ok loc')
    (hkeep : ∀ l, t.get? l = some .folder → t'.get? l = some .folder ∨ t'.get? l = none) :
    t'.walk loc names = .ok loc' ∨ t'.walk loc names = .error .missing := by
  induction names generalizing loc with
  | nil => exact Or.inl h
  | cons n ns ih =>
      have hwalk := walk_eq_ok.mp h
      have hfolder := hwalk.1 loc (by simp [stations])
      have hsize := hwalk.2.1 n (by simp)
      rw [walk_cons, hfolder] at h
      dsimp only at h
      rw [if_neg (by omega)] at h
      rw [walk_cons]
      -- The folder is still there, or the walk ends with nothing.
      rcases hkeep loc hfolder with hkept | hgone
      · rw [hkept]
        dsimp only
        rw [if_neg (by omega)]
        exact ih h
      · rw [hgone]
        exact Or.inr rfl

/-! ### Closed trees -/

/-- Everything lies in a folder. -/
def Closed (t : Tree) : Prop := ∀ l, t.get? l ≠ none → t.get? l.dropLast = some .folder

theorem entryAt_ne_none {l : Location} {es : List (Location × Entry)} :
    entryAt l es ≠ none ↔ ∃ e ∈ es, e.1 = l := by
  induction es with
  | nil => simp [entryAt]
  | cons e es ih =>
      rw [entryAt]
      by_cases he : e.1 = l
      · simp [he]
      · rw [if_neg he, ih]
        simp [he]

/-- Whether everything lies in a folder is seen at the entries. -/
theorem closed_iff : t.Closed ↔ ∀ e ∈ t.entries, t.get? e.1.dropLast = some .folder := by
  have hentry : ∀ l, t.get? l ≠ none ↔ l = [] ∨ ∃ e ∈ t.entries, e.1 = l := by
    intro l
    by_cases hl : l = []
    · simp [hl]
    · simp only [get?, hl, if_false, false_or]
      exact entryAt_ne_none
  constructor
  · exact fun h e he => h e.1 ((hentry e.1).mpr (Or.inr ⟨e, he, rfl⟩))
  · intro h l hl
    rcases (hentry l).mp hl with rfl | ⟨e, he, rfl⟩
    · exact get?_root t
    · exact h e he

instance : Decidable t.Closed := decidable_of_iff _ closed_iff.symm

/-- Every folder before an entry is there. -/
theorem Closed.get?_of_prefix (h : t.Closed) {l l' : Location} (hl : t.get? l' ≠ none)
    (hpre : l <+: l') (hne : l ≠ l') : t.get? l = some .folder := by
  rcases hpre with ⟨r, rfl⟩
  induction r using List.reverseRecOn with
  | nil => exact absurd (List.append_nil l).symm hne
  | append_singleton r n ih =>
      have hfolder : t.get? (l ++ r) = some .folder := by
        have := h _ hl
        rwa [← List.append_assoc, List.dropLast_concat] at this
      by_cases hr : l = l ++ r
      · rw [hr]
        exact hfolder
      · exact ih (by rw [hfolder]; simp) hr

/-- Nothing lies below a location where there is nothing. -/
theorem Closed.get?_below (h : t.Closed) {l l' : Location} (hl : t.get? l = none) (hpre : l <+: l') :
    t.get? l' = none := by
  by_contra hsome
  by_cases hne : l = l'
  · exact hsome (hne ▸ hl)
  · rw [h.get?_of_prefix hsome hpre hne] at hl
    exact absurd hl (by simp)

/-- A walk from a folder arrives in one, or at something that would lie in
    one. -/
theorem Closed.walk_folder (h : t.Closed) (hloc : t.get? loc = some .folder)
    (hwalk : t.walk loc names = .ok loc') : t.get? loc'.dropLast = some .folder := by
  rcases List.eq_nil_or_concat names with rfl | ⟨xs, n, rfl⟩
  · rw [walk, Except.ok.injEq] at hwalk
    rw [← hwalk]
    exact h loc (by rw [hloc]; simp)
  · rw [List.concat_eq_append] at hwalk
    have hstation := (walk_eq_ok.mp hwalk).1 _ (place_mem_stations loc xs n [])
    rw [place_of_walk hwalk, place_append]
    change t.get? (step (place loc xs) n).dropLast = _
    rw [step]
    split
    · exact h _ (by rw [h _ (by rw [hstation]; simp)]; simp)
    · rw [List.dropLast_concat]
      exact hstation

end Tree

end RouteScaffold
