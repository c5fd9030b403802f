import RouteScaffold.Proofs.Disk.Exchange
import RouteScaffold.Proofs.Journal.Reading

/-!
# Undoing What Was Begun

A creation that was begun on one disk and stopped has left another. What lies
between the two is on record: a file differs only where something new has been
made, below a path that the intent lists, or where the intent has a snapshot.
Undoing gives the files of the snapshots what they held, and removes what is
below the listed paths. It may itself be stopped anywhere, since all that it does
makes the difference smaller, and nothing that it leaves is outside what is on
record.

So undoing can be begun again as often as it takes, and when it comes to its end
there is no difference any more. It fails only if a name or a path is too long.

## Main definitions

* `Disk.New`, `Snapshot.Original`: A path at which nothing is, and a snapshot of
  what is there.
* `Intent.Honest`: An intent that says the truth about the disk that it was begun
  on.
* `Journal.Between`: What lies between that disk and another one.
* `Journal.Undoing`: The same, the document being there as long as it is needed.

## Theorems

* `stays_restore`, `stays_removeCreated`: One snapshot, and one path that is listed.
* `stays_rollback`: Undoing can be stopped anywhere, and when it comes to its end there is
  no difference any more.
-/

namespace RouteScaffold

open Job Disk RouteScaffold.Tree Location

/-! ### What intents say -/

/-- A path to a document that leads over folders that are there, and over those that
    hold the document. -/
def Disk.LeadsTo (d : Disk) (file : Path) (doc : Location) : Prop :=
  ∀ s ∈ way d.here file, d.tree.get? s = some .folder ∨ s <+: doc ∧ s ≠ doc

/-- A path at which nothing is, and which does not lead back out of anything that
    is not there. -/
structure Disk.New (d : Disk) (p : Path) : Prop where
  level : d.Level p
  absent : d.Absent p

/-- A location at a path or below it, if the path can be walked. -/
def Disk.Covers (d : Disk) (path : Text) (l : Location) : Prop :=
  unwalkable? (.ofText path) = none ∧ spot d.here (.ofText path) <+: l

/-- Where the file of a snapshot is. -/
def Snapshot.place (s : Snapshot) (here : Location) : Location := spot here (.ofText s.file)

/-- A snapshot that says what a file holds on a disk, or that there is none. -/
def Snapshot.Original (s : Snapshot) (d : Disk) : Prop :=
  d.find (.ofText s.file) = .ok (s.place d.here)
    ∧ d.tree.get? (s.place d.here) = s.content.map fun t => .file (.text t)

/-- An intent that says the truth about a disk, and whose document lies where it
    has no snapshot of. -/
structure Intent.Honest (i : Intent) (d : Disk) (doc : Location) : Prop where
  created : ∀ c ∈ i.created, d.New (.ofText c)
  originals : ∀ s ∈ i.snapshots, s.Original d
  apart : ∀ s ∈ i.snapshots, s.place d.here ≠ doc

namespace Disk

variable {d e : Disk} {p : Path} {c : Text} {l : Location}

theorem Level.of_folders (h : d.Level p) (hhere : e.here = d.here)
    (hkeep : ∀ l, d.tree.get? l = some .folder → e.tree.get? l = some .folder) : e.Level p := by
  rcases h with ⟨xs, ys, loc, hnames, hys, hwalk, hfolder⟩
  refine ⟨xs, ys, loc, hnames, hys, ?_, hkeep loc hfolder⟩
  rw [origin, hhere]
  exact walk_of_folders hwalk hkeep

/-- The way to a path at which nothing is does not lead through it. -/
theorem New.not_through (h : d.New p) (hclosed : d.tree.Closed) (hwalkable : unwalkable? p = none) :
    ∀ s ∈ way d.here p, ¬ spot d.here p <+: s := by
  rcases h.level with ⟨xs, ys, loc, hnames, hys, hwalk, -⟩
  have hspot := spot_of_walk hnames hys hwalk
  intro s hs hpre
  rw [way, hnames, stations_append] at hs
  -- The way goes along folders that are there, and from there on above the path itself.
  rcases List.mem_append.mp hs with hs | hs
  · have hfolder := (walk_eq_ok.mp hwalk).1 s hs
    rw [hclosed.get?_below (h.absent hwalkable) hpre] at hfolder
    exact absurd hfolder (by simp)
  · rcases exists_of_mem_stations hs with ⟨us, n, vs, rfl, rfl⟩
    change spot d.here p <+: place (place (d.origin p) xs) us at hpre
    have hloc : place (d.origin p) xs = loc := (place_of_walk hwalk).symm
    have hus : ['.', '.'] ∉ us := fun hmem => hys (by simp [hmem])
    rw [hloc, place_of_names hus, hspot] at hpre
    have := hpre.length_le
    simp only [List.length_append, List.length_cons] at this
    omega

/-- Nothing is where a new path covers. -/
theorem New.get?_of_covers (h : d.New (.ofText c)) (hclosed : d.tree.Closed) (hl : d.Covers c l) :
    d.tree.get? l = none :=
  hclosed.get?_below (h.absent hl.1) hl.2

end Disk

namespace Journal

/-! ### What lies between two disks -/

/-- What lies between the disk that an intent was begun on and another one. Some
    of its snapshots and some of the paths that it lists are still to be seen to;
    but for these, and for its document, every file is as it was. -/
structure Between (d : Disk) (doc : Location) (i : Intent) (ss : List Snapshot) (cs : List Text)
    (e : Disk) : Prop where
  here : e.here = d.here
  closed : e.tree.Closed
  folders : ∀ l, d.tree.get? l = some .folder → e.tree.get? l = some .folder
  files : ∀ l, l ≠ doc → d.tree.SameFile e.tree l ∨ (∃ s ∈ ss, s.place d.here = l)
    ∨ ∃ c ∈ cs, d.Covers c l
  plain : ∀ s ∈ i.snapshots, e.tree.get? (s.place d.here) ≠ some .folder

/-- Every file that is not the tool's own is as it was. -/
def Restored (d : Disk) (own : Location) (e : Disk) : Prop :=
  ∀ l, ¬ own <+: l → d.tree.SameFile e.tree l

/-- What lies between two disks in the course of an undoing that was begun on a
    third. The document of the intent is there, unless everything is as it was
    already; and a folder may be gone, but no file has taken its place. -/
structure Undoing (d e₀ : Disk) (doc own : Location) (i : Intent) (ss : List Snapshot) (cs : List Text)
    (e : Disk) : Prop extends Between d doc i ss cs e where
  kept : e.tree.get? doc = some (.file (.text i.document))
    ∨ e.tree.get? doc = none ∧ Restored d own e
  fewer : ∀ l, e₀.tree.get? l = some .folder → e.tree.get? l = some .folder ∨ e.tree.get? l = none

variable {d e₀ e : Disk} {doc own : Location} {i : Intent} {ss ss' : List Snapshot} {cs cs' : List Text}
  {w : Write} {s : Snapshot} {c : Text} {j : Journal}

theorem Between.mono (h : Between d doc i ss cs e) (hss : ∀ s ∈ ss, s ∈ ss') (hcs : ∀ c ∈ cs, c ∈ cs') :
    Between d doc i ss' cs' e := by
  refine ⟨h.here, h.closed, h.folders, fun l hl => ?_, h.plain⟩
  rcases h.files l hl with hsame | ⟨s, hs, hplace⟩ | ⟨c, hc, hcovers⟩
  · exact Or.inl hsame
  · exact Or.inr (Or.inl ⟨s, hss s hs, hplace⟩)
  · exact Or.inr (Or.inr ⟨c, hcs c hc, hcovers⟩)

theorem Undoing.mono (h : Undoing d e₀ doc own i ss cs e) (hss : ∀ s ∈ ss, s ∈ ss')
    (hcs : ∀ c ∈ cs, c ∈ cs') : Undoing d e₀ doc own i ss' cs' e :=
  ⟨h.toBetween.mono hss hcs, h.kept, h.fewer⟩

theorem Between.isFolder_here (h : Between d doc i ss cs e) (hsound : d.Sound) :
    e.tree.get? e.here = some .folder := by
  rw [h.here]
  exact h.folders _ hsound.here

/-- Where a path led before, it leads still. -/
theorem Between.find (h : Between d doc i ss cs e) {p : Path} {loc : Location} (hfind : d.find p = .ok loc) :
    e.find p = .ok loc :=
  find_of_folders hfind h.here fun s hs => h.folders s (way_of_find hfind s hs)

/-- When nothing is left to be seen to, every file is as it was. -/
theorem Between.restored (h : Between d doc i [] [] e) (hown : own <+: doc) : Restored d own e := by
  intro l hl
  rcases h.files l (fun heq => hl (heq ▸ hown)) with hsame | ⟨s, hs, -⟩ | ⟨c, hc, -⟩
  · exact hsame
  · exact absurd hs (by simp)
  · exact absurd hc (by simp)

/-- A write that makes a file as it was, or removes what was not there. -/
theorem Undoing.write (h : Undoing d e₀ doc own i ss cs e) (hadmits : e.tree.Admits w)
    (hclosed : (e.tree.apply w).Closed) (hfolder : d.tree.get? w.place ≠ some .folder)
    (hsame : w.place ≠ doc → d.tree.SameFile (e.tree.apply w) w.place)
    (hplain : (e.tree.apply w).get? w.place ≠ some .folder)
    (hkept : w.place ≠ doc ∨ (e.tree.apply w).get? doc = none ∧ Restored d own e)
    (hfewer : e₀.tree.get? w.place = some .folder → (e.tree.apply w).get? w.place = none)
    (hown : own <+: doc) : Undoing d e₀ doc own i ss cs (e.made w) := by
  have hother : ∀ l, l ≠ w.place → (e.tree.apply w).get? l = e.tree.get? l := fun l hl =>
    -- Elsewhere nothing changes, so everything is decided at the place that is written.
    get?_apply_of_ne hadmits hl
  have hrestored : Restored d own e → Restored d own (e.made w) := by
    intro hr l hl
    by_cases hplace : l = w.place
    · rw [hplace]
      exact hsame fun heq => hl (by rw [hplace, heq]; exact hown)
    · exact (hr l hl).trans (sameFile_of_eq (hother l hplace))
  refine ⟨⟨h.here, hclosed, fun l hl => ?_, fun l hl => ?_, fun s hs => ?_⟩, ?_, fun l hl => ?_⟩
  · have hne : l ≠ w.place := fun heq => hfolder (heq ▸ hl)
    exact (hother l hne).trans (h.folders l hl)
  · by_cases hplace : l = w.place
    · rw [hplace] at hl ⊢
      exact Or.inl (hsame hl)
    · rcases h.files l hl with hfile | hrest
      · exact Or.inl (hfile.trans (sameFile_of_eq (hother l hplace)))
      · exact Or.inr hrest
  · by_cases hplace : s.place d.here = w.place
    · rw [hplace]
      exact hplain
    · intro hfold
      exact h.plain s hs ((hother _ hplace).symm.trans hfold)
  · rcases hkept with hne | ⟨hnone, hr⟩
    · have hdoc := hother doc (Ne.symm hne)
      exact h.kept.imp hdoc.trans fun hr => ⟨hdoc.trans hr.1, hrestored hr.2⟩
    · exact Or.inr ⟨hnone, hrestored hr⟩
  · by_cases hplace : l = w.place
    · rw [hplace] at hl ⊢
      exact Or.inr (hfewer hl)
    · have hsame := hother l hplace
      -- The place of the write has nothing by now; everywhere else it is as before.
      exact (h.fewer l hl).imp hsame.trans hsame.trans

/-- Removing what was not there, or the document itself when it is not needed any
    more. -/
theorem Undoing.erase (h : Undoing d e₀ doc own i ss cs e) {l : Location}
    (hleaf : ∀ l', l <+: l' → l' ≠ l → e.tree.get? l' = none)
    (hgone : d.tree.get? l = none ∨ l = doc ∧ e.tree.get? l ≠ some .folder)
    (hkept : l ≠ doc ∨ Restored d own e) (hown : own <+: doc) (hroot : l ≠ []) :
    Undoing d e₀ doc own i ss cs (e.made (.erase l)) := by
  have hnone : (e.tree.apply (.erase l)).get? l = none := by
    rw [get?_apply_erase, if_pos ⟨rfl, hroot⟩]
  -- The document may go only once everything else is restored.
  have hkept' : l ≠ doc ∨ (e.tree.apply (.erase l)).get? doc = none ∧ Restored d own e := by
    by_cases hdoc : l = doc
    · exact Or.inr ⟨hdoc ▸ hnone, hkept.resolve_left (not_not.mpr hdoc)⟩
    · exact Or.inl hdoc
  refine h.write trivial (h.closed.erase hleaf) ?_ (fun hne => ?_) ?_ hkept' (fun _ => hnone) hown
  -- What is erased is no folder of the first disk.
  · change d.tree.get? l ≠ _
    rcases hgone with hnone | ⟨-, hfile⟩
    · rw [hnone]
      simp
    · exact fun hfolder => hfile (h.folders l hfolder)
  · rcases hgone with hgone | ⟨heq, -⟩
    · refine sameFile_of_eq ?_
      exact hnone.trans hgone.symm
    · exact absurd heq hne
  · change (e.tree.apply (.erase l)).get? l ≠ _
    rw [hnone]
    simp

/-! ### Restoring -/

/-- A snapshot that has been seen to. -/
theorem Undoing.settle (h : Undoing d e₀ doc own i (s :: ss) cs e)
    (hs : d.tree.SameFile e.tree (s.place d.here)) : Undoing d e₀ doc own i ss cs e := by
  refine ⟨⟨h.here, h.closed, h.folders, fun l hl => ?_, h.plain⟩, h.kept, h.fewer⟩
  rcases h.files l hl with hsame | ⟨s', hs', hplace⟩ | hcovers
  · exact Or.inl hsame
  · rcases List.mem_cons.mp hs' with rfl | hs'
    · rw [← hplace]
      exact Or.inl hs
    · exact Or.inr (Or.inl ⟨s', hs', hplace⟩)
  · exact Or.inr (Or.inr hcovers)

/-- What faults undoing can end with: a name or a path is too long. -/
def TooLong (f : Fault) : Prop := ∃ path, f = .system .nameTooLong path

/-- A file that was not there is removed. -/
theorem on_restore_none (hcontent : s.content = none) (hfind : e.find (.ofText s.file) = .ok l)
    (hplain : e.tree.get? l ≠ some .folder) : (restore s).on e
      = if e.tree.get? l = none then (.ok false, e) else (.ok true, e.made (.erase l)) := by
  rw [restore, hcontent]
  dsimp only
  cases hentry : e.tree.get? l with
  -- Nothing is done if the file is missing already.
  | none =>
      have hthere : (isThere (.ofText s.file)).on e = (.ok false, e) := by
        rw [on_isThere, look, hfind]
        dsimp only
        rw [hentry]
        rfl
      rw [on_bind_ok hthere]
      rfl
  | some entry =>
      cases entry with
      | folder => exact absurd hentry hplain
      | file content =>
          have hthere : (isThere (.ofText s.file)).on e = (.ok true, e) := by
            rw [on_isThere, look_eq_some.mpr ⟨_, hfind, hentry⟩]
            rfl
          have hunlink : (unlink (.ofText s.file)).on e = (.ok (), e.made (.erase l)) := by
            rw [on_unlink, opened_of_find hfind hentry]
          rw [if_neg (Option.some_ne_none _), on_bind_ok hthere]
          exact on_bind_ok hunlink

/-- A file that was there gets back what it held, or its name is too long. -/
theorem on_restore_some {t : Text} (hcontent : s.content = some t) (hfind : e.find (.ofText s.file) = .ok l)
    (hplain : e.tree.get? l ≠ some .folder) (hclosed : e.tree.Closed)
    (hhere : e.tree.get? e.here = some .folder) (hnamed : ∀ n ∈ e.here, n ≠ ['.', '.'] ∧ '\x00' ∉ n) :
    (e.tree.Admits (.put l (.file (.text t)))
        ∧ (restore s).on e = (.ok true, e.made (.put l (.file (.text t)))))
      ∨ ∃ f, TooLong f ∧ (restore s).on e = (.error f, e) := by
  have hparent := isFolder_parent hfind hplain hclosed hhere
  rw [restore, hcontent]
  dsimp only
  rw [on_bind_ok hparent]
  rcases replaceable_cases hfind hplain hclosed hhere hnamed with hreplace | hreplace
  · left
    -- The file is exchanged for its text of the first disk.
    have hput : (replace (.ofText s.file) t).on e = (.ok (), e.made (.put l (.file (.text t)))) := by
      rw [on_replace, hreplace]
    exact ⟨admits_replaceable hreplace, on_bind_ok hput⟩
  · right
    -- Or the name aside is longer than the system takes.
    have hfail : (replace (.ofText s.file) t).on e
        = (.error (.system .nameTooLong (Path.ofText s.file).text), e) := by
      rw [on_replace, hreplace]
    exact ⟨_, ⟨_, rfl⟩, on_bind_error hfail⟩

/-- Restoring a snapshot keeps to what is on record, and leaves the file as it
    was. -/
theorem stays_restore (hsound : d.Sound) (hhonest : i.Honest d doc) (hown : own <+: doc)
    (hstart : ∀ s ∈ i.snapshots, e₀.tree.get? (s.place d.here) ≠ some .folder) (hs : s ∈ i.snapshots)
    (h : Undoing d e₀ doc own i (s :: ss) cs e) :
    Stays (Undoing d e₀ doc own i (s :: ss) cs) (restore s) e ∧ Fails TooLong (restore s) e
      ∧ ∀ b e', (restore s).on e = (.ok b, e') → Undoing d e₀ doc own i ss cs e' := by
  rcases hhonest.originals s hs with ⟨hfind, hheld⟩
  have hfind' := h.find hfind
  have hplain := h.plain s hs
  have hdoc := hhonest.apart s hs
  have hhere := h.isFolder_here hsound
  have hroot : s.place d.here ≠ [] := fun hnil => hplain (by rw [hnil]; exact get?_root _)
  cases hcontent : s.content with
  -- The file was missing when the command was begun, so it is erased, as a leaf.
  | none =>
      rw [hcontent, Option.map_none] at hheld
      have hon := on_restore_none hcontent hfind' hplain
      split at hon
      · next hentry =>
          refine ⟨stays_unchanged hon h, fails_of_ok hon, fun b e' he => ?_⟩
          rw [hon, Prod.mk.injEq] at he
          rw [← he.2]
          exact h.settle (sameFile_of_eq (hentry.trans hheld.symm))
      · have hleaf : ∀ l', s.place d.here <+: l' → l' ≠ s.place d.here → e.tree.get? l' = none := by
          intro l' hpre hne
          by_contra hsome
          exact hplain (h.closed.get?_of_prefix hsome hpre (Ne.symm hne))
        have herased := h.erase hleaf (Or.inl hheld) (Or.inl hdoc) hown hroot
        refine ⟨stays_once hon h herased, fails_of_ok hon, fun b e' he => ?_⟩
        rw [hon, Prod.mk.injEq] at he
        rw [← he.2]
        refine herased.settle (sameFile_of_eq (Eq.trans ?_ hheld.symm))
        change (e.tree.apply _).get? _ = _
        rw [get?_apply_erase, if_pos ⟨rfl, hroot⟩]
  -- Otherwise its text is put back.
  | some t =>
      rw [hcontent, Option.map_some] at hheld
      rcases on_restore_some hcontent hfind' hplain h.closed hhere (h.here ▸ hsound.named)
        with ⟨hadmits, hon⟩ | ⟨f, hf, hon⟩
      · have hnow : (e.tree.apply (.put (s.place d.here) (.file (.text t)))).get? (s.place d.here)
            = some (.file (.text t)) := by
          rw [get?_apply_put hadmits, if_pos rfl]
        have hsame := sameFile_of_eq (hnow.trans hheld.symm)
        have hput := h.write hadmits
          (h.closed.put hadmits (get?_parent_of_find hfind' h.closed hhere))
          (by rw [Write.place, hheld]; simp) (fun _ => hsame) (by rw [Write.place, hnow]; simp)
          (Or.inl hdoc) (fun hfolder => absurd hfolder (hstart s hs)) hown
        refine ⟨stays_once hon h hput, fails_of_ok hon, fun b e' he => ?_⟩
        rw [hon, Prod.mk.injEq] at he
        rw [← he.2]
        exact hput.settle hsame
      · refine ⟨stays_unchanged hon h, fun f' e' he => ?_, fun b e' he => ?_⟩
        · rw [hon, Prod.mk.injEq, Except.error.injEq] at he
          exact he.1 ▸ hf
        · rw [hon] at he
          exact absurd he (by simp)

/-! ### Removing -/

/-- A path that has been seen to. -/
theorem Undoing.clear (h : Undoing d e₀ doc own i ss (c :: cs) e)
    (hc : ∀ l, d.Covers c l → d.tree.SameFile e.tree l) : Undoing d e₀ doc own i ss cs e := by
  refine ⟨⟨h.here, h.closed, h.folders, fun l hl => ?_, h.plain⟩, h.kept, h.fewer⟩
  rcases h.files l hl with hsame | hplace | ⟨c', hc', hcovers⟩
  · exact Or.inl hsame
  · exact Or.inr (Or.inl hplace)
  · rcases List.mem_cons.mp hc' with rfl | hc'
    · exact Or.inl (hc l hcovers)
    · exact Or.inr (Or.inr ⟨c', hc', hcovers⟩)

/-- Where the tool's own files are: below a folder that was there. -/
structure Own (d : Disk) (own doc : Location) : Prop where
  within : own <+: doc
  ne_nil : own ≠ []
  folder : d.tree.get? own.dropLast = some .folder

/-- A new path that covers the document covers nothing but the tool's own
    files. -/
theorem Own.of_covers (h : Own d own doc) (hclosed : d.tree.Closed) (hnew : d.New (.ofText c))
    (hdoc : d.Covers c doc) {l : Location} (hl : d.Covers c l) : own <+: l := by
  have hnone := hnew.get?_of_covers hclosed ⟨hdoc.1, List.prefix_refl _⟩
  rcases List.prefix_or_prefix_of_prefix h.within hdoc.2 with hpre | hpre
  · exact hpre.trans hl.2
  · rcases List.eq_nil_or_concat own with hnil | ⟨base, n, howned⟩
    · exact absurd hnil h.ne_nil
    · rw [List.concat_eq_append] at howned
      rw [howned] at hpre
      rcases List.prefix_concat_iff.mp hpre with hsame | hshort
      · rw [howned, ← hsame]
        exact hl.2
      · have hfolder := h.folder
        rw [howned, List.dropLast_concat, hclosed.get?_below hnone hshort] at hfolder
        exact absurd hfolder (by simp)

/-- What removing leaves behind keeps to what is on record, at each of its
    writes. -/
theorem Undoing.erasures (hclosed : d.tree.Closed) (hown : Own d own doc) (hnew : d.New (.ofText c))
    (hwalkable : unwalkable? (.ofText c) = none) (hcs : ∀ c' ∈ cs, c' = c)
    (h : Undoing d e₀ doc own i [] (c :: cs) e) {ls : List Location}
    (hbelow : ∀ l ∈ ls, spot d.here (.ofText c) <+: l)
    (hleaves : ∀ us l vs, ls = us ++ l :: vs → ∀ l', l <+: l' → l' ≠ l →
      (e.tree.applyAll (us.map .erase)).get? l' = none) :
    ∀ us, us <+: ls → Undoing d e₀ doc own i [] (c :: cs) (e.after (us.map .erase)) := by
  have hgone : ∀ l ∈ ls, d.tree.get? l = none := fun l hl =>
    hnew.get?_of_covers hclosed ⟨hwalkable, hbelow l hl⟩
  -- The paths are erased one after the other, each as a leaf of what is left.
  intro us
  induction us using List.reverseRecOn with
  | nil => exact fun _ => h
  | append_singleton us l ih =>
      rintro ⟨vs, hvs⟩
      rw [List.append_assoc, List.singleton_append] at hvs
      have hl : l ∈ ls := by
        rw [← hvs]
        simp
      have hprev := ih ⟨l :: vs, hvs⟩
      rw [List.map_append, List.map_singleton, after_append]
      refine hprev.erase (fun l' hpre hne => ?_) (Or.inl (hgone l hl)) ?_ hown.within fun hnil => ?_
      · rw [after_tree]
        exact hleaves us l vs hvs.symm l' hpre hne
      · by_cases hdoc : l = doc
        · -- The document goes with the rest, which is of the tool's own making.
          right
          intro l' hl'
          rcases hprev.files l' (fun heq => hl' (heq ▸ hown.within)) with hsame | ⟨s, hs, -⟩ | ⟨c', hc', hcov⟩
          · exact hsame
          · exact absurd hs (by simp)
          · have hsame : c' = c := (List.mem_cons.mp hc').elim id (hcs c')
            rw [hsame] at hcov
            exact absurd (hown.of_covers hclosed hnew ⟨hwalkable, hdoc ▸ hbelow l hl⟩ hcov) hl'
        · exact Or.inl hdoc
      -- The root itself is there on the first disk.
      · have hnone := hgone l hl
        rw [hnil, get?_root] at hnone
        exact absurd hnone (by simp)

/-- Removing a listed path keeps to what is on record, and leaves nothing
    there. -/
theorem stays_removeCreated (hsound : d.Sound) (hown : Own d own doc) (hnew : d.New (.ofText c))
    (hcs : ∀ c' ∈ cs, c' = c) (h : Undoing d e₀ doc own i [] (c :: cs) e) :
    Stays (Undoing d e₀ doc own i [] (c :: cs)) (removeCreated c) e ∧ Fails TooLong (removeCreated c) e
      ∧ ∀ b e', (removeCreated c).on e = (.ok b, e') → Undoing d e₀ doc own i [] cs e' := by
  have hspot : spot e.here (.ofText c) = spot d.here (.ofText c) := by
    rw [h.here]
  have hgone : ∀ l, d.Covers c l → d.tree.get? l = none := fun l hl =>
    hnew.get?_of_covers hsound.closed hl
  rcases hthere : (isThere (.ofText c)).on e with ⟨r, e₁⟩
  have he₁ : e₁ = e := by
    have := looks_isThere (.ofText c) e
    rwa [hthere] at this
  subst he₁
  cases r with
  -- The path cannot be looked up only if it is too long.
  | error f =>
      have hon : (removeCreated c).on e₁ = (.error f, e₁) := on_bind_error hthere
      refine ⟨stays_unchanged hon h, fun f' e' he => ?_, fun b e' he => ?_⟩
      · rw [hon, Prod.mk.injEq, Except.error.injEq] at he
        rw [on_isThere, look] at hthere
        split at hthere
        · exact absurd hthere (by simp)
        · next hlook =>
            split at hlook
            · exact absurd hlook (by simp)
            · rw [← Except.error.inj hlook, Prod.mk.injEq, Except.error.injEq] at hthere
              exact he.1 ▸ ⟨_, hthere.1.symm⟩
            · exact absurd hlook (by simp)
      · rw [hon] at he
        exact absurd he (by simp)
  | ok there =>
      cases there with
      | false =>
          -- Where there is nothing, nothing is removed.
          have hon : (removeCreated c).on e₁ = (.ok false, e₁) := on_bind_ok hthere
          refine ⟨stays_unchanged hon h, fails_of_ok hon, fun b e' he => ?_⟩
          rw [hon, Prod.mk.injEq] at he
          rw [← he.2]
          refine h.clear fun l hl => sameFile_of_eq ?_
          have habsent := (hnew.level.of_folders h.here h.folders).absent h.closed hthere hl.1
          rw [hspot] at habsent
          rw [hgone l hl]
          exact h.closed.get?_below habsent hl.2
      | true =>
          rcases (isThere_iff hthere).mp rfl with ⟨loc, hfind, hloc⟩
          have hwalkable := (find_eq hfind).1
          have heq := spot_of_find hfind
          rw [hspot] at heq
          subst heq
          -- The working directory and the root were there before, so neither is the path.
          have hnames : (Path.ofText c).names ≠ [] := by
            intro hnil
            have hnone := hnew.absent hwalkable
            rw [spot, hnil, place, List.foldl_nil] at hnone
            split at hnone
            · rw [hsound.here] at hnone
              exact absurd hnone (by simp)
            · rw [get?_root] at hnone
              exact absurd hnone (by simp)
          have hway : ∀ s ∈ way e₁.here (.ofText c), spot d.here (.ofText c) <+: s →
              s = spot d.here (.ofText c) := by
            rw [h.here]
            exact fun s hs hpre => absurd hpre (hnew.not_through hsound.closed hwalkable s hs)
          have hon : (removeCreated c).on e₁
              = (.ok true, e₁.after (Job.erasures e₁.tree (spot d.here (.ofText c)))) :=
            on_remove_of_present hfind hloc hnames hway true
          -- Everything below the path goes, one leaf after the other.
          rcases erasures_leaves h.closed (spot d.here (.ofText c)) with ⟨ls, hls, hbelow, hall, hleaves⟩
          rw [hls] at hon
          have hstays := h.erasures hsound.closed hown hnew hwalkable hcs hbelow hleaves
          refine ⟨⟨ls.map .erase, by rw [hon], fun us hus => ?_⟩, fails_of_ok hon, fun b e' he => ?_⟩
          · have htake := List.prefix_iff_eq_take.mp hus
            rw [htake, ← List.map_take]
            exact hstays _ (List.take_prefix _ _)
          · rw [hon, Prod.mk.injEq] at he
            rw [← he.2]
            refine (hstays ls (List.prefix_refl _)).clear fun l hl => sameFile_of_eq ?_
            rw [hgone l hl, after_tree, get?_applyAll_erase]
            split
            · rfl
            · next hnot =>
                by_contra hsome
                refine hnot ⟨hall l hl.2 hsome, fun hnil => ?_⟩
                have hnone := hgone l hl
                rw [hnil, get?_root] at hnone
                exact absurd hnone (by simp)

/-! ### The whole of it -/

/-- A document that is there is found by its path. -/
theorem Between.find_document {file : Path} (h : Between d doc i ss cs e) (hlead : d.LeadsTo file doc)
    (hhere : e₀.here = d.here) (hfile : e₀.find file = .ok doc) (hdoc : e.tree.get? doc ≠ none) :
    e.find file = .ok doc := by
  refine find_of_folders hfile (h.here.trans hhere.symm) fun s hs => ?_
  rw [hhere] at hs
  rcases hlead s hs with hfolder | ⟨hpre, hne⟩
  · exact h.folders s hfolder
  · exact h.closed.get?_of_prefix hdoc hpre hne

section Rollback

variable (hsound : d.Sound) (hown : Own d own doc) (hhonest : i.Honest d doc)
  (hlead : d.LeadsTo (j.file i.id) doc) (hhere : e₀.here = d.here)
  (hfile : e₀.find (j.file i.id) = .ok doc)
include hown hlead hhere hfile

/-- An intent whose files and paths have been seen to can be dropped, and then its
    document is gone. -/
theorem stays_drop (h : Undoing d e₀ doc own i [] [] e) :
    Stays (Undoing d e₀ doc own i [] []) (j.drop i) e ∧ Fails TooLong (j.drop i) e
      ∧ ∀ u e', (j.drop i).on e = (.ok u, e') → Undoing d e₀ doc own i [] [] e'
        ∧ e'.tree.get? doc = none := by
  have hdone := h.restored hown.within
  have hroot : doc ≠ [] := fun hnil => hown.ne_nil (List.prefix_nil.mp (hnil ▸ hown.within))
  have hon := on_unlinkIfPresent (j.file i.id) e
  -- The document is there, and is erased as a leaf; or it has gone with what was made.
  rcases h.kept with hdoc | ⟨hnone, -⟩
  · rw [opened_of_find (h.find_document hlead hhere hfile (by rw [hdoc]; simp)) hdoc] at hon
    change (j.drop i).on e = (.ok (), e.made (.erase doc)) at hon
    have hleaf : ∀ l', doc <+: l' → l' ≠ doc → e.tree.get? l' = none := fun l' hpre hne => by
      by_contra hsome
      have hfolder := h.closed.get?_of_prefix hsome hpre (Ne.symm hne)
      rw [hdoc] at hfolder
      exact absurd hfolder (by simp)
    have herased := h.erase hleaf (Or.inr ⟨rfl, by rw [hdoc]; simp⟩) (Or.inr hdone) hown.within hroot
    refine ⟨stays_once hon h herased, fails_of_ok hon, fun u e' he => ?_⟩
    rw [hon, Prod.mk.injEq] at he
    rw [← he.2]
    exact ⟨herased, (get?_apply_erase _ _).trans (if_pos ⟨rfl, hroot⟩)⟩
  · have hmissing : e.opened (j.file i.id) = .error .missing := by
      rcases find_of_fewer hfile (h.here.trans hhere.symm) h.fewer with hfound | hmissing
      · rw [opened, hfound]
        dsimp only
        rw [hnone]
      · rw [opened, hmissing]
    rw [hmissing] at hon
    change (j.drop i).on e = (.ok (), e) at hon
    refine ⟨stays_unchanged hon h, fails_of_ok hon, fun u e' he => ?_⟩
    rw [hon, Prod.mk.injEq] at he
    exact he.2 ▸ ⟨h, hnone⟩

include hsound hhonest

/-- Undoing can be stopped anywhere: it keeps to what is on record. It fails only if a
    name or a path is too long, and when it comes to its end, nothing is left to be
    seen to, and the document is gone. -/
theorem stays_rollback (hstart : ∀ s ∈ i.snapshots, e₀.tree.get? (s.place d.here) ≠ some .folder)
    (hone : ∀ c ∈ i.created, ∀ c' ∈ i.created, c' = c)
    (h : Undoing d e₀ doc own i i.snapshots i.created e) :
    Stays (Undoing d e₀ doc own i i.snapshots i.created) (j.rollback i) e
      ∧ Fails TooLong (j.rollback i) e
      ∧ ∀ paths e', (j.rollback i).on e = (.ok paths, e') → Undoing d e₀ doc own i [] [] e'
        ∧ e'.tree.get? doc = none := by
  rcases stays_filterM (fun ss => Undoing d e₀ doc own i ss i.created)
    (fun s _ ss e he => he.mono (fun s' hs' => List.mem_cons_of_mem _ hs') fun _ hc => hc)
    (fun s hs ss e he => stays_restore hsound hhonest hown.within hstart hs he) h
    with ⟨hrestoring, hrestoringFails, hrestored⟩
  -- The invariant of the removals also says that all that is left to remove is on the list.
  have hremoving : ∀ {e' : Disk}, Undoing d e₀ doc own i [] i.created e' →
      Stays (fun e => (∀ c ∈ i.created.reverse, c ∈ i.created) ∧ Undoing d e₀ doc own i [] i.created.reverse e)
          (i.created.reverse.filterM removeCreated) e'
        ∧ Fails TooLong (i.created.reverse.filterM removeCreated) e'
        ∧ ∀ removed e'', (i.created.reverse.filterM removeCreated).on e' = (.ok removed, e'') →
          (∀ c ∈ ([] : List Text), c ∈ i.created) ∧ Undoing d e₀ doc own i [] [] e'' := fun {e'} he' =>
    stays_filterM (fun cs e => (∀ c ∈ cs, c ∈ i.created) ∧ Undoing d e₀ doc own i [] cs e)
      (fun c hc cs e he => ⟨fun c' hc' => (List.mem_cons.mp hc').elim
          (fun heq => heq ▸ List.mem_reverse.mp hc) (he.1 c'),
        he.2.mono (fun _ hs => hs) fun c' hc' => List.mem_cons_of_mem _ hc'⟩)
      (fun c hc cs e he => by
        have hmem := List.mem_reverse.mp hc
        have hcs : ∀ c' ∈ cs, c' = c := fun c' hc' => hone c hmem c' (he.1 c' (by simp [hc']))
        rcases stays_removeCreated hsound hown (hhonest.created c hmem) hcs he.2 with ⟨hstays, hfails, hnext⟩
        exact ⟨hstays.mono fun e' he' => ⟨he.1, he'⟩, hfails, fun b e' hb =>
          ⟨fun c' hc' => he.1 c' (by simp [hc']), hnext b e' hb⟩⟩)
      ⟨fun c hc => List.mem_reverse.mp hc, he'.mono (fun _ hs => hs) fun c hc => List.mem_reverse.mpr hc⟩
  have hall : ∀ {e' : Disk} {cs : List Text}, (∀ c ∈ cs, c ∈ i.created) → Undoing d e₀ doc own i [] cs e' →
      Undoing d e₀ doc own i i.snapshots i.created e' := fun hcs he' => he'.mono (by simp) hcs
  refine ⟨stays_bind hrestoring fun touched e₁ he₁ => ?_, fails_bind hrestoringFails fun touched e₁ he₁ => ?_,
    fun paths e' he' => ?_⟩
  · rcases hremoving (hrestored touched e₁ he₁) with ⟨hstays, -, hnext⟩
    refine stays_bind (hstays.mono fun e' he' => hall (fun c hc => List.mem_reverse.mp hc) he'.2) fun removed e₂ he₂ => ?_
    have hdrop := stays_drop hown hlead hhere hfile (hnext removed e₂ he₂).2
    refine stays_bind (hdrop.1.mono fun e' he' => hall (by simp) he') fun u e₃ he₃ => ?_
    exact stays_of_looks (looks_pure _) (hall (by simp) (hdrop.2.2 u e₃ he₃).1)
  · rcases hremoving (hrestored touched e₁ he₁) with ⟨-, hfails, hnext⟩
    refine fails_bind hfails fun removed e₂ he₂ => ?_
    have hdrop := stays_drop hown hlead hhere hfile (hnext removed e₂ he₂).2
    exact fails_bind hdrop.2.1 fun u e₃ _ => fails_of_ok (on_pure _ e₃)
  · rcases on_bind_eq_ok.mp he' with ⟨touched, e₁, he₁, hrest⟩
    rcases on_bind_eq_ok.mp hrest with ⟨removed, e₂, he₂, hrest⟩
    rcases on_bind_eq_ok.mp hrest with ⟨u, e₃, he₃, hpure⟩
    rw [← (looks_pure _).ok hpure] at he₃
    exact (stays_drop hown hlead hhere hfile
      ((hremoving (hrestored touched e₁ he₁)).2.2 removed e₂ he₂).2).2.2 u e' he₃

end Rollback

end Journal

end RouteScaffold
