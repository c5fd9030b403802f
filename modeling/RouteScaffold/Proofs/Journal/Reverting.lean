import RouteScaffold.Proofs.Journal.Tracing

/-!
# Reverting What Is on Record

Undoing removes what is at the path that an intent lists, and all below it. If something
was there before, the disk that undoing leads back to is not the one that the command was
begun on, but that one without what is there. From this disk the path is new, and all
that undoing asks for is given, as long as nothing that it walks through lies there too.

## Main definitions

* `Disk.Lacking`: A disk without what is at some paths.
* `Journal.Revertible`: A command that can be undone, wherever it is stopped.

## Theorems

* `exists_lacking`: There is such a disk.
* `Traced.undoing`: What is on record can be undone.
-/

namespace RouteScaffold

open Job Disk RouteScaffold.Tree Location

namespace Disk

variable {d b : Disk} {c : Text} {cs : List Text} {l : Location}

/-- A disk without what is at some paths, and below them. -/
structure Lacking (d : Disk) (cs : List Text) (b : Disk) : Prop where
  here : b.here = d.here
  gone : ∀ l, (∃ c ∈ cs, d.Covers c l) → b.tree.get? l = none
  same : ∀ l, (¬ ∃ c ∈ cs, d.Covers c l) → b.tree.get? l = d.tree.get? l

/-- What is below a covered location is covered too. -/
theorem Covers.below {l' : Location} (h : d.Covers c l) (hpre : l <+: l') : d.Covers c l' :=
  ⟨h.1, h.2.trans hpre⟩

theorem Lacking.get?_ne_none (h : d.Lacking cs b) (hl : b.tree.get? l ≠ none) :
    (¬ ∃ c ∈ cs, d.Covers c l) ∧ b.tree.get? l = d.tree.get? l := by
  have hout : ¬ ∃ c ∈ cs, d.Covers c l := fun hc => hl (h.gone l hc)
  exact ⟨hout, h.same l hout⟩

theorem Lacking.closed (h : d.Lacking cs b) (hclosed : d.tree.Closed) : b.tree.Closed := by
  intro l hl
  rcases h.get?_ne_none hl with ⟨hout, hsame⟩
  rw [hsame] at hl
  rw [h.same l.dropLast fun ⟨c, hc, hcovers⟩ => hout ⟨c, hc, hcovers.below (List.dropLast_prefix l)⟩]
  exact hclosed l hl

theorem get?_erasures (hclosed : d.tree.Closed) {loc : Location} (hne : loc ≠ []) (l : Location) :
    (d.after (erasures d.tree loc)).tree.get? l = if loc <+: l then none else d.tree.get? l := by
  rcases erasures_leaves hclosed loc with ⟨ls, hls, hbelow, hall, -⟩
  rw [hls, after_tree, get?_applyAll_erase]
  by_cases hpre : loc <+: l
  · rw [if_pos hpre]
    split
    · rfl
    · next hnot =>
        by_contra hsome
        refine hnot ⟨hall l hpre hsome, fun hnil => hne ?_⟩
        rwa [hnil, List.prefix_nil] at hpre
  · rw [if_neg hpre, if_neg fun hmem => hpre (hbelow l hmem.1)]

/-- There is a disk without what is at some paths, none of which leads to the root of
    all. -/
theorem exists_lacking (hclosed : d.tree.Closed)
    (hne : ∀ c ∈ cs, unwalkable? (.ofText c) = none → spot d.here (.ofText c) ≠ []) : ∃ b, d.Lacking cs b := by
  induction cs with
  | nil => exact ⟨d, rfl, fun l ⟨c, hc, _⟩ => absurd hc (by simp), fun l _ => rfl⟩
  | cons c cs ih =>
      rcases ih fun c' hc' => hne c' (by simp [hc']) with ⟨b, hb⟩
      -- A path that cannot be walked covers nothing.
      by_cases hwalk : unwalkable? (.ofText c) = none
      · refine ⟨b.after (erasures b.tree (spot d.here (.ofText c))), (after_here _ _).trans hb.here,
          fun l hl => ?_, fun l hl => ?_⟩
        all_goals
          rw [get?_erasures (hb.closed hclosed) (hne c (by simp) hwalk)]
        · rcases hl with ⟨c', hc', hcovers⟩
          split
          · rfl
          · next hpre =>
              rcases List.mem_cons.mp hc' with rfl | hc'
              · exact absurd hcovers.2 hpre
              · exact hb.gone l ⟨c', hc', hcovers⟩
        · rw [if_neg fun hpre => hl ⟨c, by simp, hwalk, hpre⟩]
          -- Erasing what one path covers leaves what the others do not cover.
          exact hb.same l fun ⟨c', hc', hcovers⟩ => hl ⟨c', by simp [hc'], hcovers⟩
      · refine ⟨b, hb.here, fun l ⟨c', hc', hcovers⟩ => ?_, fun l hl => ?_⟩
        · rcases List.mem_cons.mp hc' with rfl | hc'
          · exact absurd hcovers.1 hwalk
          · exact hb.gone l ⟨c', hc', hcovers⟩
        · exact hb.same l fun ⟨c', hc', hcovers⟩ => hl ⟨c', by simp [hc'], hcovers⟩

end Disk

namespace Journal

variable {d b e : Disk} {j : Journal} {i start : Intent} {id : Text} {made : Path} {behind : List Step}
  {own : Location}

/-- A command that can be undone wherever it is stopped: nothing that undoing walks
    through is at the path that the command makes something at, or below it. -/
structure Revertible (j : Journal) (id : Text) (d : Disk) (made : Path) (behind : List Step) : Prop where
  plain : made.Plain
  ne_root : unwalkable? made = none → spot d.here made ≠ []
  level : ∃ xs ys loc, made.names = xs ++ ys ∧ ['.', '.'] ∉ ys ∧ d.tree.walk (d.origin made) xs = .ok loc
    ∧ d.tree.get? loc = some .folder ∧ ¬ d.Covers made.text loc
  outside : ∀ s, s = d.here ∨ s ∈ way d.here made ∨ s ∈ way d.here (j.file id)
    ∨ (∃ p, .snapshot p ∈ behind ∧ s ∈ way d.here p) → d.tree.get? s = some .folder → ¬ d.Covers made.text s
  changes : j.Changes id d made behind

/-- The file that is changed is not among what is made. -/
theorem Changes.not_covers (h : j.Changes id d made behind) {p : Path} (hp : .snapshot p ∈ behind) :
    ¬ d.Covers made.text (spot d.here p) := by
  cases h with
  | nothing => exact absurd hp (by simp)
  | file plain sighted keeps outside =>
      rcases List.mem_cons.mp hp with heq | hp
      · rw [Step.snapshot.injEq] at heq
        rwa [heq]
      · rcases List.mem_map.mp hp with ⟨e, -, he⟩
        exact absurd he (by simp)

namespace Revertible

variable (h : j.Revertible id d made behind) (hb : d.Lacking i.created b) (htells : i.Tells d start made behind)
include h hb htells

/-- The folders that undoing walks through are still there. -/
theorem folder {s : Location} (hs : s = d.here ∨ s ∈ way d.here made ∨ s ∈ way d.here (j.file id)
      ∨ ∃ p, .snapshot p ∈ behind ∧ s ∈ way d.here p) (hfolder : d.tree.get? s = some .folder) :
    b.tree.get? s = some .folder := by
  rw [hb.same s (htells.not_covered (h.outside s hs hfolder))]
  exact hfolder

theorem sound (hsound : d.Sound) : b.Sound := by
  refine ⟨hb.closed hsound.closed, ?_, hb.here ▸ hsound.named, fun l c t hl hread => ?_⟩
  · rw [hb.here]
    exact h.folder hb htells (Or.inl rfl) hsound.here
  · rw [(hb.get?_ne_none (by rw [hl]; simp)).2] at hl
    exact hsound.spelled l c t hl hread

/-- Without what is there the path is new. -/
theorem new {c : Text} (hc : c ∈ i.created) : b.New (.ofText c) := by
  have hpath : Path.ofText c = made := by rw [htells.created c hc, h.plain.ofText_text]
  rw [hpath]
  rcases h.level with ⟨xs, ys, loc, hnames, hys, hwalk, hfolder, hout⟩
  refine ⟨⟨xs, ys, loc, hnames, hys, ?_, ?_⟩, fun hwalkable => hb.gone _ ⟨c, hc, ?_, ?_⟩⟩
  · rw [show b.origin made = d.origin made by rw [origin, origin, hb.here]]
    refine Tree.walk_eq_ok.mpr ⟨fun s hs => ?_, (Tree.walk_eq_ok.mp hwalk).2⟩
    refine h.folder hb htells (Or.inr (Or.inl ?_)) ((Tree.walk_eq_ok.mp hwalk).1 s hs)
    rw [way, hnames, stations_append]
    exact List.mem_append_left _ hs
  · rw [hb.same loc (htells.not_covered hout)]
    exact hfolder
  · rw [hpath]
    exact hwalkable
  · rw [hpath, hb.here]

theorem honest {doc : Location} (hfrees : j.Frees d.here i) (hid : i.id = id) (hdoc : doc = spot d.here (j.file id)) :
    i.Honest b doc := by
  refine ⟨fun c hc => h.new hb htells hc, fun s hs => ?_, fun s hs => ?_⟩
  · rcases htells.snapshots s hs with ⟨⟨hfind, hheld⟩, hmem⟩
    have hplace : s.place b.here = s.place d.here := by rw [hb.here]
    rw [Snapshot.Original, hplace]
    refine ⟨find_of_folders hfind hb.here fun l hl => ?_, ?_⟩
    · exact h.folder hb htells (Or.inr (Or.inr (Or.inr ⟨_, hmem, hl⟩))) (way_of_find hfind l hl)
    · rw [hb.same (s.place d.here) (htells.not_covered (h.changes.not_covers hmem))]
      exact hheld
  · rw [hb.here, hdoc, ← hid]
    exact fun heq => (hfrees s hs).document heq.symm

theorem leadsTo {doc : Location} (hlead : d.LeadsTo (j.file id) doc) : b.LeadsTo (j.file id) doc := by
  intro s hs
  rw [hb.here] at hs
  exact (hlead s hs).imp_left fun hfolder => h.folder hb htells (Or.inr (Or.inr (Or.inl hs))) hfolder

end Revertible

/-- What is on record can be undone. -/
theorem Traced.undoing (he : j.Traced d start made behind i e) (hb : d.Lacking i.created b) :
    Undoing b e (spot d.here (j.file i.id)) own i i.snapshots i.created e := by
  refine ⟨⟨he.here.trans hb.here.symm, he.closed, fun l hl => ?_, fun l hl => ?_, ?_⟩, Or.inl he.saved,
    fun l hl => Or.inl hl⟩
  · rw [(hb.get?_ne_none (by rw [hl]; simp)).2] at hl
    exact he.folders l hl
  -- What a listed path covers may have been made, and is to be removed.
  · by_cases hcovers : ∃ c ∈ i.created, d.Covers c l
    · rcases hcovers with ⟨c, hc, hwalk, hpre⟩
      exact Or.inr (Or.inr ⟨c, hc, hwalk, hb.here ▸ hpre⟩)
    · rcases he.files l hl with hsame | hplace | hcovers'
      · exact Or.inl fun c => (hsame c).trans (by rw [hb.same l hcovers])
      · rw [hb.here]
        exact Or.inr (Or.inl hplace)
      · exact absurd hcovers' hcovers
  · rw [hb.here]
    exact he.plain

end Journal

end RouteScaffold
