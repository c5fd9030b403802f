import RouteScaffold.Proofs.Journal.Documents

/-!
# Making Things

A command that makes something makes a few folders and files below one place,
and then it may change a file that was there before. What is to be made is told
by the way down to it from that place. Nothing that is made earlier stands at a
place of something new that is made later, or on top of it, and so each new file
finds its place as empty as it was before the command.

## Main definitions

* `Made`, `making`: What is made below a place, and the steps that make it.
* `Makable`: Everything new can be made.

## Theorems

* `Makable.after_save`: Saving an intent leaves everything as makable as it was.
* `followed_making_mechanical`: Making what is makable is only ever refused.
* `followed_revision_mechanical`, `followed_line_mechanical`: So is changing a
  file behind a snapshot of it.
* `track_raises`, `track_mechanical`: The faults of a command are the refusals of its
  intent and the faults of its plan; a plan that is only ever refused makes a command
  that is.
-/

namespace RouteScaffold

open Disk RouteScaffold.Tree Location Naming

/-- What is made at a place. -/
inductive Made where
  | folder
  /-- A file that must not exist yet. -/
  | newFile (t : Text)
  | file (t : Text)

/-- The step that makes something. -/
def Made.step (p : Path) : Made → Step
  | folder => .folder p
  | newFile t => .newFile p t
  | file t => .file p t

/-- The steps that make things, each at the end of its way down from a
    place. -/
def making (top : Path) (things : List (List Text × Made)) : List Step :=
  things.map fun x => x.2.step (top.below x.1)

/-- Everything new can be made: nothing is at its place, and nothing that is
    made earlier gets in its way. -/
structure Makable (d : Disk) (top : Path) (things : List (List Text × Made)) : Prop where
  level : d.Level top
  straight : ∀ x ∈ things, ['.', '.'] ∉ x.1
  apart : things.Pairwise fun x y => ¬ y.1 <+: x.1
  absent : ∀ names t, (names, .newFile t) ∈ things → d.Absent (top.below names)
  source : ∀ names t, (names, .newFile t) ∈ things → ∃ ns name, names = ns ++ [name]
    ∧ Path.IsSource name

variable {d : Disk} {top : Path} {things : List (List Text × Made)} {j : Journal} {i : Intent}
  {root : Path} {base : Location}

theorem mem_making {s : Step} : s ∈ making top things ↔ ∃ x ∈ things, s = x.2.step (top.below x.1) := by
  rw [making, List.mem_map]
  exact exists_congr fun x => and_congr_right fun _ => eq_comm

theorem newFile_mem_making {p : Path} {t : Text} (h : .newFile p t ∈ making top things) :
    ∃ names, (names, .newFile t) ∈ things ∧ p = top.below names := by
  rcases mem_making.mp h with ⟨⟨names, made⟩, hx, heq⟩
  cases made with
  | newFile u =>
      rw [Made.step, Step.newFile.injEq] at heq
      rw [heq.1, heq.2]
      exact ⟨names, hx, rfl⟩
  | folder => exact absurd heq (by simp [Made.step])
  | file u => exact absurd heq (by simp [Made.step])

theorem making_creates : ∀ s ∈ making top things, s.creates = true := by
  intro s hs
  rcases mem_making.mp hs with ⟨x, -, rfl⟩
  cases x.2 <;> rfl

namespace Disk

theorem Level.after {ws : List Write} (h : d.Level top) (hws : d.tree.Runs Makes ws) :
    (d.after ws).Level top := by
  rcases h with ⟨xs, ys, loc, hnames, hys, hwalk, hfolder⟩
  refine ⟨xs, ys, loc, hnames, hys, ?_, ?_⟩
  · rw [after_tree, show (d.after ws).origin top = d.origin top by simp [origin]]
    exact walk_of_folders hwalk fun l hl => hws.keeps_folder hl
  · rw [after_tree]
    exact hws.keeps_folder hfolder

end Disk

namespace Makable

theorem spot_eq (h : Makable d top things) {x : List Text × Made} (hx : x ∈ things) :
    spot d.here (top.below x.1) = spot d.here top ++ x.1 := spot_below _ _ (h.straight x hx)

/-- The place of a new file is kept by the documents of intents. -/
theorem keeps (h : Makable d top things) (hj : j.Set root) (hroot : d.find root = .ok base)
    (hfolder : d.tree.get? base = some .folder) {id : Text} (hid : ∀ c ∈ id, isTame c = true)
    {names : List Text} {t : Text} (hx : (names, .newFile t) ∈ things)
    (hwalk : unwalkable? (top.below names) = none) :
    j.Keeps id d.here (spot d.here (top.below names)) := by
  rcases h.source names t hx with ⟨ns, name, rfl, hname⟩
  have habsent := h.absent _ t hx hwalk
  rw [h.spot_eq hx, ← List.append_assoc] at habsent ⊢
  refine Journal.keeps_of_source hj hid hroot hfolder hname ?_
  rw [habsent]
  simp

/-- Saving an intent leaves everything as makable as it was. -/
theorem after_save (h : Makable d top things) (hj : j.Set root) (hroot : d.find root = .ok base)
    (hfolder : d.tree.get? base = some .folder) (hid : ∀ c ∈ i.id, isTame c = true) {d' : Disk}
    {r : Except Fault Unit} (hsave : (j.save i).on d = (r, d')) : Makable d' top things := by
  rcases Journal.makes_save j i d rfl with ⟨ws, hws, hmakes⟩
  rw [hsave] at hws
  dsimp only at hws
  refine ⟨?_, h.straight, h.apart, fun names t hx hwalk => ?_, h.source⟩
  · rw [hws]
    exact h.level.after hmakes
  · rcases (h.keeps hj hroot hfolder hid hx hwalk).shuns_save d rfl with ⟨vs, hvs, hshuns⟩
    rw [hsave] at hvs
    dsimp only at hvs
    rw [hvs]
    exact (h.absent names t hx).after (fun _ => hshuns) hwalk

end Makable

namespace Journal

open Job Edit

variable {i' : Intent} {d' : Disk} {f : Fault}

/-- What a command has written when it has saved its intent and followed a
    plan. -/
theorem run_of_followed {R : Tree → Write → Prop} {plan : List Step} {r : Except Fault Bool}
    {d₁ d₂ : Disk} (hdoes : Does d.here R (j.save i))
    (hplan : ∀ s ∈ plan, ∀ k : Intent, k.id = i.id → Does d.here R (j.take k s))
    (hsave : (j.save i).on d = (.ok (), d₁)) (hfollow : j.followed i plan d₁ = (i', r, d₂)) :
    ∃ ws, d₂ = d.after ws ∧ d.tree.Runs R ws ∧ i'.id = i.id := by
  rcases hdoes d rfl with ⟨ws, hws, hruns⟩
  rw [hsave] at hws
  dsimp only at hws
  rcases does_followed hplan d₁ (by rw [hws, after_here]) with ⟨vs, hvs, hruns', hid⟩
  rw [hfollow] at hvs hid
  dsimp only at hvs hid
  refine ⟨ws ++ vs, ?_, Runs.append.mpr ⟨hruns, ?_⟩, hid⟩
  · rw [hvs, hws, after_append]
  · rw [← after_tree, ← hws]
    exact hruns'

/-- Making what is makable is only ever refused. -/
theorem followed_making_mechanical (h : Makable d top things) (hj : j.Set root)
    (hroot : d.find root = .ok base) (hfolder : d.tree.get? base = some .folder)
    (hid : ∀ c ∈ i.id, isTame c = true) {made : Path}
    (hf : j.followed i (.record made :: making top things) d = (i', .error f, d')) :
    f.category = none := by
  have hmem : ∀ p t, .newFile p t ∈ Step.record made :: making top things →
      ∃ names, (names, .newFile t) ∈ things ∧ p = top.below names := by
    intro p t hp
    rcases List.mem_cons.mp hp with heq | hp
    · exact absurd heq (by simp)
    · exact newFile_mem_making hp
  refine followed_makes_mechanical ?_ (fun p t hp => ?_) (fun p t hp hwalk => ?_) ?_ hf
  · intro s hs
    rcases List.mem_cons.mp hs with rfl | hs
    · rfl
    · exact making_creates s hs
  · rcases hmem p t hp with ⟨names, hx, rfl⟩
    -- A file that is to be new is none of those on the disk.
    exact h.absent names t hx
  -- Saving the intent does not make it.
  · rcases hmem p t hp with ⟨names, hx, rfl⟩
    exact h.keeps hj hroot hfolder hid hx hwalk
  -- Nor do the steps in front of its own.
  · rw [List.pairwise_cons]
    refine ⟨fun _ _ _ _ _ _ => trivial, ?_⟩
    rw [making, List.pairwise_map]
    refine h.apart.imp_of_mem fun {x y} hx hy hxy p t heq hwalk => ?_
    have hy' : (y.1, .newFile t) ∈ things ∧ p = top.below y.1 := by
      rcases y with ⟨names, made'⟩
      cases made' with
      | newFile u =>
          rw [Made.step, Step.newFile.injEq] at heq
          rw [← heq.1, ← heq.2]
          exact ⟨hy, rfl⟩
      | folder => exact absurd heq (by simp [Made.step])
      | file u => exact absurd heq (by simp [Made.step])
    rcases hy' with ⟨hnew, rfl⟩
    have habsent := h.absent _ t hnew hwalk
    rw [h.spot_eq hy] at habsent ⊢
    have hclear : Clear d.here (top.below x.1) (spot d.here top ++ y.1) :=
      h.level.clear (h.straight x hx) (by rw [habsent]; simp) hxy
    -- Whatever is made before lies beside the file or above it.
    cases x.2 with
    | folder => exact hclear
    | newFile u => exact hclear
    | file u => exact hclear.spot_ne

theorem makes_making {made : Path} :
    ∀ s ∈ Step.record made :: making top things, s.makes = true := by
  intro s hs
  rcases List.mem_cons.mp hs with rfl | hs
  · rfl
  · rcases mem_making.mp hs with ⟨x, -, rfl⟩
    cases x.2 <;> rfl

/-- A place at which none of the things is made is spared. -/
theorem spares_making {names : List Text} (hstraight : ∀ x ∈ things, ['.', '.'] ∉ x.1)
    (hnames : ∀ x ∈ things, x.1 ≠ names) {made : Path} (here : Location) :
    ∀ s ∈ Step.record made :: making top things, s.Spares here (spot here top ++ names) := by
  intro s hs
  rcases List.mem_cons.mp hs with rfl | hs
  · trivial
  · rcases mem_making.mp hs with ⟨x, hx, rfl⟩
    have hne : spot here (top.below x.1) ≠ spot here top ++ names := by
      rw [spot_below here top (hstraight x hx)]
      exact fun heq => hnames x hx (List.append_cancel_left heq)
    cases x.2 with
    | folder => trivial
    | newFile u => exact hne
    | file u => exact hne

/-- Inserting into a file behind a snapshot of it is only ever refused. -/
theorem followed_revision_mechanical {file : Path} {es : List Edit} {ts : List Text} {raw : Text}
    {loc : Location} {c : Content} (hall : InsertsAll file.text es raw ts)
    (hfind : d.find file = .ok loc) (hfile : d.tree.get? loc = some (.file c))
    (hread : c.read = .ok raw) (hdoc : spot d.here (j.file i.id) ≠ loc)
    (hf : j.followed i (.snapshot file :: es.map (.edit file)) d = (i', .error f, d')) :
    f.category = none := by
  rcases followed_cons_error hf with htake | ⟨k, changed, d₁, htake, hrest⟩
  · refine learnSnapshot_mechanical (fun _ => ?_) htake
    rw [← spot_of_find hfind, hfile]
    simp
  · -- Saving the snapshot has left the file as it was.
    have hmakes : Does d.here (fun t w => t.Makes w ∧ t.Spares loc w) (j.take i (.snapshot file)) :=
      (makes_take rfl).and (spares_take trivial hdoc)
    rcases hmakes d rfl with ⟨ws, hws, hruns⟩
    rw [htake] at hws
    dsimp only at hws
    subst hws
    refine followed_insertsAll_mechanical hall (find_after hfind (hruns.mono fun _ _ h => h.1)) ?_
      hread hrest
    rw [after_tree]
    exact (hruns.mono fun _ _ h => h.2).spares hfile

/-- Appending a line behind a snapshot is only ever refused. -/
theorem followed_line_mechanical {file : Path} {line : Text} (hfree : d.Folderless file)
    (hkeeps : unwalkable? file = none → j.Keeps i.id d.here (spot d.here file))
    (hf : j.followed i [.snapshot file, .edit file (.append line)] d = (i', .error f, d')) :
    f.category = none := by
  rcases followed_cons_error hf with htake | ⟨k, changed, d₁, htake, hrest⟩
  · exact learnSnapshot_mechanical hfree htake
  · rcases followed_cons_error hrest with hedit | ⟨k', changed', d₂, -, hnil⟩
    · rcases on_bind_eq_error.mp hedit with hedit | ⟨b, d₂, -, hpure⟩
      · refine edit_append_mechanical ?_ hedit
        -- Saving the snapshot has made no folder there.
        have hhere : Does d.here Makes (j.take i (.snapshot file)) := makes_take rfl
        rcases hhere d rfl with ⟨ws, hws, -⟩
        rw [htake] at hws
        dsimp only at hws
        subst hws
        refine hfree.after fun hwalk => ?_
        have hshuns : Does d.here (Shuns (spot d.here file)) (j.take i (.snapshot file)) :=
          does_learnSnapshot fun i' hid => Keeps.shuns_save (by rw [hid]; exact hkeeps hwalk)
        rcases hshuns d rfl with ⟨vs, hvs, hruns⟩
        rw [htake] at hvs
        rw [after_inj hvs]
        exact hruns.mono fun _ _ h => h.makesNoFolder
      · exact absurd hpure (by simp)
    · rw [followed_nil] at hnil
      exact absurd hnil (by simp)

/-- The faults of a command are the refusals of its intent, and those of its plan. -/
theorem track_raises {I : Disk → Prop} {P : Fault → Prop} (hmachine : Tolerates I P) {now : Timestamp} {verb : Text}
    {args : List Text} {mode : Mode} {plan : List Step} {r : Except Fault Bool} (hd : I d)
    (hplan : ∀ d₁, I d₁ → (j.save (Intent.start verb args mode now)).on d = (.ok (), d₁) → ∀ i' r₂ d₂,
      j.followed (Intent.start verb args mode now) plan d₁ = (i', r₂, d₂) → I d₂ ∧ ∀ g, r₂ = .error g → P g)
    (hrun : (j.track now verb args mode plan).on d = (r, d')) : I d' ∧ ∀ f, r = .error f → P f := by
  -- Every part of a command keeps the condition and raises proper faults: saving, following the
  -- plan, and settling.
  rw [on_track] at hrun
  rcases hsave : (j.save (Intent.start verb args mode now)).on d with ⟨g | _, d₁⟩
  · rw [hsave, Prod.mk.injEq] at hrun
    rcases hrun with ⟨rfl, rfl⟩
    refine ⟨(raises_save hmachine j _).keeps hd hsave, fun f hf => ?_⟩
    rw [← Except.error.inj hf]
    exact (raises_save hmachine j _).fault hd hsave
  · rw [hsave] at hrun
    rcases hfollow : j.followed (Intent.start verb args mode now) plan d₁ with ⟨i₂, r₂, d₂⟩
    rcases hplan d₁ ((raises_save hmachine j _).keeps hd hsave) hsave i₂ r₂ d₂ hfollow with ⟨hd₂, hfaults⟩
    dsimp only at hrun
    rw [hfollow] at hrun
    cases r₂ with
    | ok changed => exact ((raises_drop hmachine j i₂).bind fun _ => raises_pure _) d₂ r d' hd₂ hrun
    | error g => exact ((raises_save hmachine j _).bind fun _ => raises_fail (hfaults g rfl)) d₂ r d' hd₂ hrun

/-- A plan that is only ever refused makes a command that is only ever
    refused. -/
theorem track_mechanical {now : Timestamp} {verb : Text} {args : List Text} {mode : Mode}
    {plan : List Step}
    (hplan : ∀ d₁, (j.save (Intent.start verb args mode now)).on d = (.ok (), d₁) → ∀ i' g d₂,
      j.followed (Intent.start verb args mode now) plan d₁ = (i', .error g, d₂) → g.category = none)
    (hf : (j.track now verb args mode plan).on d = (.error f, d')) : f.category = none :=
  (track_raises tolerates_mechanical trivial (fun d₁ _ hsave i' _ d₂ hfollow =>
    ⟨trivial, fun g hg => hplan d₁ hsave i' g d₂ (hg ▸ hfollow)⟩) hf).2 f rfl

end Journal

end RouteScaffold
