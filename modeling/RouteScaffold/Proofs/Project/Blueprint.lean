import RouteScaffold.Proofs.Journal.Making
import RouteScaffold.Proofs.Project.Commands
import RouteScaffold.Proofs.Registry.Adding

/-!
# Blueprints

The plans of all commands that make something are built alike. One path is
recorded; what is made lies below it; and then one file that was there before
may be changed, behind a snapshot of it. When nothing stands in the way of such
a plan as it is begun, then nothing but the refusals of the file system can stop
it.

## Main definitions

* `Blueprint`: A plan of a command that makes something.
* `Behind`: What follows once everything has been made.
* `Blueprint.Ready`: A plan that nothing stands in the way of.

## Theorems

* `Behind.mechanical`: What follows once everything has been made is only ever
  refused.
* `Blueprint.Ready.mechanical`: So is the whole of a plan that nothing stands in
  the way of.
-/

namespace RouteScaffold

open Job Disk RouteScaffold.Tree Naming Location Journal

/-- A plan of a command that makes something: the place below which everything
    is made, the way from there to the path that is recorded, the things that
    are made, and what is done behind that. -/
structure Blueprint where
  top : Path
  way : List Text
  things : List (List Text × Made)
  behind : List Step

namespace Blueprint

/-- The path that is recorded. -/
def made (b : Blueprint) : Path := b.top.below b.way

/-- The plan itself. -/
def plan (b : Blueprint) : List Step := (.record b.made :: making b.top b.things) ++ b.behind

end Blueprint

/-- What follows in a plan once everything has been made: nothing, or a snapshot
    and a change of one file. That file is where the things that were made are
    not. It may be that it is known not to be a folder. -/
inductive Behind (d : Disk) (known : Prop) (top : Path) (way : List Text)
    (things : List (List Text × Made)) : List Step → Prop
  | nothing : Behind d known top way things []
  | revision {r : Registry} {x : Routed} {names : List Text} {name : Text} (built : x.Built)
      (passes : (r.guard x).check.on d = (.ok (), d))
      (file : (r.guard x).file = top.below (names ++ [name]))
      (isNames : ∀ n ∈ names ++ [name], Path.IsName n) (source : Path.IsSource name)
      (other : ∀ y ∈ things, y.1 ≠ names ++ [name]) (apart : ¬ way <+: names ++ [name]) :
      Behind d known top way things
        (.snapshot (r.guard x).file :: (r.add x).edits.map (.edit (r.guard x).file))
  | line {name line : Text} (free : known → d.Folderless (top.below [name]))
      (sighted : d.Sighted (top.below [name])) (isName : Path.IsName name) (source : Path.IsSource name)
      (other : ∀ y ∈ things, ∃ ns file t, y = (ns ++ [file], .newFile t) ∧ ['.', '.'] ∉ ns
        ∧ ¬ [name] <+: ns) (apart : ¬ way <+: [name]) :
      Behind d known top way things [.snapshot (top.below [name]), .edit (top.below [name]) (.append line)]

/-- A plan that nothing stands in the way of, as far as is known. -/
structure Blueprint.Ready (b : Blueprint) (d : Disk) (known : Prop) : Prop where
  makable : Makable d b.top b.things
  isNames : ∀ n ∈ b.way, Path.IsName n
  within : ∀ x ∈ b.things, b.way <+: x.1
  filed : ∀ x ∈ b.things, ∀ t, x.2 = .file t → x.1 = [".aviators-role.json".toList]
  behind : Behind d known b.top b.way b.things b.behind

theorem Blueprint.Ready.straight {b : Blueprint} {d : Disk} {known : Prop} (h : b.Ready d known) :
    ['.', '.'] ∉ b.way := Path.not_up_of_names h.isNames

section Behind

variable {d : Disk} {top root made : Path} {way : List Text} {things : List (List Text × Made)}
  {behind : List Step} {j : Journal} {i : Intent} {base : Location}

/-- What is made leaves no folder where a line is to be appended. -/
theorem makesNoFolder_making {name : Text} (hlevel : d.Level top)
    (hfree : d.tree.get? (spot d.here top ++ [name]) ≠ some .folder)
    (hother : ∀ y ∈ things, ∃ ns file t, y = (ns ++ [file], .newFile t) ∧ ['.', '.'] ∉ ns
      ∧ ¬ [name] <+: ns)
    (hkeeps : j.Keeps i.id d.here (spot d.here top ++ [name])) :
    ∀ s ∈ Step.record made :: making top things, ∀ i' : Intent, i'.id = i.id →
      Does d.here (MakesNoFolder (spot d.here top ++ [name])) (j.take i' s) := by
  intro s hs i' hid
  have hsave : ∀ k : Intent, k.id = i.id →
      Does d.here (MakesNoFolder (spot d.here top ++ [name])) (j.save k) := fun k hk =>
    Does.mono (Keeps.shuns_save (by rw [hk]; exact hkeeps)) fun _ _ hw => hw.makesNoFolder
  rcases List.mem_cons.mp hs with rfl | hs
  · exact (hsave (i'.withCreated made.text) hid).bind fun _ => does_pure _
  · rcases mem_making.mp hs with ⟨y, hy, rfl⟩
    -- A file is made in a folder of its own, and no folder has its name.
    rcases hother y hy with ⟨ns, file, t, rfl, hdots, hpre⟩
    refine (makesNoFolder_newFile ?_).bind fun _ => does_pure _
    have hparent : (top.below (ns ++ [file])).parent = top.below ns := by
      simp [Path.parent, Path.below, ← List.append_assoc]
    rw [hparent]
    exact hlevel.clear hdots hfree hpre

section Made

variable {d₁ d₂ d₃ : Disk} {k k' : Intent} {changed : Bool} {f : Fault} (hmakable : Makable d top things)
  (hj : j.Set root) (hroot : d.find root = .ok base) (hfolder : d.tree.get? base = some .folder)
  (hid : ∀ c ∈ i.id, isTame c = true) (hsave : (j.save i).on d = (.ok (), d₁))
  (hmaking : j.followed i (.record made :: making top things) d₁ = (k, .ok changed, d₂))
include hmakable hj hroot hfolder hid hsave hmaking

/-- Once everything has been made, the guarded file still holds what the guard
    has seen, and adding to it is only ever refused. -/
theorem revision_mechanical {r : Registry} {x : Routed} {names : List Text} {name : Text}
    (built : x.Built) (passes : (r.guard x).check.on d = (.ok (), d))
    (file : (r.guard x).file = top.below (names ++ [name])) (straight : ['.', '.'] ∉ names ++ [name])
    (source : Path.IsSource name) (other : ∀ y ∈ things, y.1 ≠ names ++ [name])
    (hf : j.followed k (.snapshot (r.guard x).file :: (r.add x).edits.map (.edit (r.guard x).file)) d₂
      = (k', .error f, d₃)) : f.category = none := by
  rcases Project.guard_ok passes with ⟨loc, c, raw, hfind, hfile, hread, hadmits⟩
  rcases Registry.insertsAll_add built hadmits (r.guard x).file.text with ⟨u, v, -, -, -, hall⟩
  have hloc : loc = (spot d.here top ++ names) ++ [name] := by
    rw [spot_of_find hfind, file, spot_below _ _ straight, List.append_assoc]
  have hdoc : spot d.here (j.file i.id) ≠ loc := by
    rw [hloc]
    refine (keeps_of_source hj hid hroot hfolder source ?_).document
    rw [← hloc, hfile]
    simp
  -- The things that are made lie beside the registry, so it still is as the guard saw it.
  have hspares : ∀ s ∈ Step.record made :: making top things, s.Spares d.here loc := by
    rw [hloc, List.append_assoc]
    exact spares_making hmakable.straight other d.here
  rcases run_of_followed ((makes_save j i).and (spares_save hdoc)) (fun s hs i' hi' =>
    (makes_take (makes_making s hs)).and (spares_take (hspares s hs) (by rw [hi']; exact hdoc)))
    hsave hmaking with ⟨ws, hws, hruns, hk⟩
  have hfind' : d₂.find (r.guard x).file = .ok loc := by
    rw [hws]
    exact find_after hfind (hruns.mono fun _ _ h => h.1)
  refine followed_revision_mechanical hall hfind' ?_ hread ?_ hf
  · rw [hws, after_tree]
    exact (hruns.mono fun _ _ h => h.2).spares hfile
  · rw [hws, after_here, hk]
    exact hdoc

/-- Once everything has been made, no folder is where a line is to be appended,
    and appending it is only ever refused. -/
theorem line_mechanical {name line : Text} (free : d.Folderless (top.below [name]))
    (isName : Path.IsName name) (source : Path.IsSource name)
    (other : ∀ y ∈ things, ∃ ns file t, y = (ns ++ [file], .newFile t) ∧ ['.', '.'] ∉ ns
      ∧ ¬ [name] <+: ns)
    (hf : j.followed k [.snapshot (top.below [name]), .edit (top.below [name]) (.append line)] d₂
      = (k', .error f, d₃)) : f.category = none := by
  have hspot : spot d.here (top.below [name]) = spot d.here top ++ [name] :=
    spot_below _ _ (Path.not_up_of_names (by simpa using isName))
  have hkeeps : unwalkable? (top.below [name]) = none →
      j.Keeps i.id d.here (spot d.here top ++ [name]) := by
    intro hwalk
    have hfree := free hwalk
    rw [hspot] at hfree
    exact keeps_of_source hj hid hroot hfolder source hfree
  rcases run_of_followed (makes_save j i) (fun s hs i' _ => makes_take (makes_making s hs)) hsave hmaking
    with ⟨ws, hws, -, hk⟩
  refine followed_line_mechanical ?_ (fun hwalk => ?_) hf
  · rw [hws]
    -- Where no folder was, none of the things makes one.
    refine free.after fun hwalk => ?_
    have hfree := free hwalk
    rw [hspot] at hfree ⊢
    rcases run_of_followed (Does.mono (hkeeps hwalk).shuns_save fun _ _ hw => hw.makesNoFolder)
      (makesNoFolder_making hmakable.level hfree other (hkeeps hwalk)) hsave hmaking
      with ⟨vs, hvs, hruns, -⟩
    rw [hws] at hvs
    rw [after_inj hvs]
    exact hruns
  · rw [hws, after_here, hk, hspot]
    exact hkeeps hwalk

/-- What follows once everything has been made is only ever refused. -/
theorem Behind.mechanical (h : Behind d True top way things behind)
    (hf : j.followed k behind d₂ = (k', .error f, d₃)) : f.category = none := by
  cases h with
  | nothing => exact absurd hf (by simp [followed_nil])
  | revision built passes file isNames source other _ =>
      exact revision_mechanical hmakable hj hroot hfolder hid hsave hmaking built passes file
        (Path.not_up_of_names isNames) source other hf
  | line free _ isName source other _ =>
      exact line_mechanical hmakable hj hroot hfolder hid hsave hmaking (free trivial) isName source other hf

end Made

/-- A plan that nothing stands in the way of is only ever refused. -/
theorem Blueprint.Ready.mechanical {b : Blueprint} (h : b.Ready d True) (hj : j.Set root)
    (hroot : d.find root = .ok base) (hfolder : d.tree.get? base = some .folder) {now : Timestamp}
    {verb : Text} {args : List Text} {mode : Mode} {f : Fault} {d' : Disk}
    (hf : (j.track now verb args mode b.plan).on d = (.error f, d')) : f.category = none := by
  have hid : ∀ c ∈ (Intent.start verb args mode now).id, isTame c = true :=
    Intent.identifier_char verb args mode now
  refine track_mechanical (fun d₁ hsave i' g d₂ hfollow => ?_) hf
  rcases followed_append_error hfollow with hmaking | ⟨k, changed, d₂, hmaking, hrest⟩
  -- Saving the intent leaves the root where it is.
  · rcases makes_save j (Intent.start verb args mode now) d rfl with ⟨ws, hws, hruns⟩
    rw [hsave] at hws
    dsimp only at hws
    have hroot' : d₁.find root = .ok base := by
      rw [hws]
      exact find_after hroot hruns
    have hfolder' : d₁.tree.get? base = some .folder := by
      rw [hws, after_tree]
      exact hruns.keeps_folder hfolder
    exact followed_making_mechanical (h.makable.after_save hj hroot hfolder hid hsave) hj hroot' hfolder'
      hid hmaking
  · exact Behind.mechanical h.makable hj hroot hfolder hid hsave hmaking h.behind hrest

end Behind

end RouteScaffold
