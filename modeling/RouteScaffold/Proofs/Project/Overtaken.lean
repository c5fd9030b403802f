import RouteScaffold.Proofs.Journal.Belated
import RouteScaffold.Proofs.Project.Rescue

/-!
# Recoveries That Others Have Overtaken

Between the moment at which a command was stopped and the moment at which its intent is
recovered, other commands may have come to their end. Recovery leaves alone what they have
done, as long as it is neither at the path that the stopped command was to make, or below
it, nor in the file that it was to change. To that file it gives back what it held before
the stopped command, and what the others have added to it is gone.

## Theorems

* `belated_recovery`: What recovering an intent does on any later disk.
-/

namespace RouteScaffold

open Job Disk RouteScaffold.Tree Naming Location Project Journal

namespace Project

variable {s : Settings} {root : Path} {now : Timestamp} {p q : Project} {d e : Disk} {base : Location} {c : Creation}
  {o : Order} {i : Intent}

section Belated

variable (hp : ofSettings s root now = .ok p) (hkeeps : p.journal.keeps = true) (hplain : root.Plain)
  (hvalid : p.now.isValid = true) (hsound : d.Sound) (hroot : d.find root = .ok base)
  (hfolder : d.tree.get? base = some .folder) (hsight : c.InSight p d) (ho : (c.order p).on d = (.ok o, d))
  (hfree : d.tree.get? (spot d.here (p.journal.file (o.identifier p))) = none) (hleft : c.Leaves p o d e)
  (hget : (p.journal.get p.now (o.identifier p)).on e = (.ok i, e))
include hp hkeeps hplain hvalid hsound hroot hfolder hsight ho hfree hleft hget

/-- The intent of a command that was stopped or broken off may be recovered on any disk. It lists no path
    but the one that the command was to make, and no file but the one that it was to
    change. Wherever the recovery is stopped, every other file is as it was, whoever has
    made it. When the recovery comes to its end the file that was to be changed is as the
    stopped command has found it. -/
theorem belated_recovery : (∀ t ∈ i.created, Step.record (.ofText t) ∈ o.plan)
    ∧ (∀ s ∈ i.snapshots, Step.snapshot (.ofText s.file) ∈ o.plan)
    ∧ (∀ (q : Project) (f f' : Disk), q.journal = p.journal → f.here = d.here → (q.recover i).Stops f f' →
      ∀ l, ¬ p.journal.Reaches d.here i l → f.tree.SameFile f'.tree l)
    ∧ ∀ (q : Project) (f f' : Disk) (ls : List Text), q.journal = p.journal → f.here = d.here → f.Sound →
      (q.recover i).on f = (.ok ls, f') → ∀ s ∈ i.snapshots, f.find (.ofText s.file) = .ok (s.place d.here) →
        f.tree.get? (s.place d.here) ≠ some .folder → d.tree.SameFile f'.tree (s.place d.here) := by
  rcases creation_traced hp hkeeps hplain hvalid hsound hroot hfolder hsight ho hfree hleft hget
    with ⟨b, hplan, hready, htop, -, -, hid, hmode, -, htraced⟩
  have htells := htraced.tells
  refine ⟨fun t ht => ?_, fun s hs => ?_, fun q f f' hq hhere hrecovery l hl => ?_,
    fun q f f' ls hq hhere hsoundf hrun s hs hfind hfolder' => ?_⟩
  · rw [htells.created t ht, (hready.plain_made htop).ofText_text, hplan]
    exact List.mem_append_left _ List.mem_cons_self
  · rw [hplan]
    exact List.mem_append_right _ (htells.snapshots s hs).2
  -- Recovering a creation only reaches what its intent tells of.
  · rcases recover_create (p := q) hmode with ⟨g, hrecover⟩
    have hdoes : Does f.here (Confined (p.journal.Reaches d.here i)) (q.recover i) := by
      rw [hrecover, hq, hhere]
      exact confined_rollback.bind fun _ => does_pure _
    exact (hdoes.stays (I := fun e' => f.tree.SameFile e'.tree l) fun ws hws => by
      rw [after_tree]
      exact hws.outside hl).stops hrecovery
  · rcases recover_create (p := q) hmode with ⟨g, hrecover⟩
    rw [hrecover, hq] at hrun
    rcases on_bind_eq_ok.mp hrun with ⟨touched, e', hrollback, hpure⟩
    rw [(looks_pure _).ok hpure]
    -- Its one snapshot is put back, and nothing that is removed covers its place.
    rcases htells.held with hnone | ⟨s', hheld, horiginal, hmem⟩
    · rw [hnone] at hs
      exact absurd hs (by simp)
    · rw [hheld, List.mem_singleton] at hs
      subst hs
      have hdoc := (htraced.frees s (hheld ▸ List.mem_singleton_self s)).document
      have hchanges := hready.changes htop (journal_set hp) hroot hfolder
        (Intent.identifier_char o.verb o.args o.mode p.now)
      exact restored_of_rollback horiginal hheld hhere hsoundf hfind hfolder' hdoc.symm
        (htells.not_covered (hchanges.not_covers hmem)) hrollback

end Belated

end Project

namespace Rescues

open Validation

/-- The disk when making the module is almost done: only its intent is still there. -/
def almost : Disk := cut 11 (newModule.run project) disk

/-- Another module of the role. -/
def nextModule : Creation := .module (some "inst".toList) (some "b".toList)

/-- The disk when that one has been made after all. -/
def overtaken : Disk := ((nextModule.run project).on almost).2

/-- The folder of the role. -/
def roleFolder : Location := ["proj".toList, "src".toList, "Roles".toList, "inst".toList]

end Rescues

open Validation Rescues in
theorem belated_recovery_module : ∃ o i, (newModule.order project).on disk = (.ok o, disk)
    ∧ (newModule.run project).Stops disk almost
    ∧ (project.journal.get now (o.identifier project)).on almost = (.ok i, almost)
    ∧ (∀ t ∈ i.created, Step.record (.ofText t) ∈ o.plan) ∧ (∀ s ∈ i.snapshots, Step.snapshot (.ofText s.file) ∈ o.plan)
    ∧ (∀ (q : Project) (f f' : Disk), q.journal = project.journal → f.here = disk.here → (q.recover i).Stops f f' →
      ∀ l, ¬ project.journal.Reaches disk.here i l → f.tree.SameFile f'.tree l)
    ∧ ∀ (q : Project) (f f' : Disk) (ls : List Text), q.journal = project.journal → f.here = disk.here → f.Sound →
      (q.recover i).on f = (.ok ls, f') → ∀ s ∈ i.snapshots, f.find (.ofText s.file) = .ok (s.place disk.here) →
        f.tree.get? (s.place disk.here) ≠ some .folder → disk.tree.SameFile f'.tree (s.place disk.here) := by
  have hp : Project.ofSettings .defaults root now = .ok project := rfl
  rcases exists_order (c := newModule) (P := fun o => o.identifier project = moduleIntent) closed trivial
    (by decide +kernel) with ⟨o, ho, hname⟩
  have hstop : (newModule.run project).Stops disk almost := stops_cut 11 closed rfl
  have hfree : disk.tree.get? (spot disk.here (project.journal.file (o.identifier project))) = none := by
    rw [hname]
    decide
  rcases @exists_intent project moduleIntent almost (by decide +kernel) with ⟨i, hget⟩
  rw [← hname] at hget
  exact ⟨o, i, ho, hstop, hget, Project.belated_recovery (c := newModule) hp rfl (Path.plain_ofText _) (by decide)
    sound_disk find_root isFolder_root trivial ho hfree (Or.inl hstop) hget⟩

open Validation Rescues in
/-- A module that was made in the meantime is gone from the registry, and its folder is
    still there. -/
theorem belated_recovery_loses_module : (newModule.run project).Stops disk almost
    ∧ ((nextModule.run project).on almost).1.isOk = true
    ∧ overtaken.tree.get? roleRegistry ≠ disk.tree.get? roleRegistry
    ∧ ∃ i, (project.journal.get now moduleIntent).on overtaken = (.ok i, overtaken)
      ∧ ((project.recover i).on overtaken).2.tree.get? roleRegistry = disk.tree.get? roleRegistry
      ∧ ((project.recover i).on overtaken).2.tree.get? (roleFolder ++ ["modules".toList, "b".toList]) = some .folder := by
  -- All of this is about the one disk, so it is found out at once.
  have hseen : ((nextModule.run project).on almost).1.isOk = true
      ∧ overtaken.tree.get? roleRegistry ≠ disk.tree.get? roleRegistry
      ∧ ((project.journal.get now moduleIntent).on overtaken).1.isOk = true
      ∧ ((project.journal.get now moduleIntent >>= project.recover).on overtaken).2.tree.get? roleRegistry
        = disk.tree.get? roleRegistry
      ∧ ((project.journal.get now moduleIntent >>= project.recover).on overtaken).2.tree.get?
        (roleFolder ++ ["modules".toList, "b".toList]) = some .folder := by
    decide +kernel
  rcases hseen with ⟨hmade, hchanged, hopened, hback, hthere⟩
  rcases exists_intent hopened with ⟨i, hget⟩
  refine ⟨stops_cut 11 closed rfl, hmade, hchanged, i, hget, ?_⟩
  rw [recover_read hget]
  exact ⟨hback, hthere⟩

end RouteScaffold
