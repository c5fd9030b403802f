import RouteScaffold.CommandLine.Basic
import RouteScaffold.Proofs.Journal.Listing
import RouteScaffold.Proofs.Project.Barrels

/-!
# Looking for What Is Pending

Nearly every verb looks for pending commands before it does anything, its arguments
unread. Where the listing of the journal fails, so does the verb, whatever was asked for:
the two faults with which a listing fails are not among those that a user is meant to see,
so they end the run as they are. Where the listing succeeds, a line warns of what it found,
and the verb goes on.

So a single file in the folder of intents that is no text stops every verb but those for
setting up and for recovering.

## Main definitions

* `Shell.on`: What a shell leaves: a value or a fault, a screen and a disk.
* `CommandLine.answer`: What a verb does once it has looked.
* `CommandLine.warned`: A screen with the line about what is pending.

## Theorems

* `on_guarded_ok`, `on_guarded_of_lapse`: What passes a guard.
* `on_runVerb_of_listed`, `on_runVerb_of_stuck`: A verb, by the listing of the journal.
* `pending_listed_iff`: When the listing succeeds, what it is made of, and what becomes of
  every verb.
-/

namespace RouteScaffold

open Job Disk

namespace Shell

variable {α β : Type} {a : α} {f : Fault} {s s' : Screen} {d d' : Disk}

/-- What a shell leaves: a value or a fault, a screen and a disk. -/
def on (m : Shell α) (s : Screen) (d : Disk) : Except Fault α × Screen × Disk :=
  let r : (Except Fault α × Screen) × Disk := m s d
  (r.1.1, r.1.2, r.2)

theorem on_disk (job : Job α) (s : Screen) (d : Disk) : (disk job).on s d = ((job.on d).1, s, (job.on d).2) := rfl

theorem on_warning (message : Text) (s : Screen) (d : Disk) :
    (warning message).on s d = (.ok (), s.printError ("⚠️  ".toList ++ message), d) := rfl

theorem on_bind (m : Shell α) (k : α → Shell β) (s : Screen) (d : Disk) : (m >>= k).on s d = match m.on s d with
    | (.ok a, s', d') => (k a).on s' d'
    | (.error f, s', d') => (.error f, s', d') := by
  have hrun : (m >>= k) s d = (ExceptT.bindCont k (m s d).1.1 : StateT Screen (StateM Disk) (Except Fault β))
      (m s d).1.2 (m s d).2 := rfl
  rw [on, hrun, on]
  rcases m s d with ⟨⟨r, s'⟩, d'⟩
  cases r <;> rfl

theorem on_bind_ok {m : Shell α} {k : α → Shell β} (h : m.on s d = (.ok a, s', d')) :
    (m >>= k).on s d = (k a).on s' d' := by
  rw [on_bind, h]

theorem on_bind_error {m : Shell α} {k : α → Shell β} (h : m.on s d = (.error f, s', d')) :
    (m >>= k).on s d = (.error f, s', d') := by
  rw [on_bind, h]

/-- How a shell goes on from a value or a fault that it catches. -/
def caught (handle : Fault → Shell α) : Except Fault α → StateT Screen (StateM Disk) (Except Fault α)
  | .ok a => pure (.ok a)
  | .error f => handle f

theorem on_tryCatch (m : Shell α) (handle : Fault → Shell α) (s : Screen) (d : Disk) :
    (tryCatch m handle).on s d = match m.on s d with
    | (.ok a, s', d') => (.ok a, s', d')
    | (.error f, s', d') => (handle f).on s' d' := by
  have hcatch : tryCatch m handle = (ExceptT.mk (ExceptT.run m >>= caught handle) : Shell α) := by
    change ExceptT.tryCatch m handle = _
    rw [ExceptT.tryCatch]
    congr 1
    refine congrArg _ (funext fun r => ?_)
    cases r <;> rfl
  have hrun : (ExceptT.mk (ExceptT.run m >>= caught handle) : Shell α) s d
      = caught handle (m s d).1.1 (m s d).1.2 (m s d).2 := rfl
  rw [hcatch, on, hrun, on]
  rcases m s d with ⟨⟨r, s'⟩, d'⟩
  cases r <;> rfl

/-- A fault that no user is meant to see passes a guard. -/
theorem on_guarded_of_lapse {action : Shell Nat} (h : action.on s d = (.error f, s', d'))
    (hf : f.category = none) : (guarded action).on s d = (.error f, s', d') := by
  rw [guarded, on_tryCatch, h]
  dsimp only
  rw [hf]
  rfl

/-- A first part that ends well may as well stand before a guard. -/
theorem on_guarded_bind {first : Shell α} {rest : α → Shell Nat} (h : first.on s d = (.ok a, s', d')) :
    (guarded (first >>= rest)).on s d = (guarded (rest a)).on s' d' := by
  rw [guarded, on_tryCatch, on_bind_ok h, guarded, on_tryCatch]

end Shell

namespace CommandLine

open Shell Journal

variable {setting : Setting} {p : Project} {ps : List Intent} {f : Fault} {d d' : Disk} {verb : Verb}

/-- What a verb does once it has looked for what is pending. -/
def answer (setting : Setting) (verb : Verb) (args : List Text) : Shell Nat :=
  match argumentsOf verb args with
  | .error e => misused e
  | .ok a =>
    if a.has .help then helped 0
    else do
      perform setting verb a
      return 0

/-- The line about what is pending, if anything is. -/
def warned (s : Screen) (count : Nat) : Screen :=
  if count = 0 then s
  else s.printError ("⚠️  ".toList ++ (Text.ofNat count ++ " interrupted command(s) pending; ".toList
    ++ "run 'aviators recover --list' to inspect or 'aviators recover' to fix".toList))

theorem runVerb_eq (setting : Setting) (verb : Verb) (args : List Text) (h : verb.ignoresPending = false) :
    runVerb setting verb args = guarded (warnOfPending setting >>= fun _ => answer setting verb args) := by
  rw [runVerb, h]
  rfl

section

variable (hopen : (Project.open setting.home setting.root setting.now).on d = (.ok p, d))
include hopen

theorem on_project (s : Screen) : setting.project.on s d = (.ok p, s, d) := by
  rw [Setting.project, on_disk, hopen]

/-- What is pending is counted, and warned of. -/
theorem on_warnOfPending_of_listed (hpending : (p.journal.pending p.now).on d = (.ok ps, d')) (s : Screen) :
    (warnOfPending setting).on s d = (.ok (), warned s ps.length, d') := by
  have hlisted : (disk (p.journal.pending p.now)).on s d = (.ok ps, s, d') := by rw [on_disk, hpending]
  rw [warnOfPending, on_bind_ok (on_project hopen s), on_bind_ok hlisted, warned]
  by_cases hcount : ps.length = 0
  · rw [if_neg (not_not_intro hcount), if_pos hcount]
    rfl
  · rw [if_pos hcount, if_neg hcount, on_warning]

/-- Looking for what is pending fails as the listing does. -/
theorem on_warnOfPending_of_stuck (hpending : (p.journal.pending p.now).on d = (.error f, d')) (s : Screen) :
    (warnOfPending setting).on s d = (.error f, s, d') := by
  have hstuck : (disk (p.journal.pending p.now)).on s d = (.error f, s, d') := by rw [on_disk, hpending]
  rw [warnOfPending, on_bind_ok (on_project hopen s), on_bind_error hstuck]

variable (hverb : verb.ignoresPending = false)
include hverb

/-- A verb goes on after a listing that succeeds. -/
theorem on_runVerb_of_listed (hpending : (p.journal.pending p.now).on d = (.ok ps, d')) (args : List Text)
    (s : Screen) : (runVerb setting verb args).on s d
      = (guarded (answer setting verb args)).on (warned s ps.length) d' := by
  rw [runVerb_eq setting verb args hverb, on_guarded_bind (on_warnOfPending_of_listed hopen hpending s)]

/-- A verb ends with the fault of a listing that fails, its arguments unread. -/
theorem on_runVerb_of_stuck (hpending : (p.journal.pending p.now).on d = (.error f, d'))
    (hf : f.category = none) (args : List Text) (s : Screen) :
    (runVerb setting verb args).on s d = (.error f, s, d') := by
  rw [runVerb_eq setting verb args hverb]
  exact on_guarded_of_lapse (on_bind_error (on_warnOfPending_of_stuck hopen hpending s)) hf

end

end CommandLine

namespace Journal

open CommandLine Shell Timestamp

/-- The listing of what is pending succeeds exactly if the bytes of every file in the folder
    spell a text and of the moments at which the intents began all are marked with a zone or none.
    The listing is then made of the intents in the folder, one for each file that holds one, the
    oldest first, and every verb that looks for it goes on. Otherwise it fails, at the first
    file that is no text or else at the moments, and every such verb fails with it, whatever
    its arguments are. Nothing is written in either case. -/
theorem pending_listed_iff {j : Journal} {d : Disk} (hfolder : (isFolder j.folder).on d = (.ok true, d))
    (now : Timestamp) :
    ((∃ ps, (j.pending now).on d = (.ok ps, d)) ↔ (∀ name ∈ documentsIn d j.folder, j.flawOf? d name = none)
      ∧ Comparable ((j.intents now d).map Intent.startedAt))
    ∧ (∀ ps d', (j.pending now).on d = (.ok ps, d') → d' = d ∧ ps.Perm (j.intents now d) ∧ Ordered ps
      ∧ ∀ setting p verb args s, (Project.open setting.home setting.root setting.now).on d = (.ok p, d) →
        p.journal = j → p.now = now → verb.ignoresPending = false →
        (runVerb setting verb args).on s d = (guarded (answer setting verb args)).on (warned s ps.length) d)
    ∧ ∀ f d', (j.pending now).on d = (.error f, d') → d' = d
      ∧ ((∃ flaw, (documentsIn d j.folder).findSome? (j.flawOf? d) = some flaw ∧ f = .undecodable flaw)
        ∨ ((∀ name ∈ documentsIn d j.folder, j.flawOf? d name = none)
          ∧ ¬ Comparable ((j.intents now d).map Intent.startedAt) ∧ f = .wrongType))
      ∧ ∀ setting p verb args s, (Project.open setting.home setting.root setting.now).on d = (.ok p, d) →
        p.journal = j → p.now = now → verb.ignoresPending = false →
        (runVerb setting verb args).on s d = (.error f, s, d) := by
  refine ⟨⟨fun ⟨ps, hps⟩ => ?_, fun h => ?_⟩, fun ps d' hps => ?_, fun f d' hf => ?_⟩
  · rcases (pending_eq_ok hfolder).mp hps with ⟨-, htexts, hcomp, -⟩
    exact ⟨htexts, hcomp⟩
  · exact ⟨_, (pending_eq_ok hfolder).mpr ⟨rfl, h.1, h.2, rfl⟩⟩
  -- The moments could be compared, so the listing is ordered and nothing is lost in it.
  · rcases (pending_eq_ok hfolder).mp hps with ⟨rfl, -, hcomp, rfl⟩
    refine ⟨rfl, foldr_placeByTime_perm _, ordered_foldr_placeByTime hcomp, ?_⟩
    rintro setting p verb args s hopen rfl rfl hverb
    exact on_runVerb_of_listed hopen hverb hps args s
  · have hcause := (pending_eq_error hfolder).mp hf
    -- Neither cause has a category, so the fault is not told as one of the user's.
    have hlapse : f.category = none := by
      rcases hcause.2 with ⟨flaw, -, rfl⟩ | ⟨-, -, rfl⟩
      · rfl
      · rfl
    refine ⟨hcause.1, hcause.2, ?_⟩
    obtain rfl := hcause.1
    rintro setting p verb args s hopen rfl rfl hverb
    exact on_runVerb_of_stuck hopen hverb hf hlapse args s

end Journal

namespace Pending

/-- The root of a project. -/
def root : Path := .ofText "proj".toList

/-- The moment of a run. -/
def moment : Timestamp := ⟨2024, 1, 2, 0, 0, 0, 0, false⟩

/-- A command that began before that moment. -/
def older : Intent := ⟨"b0".toList, "module".toList, ["inst".toList, "b".toList], .create,
  ⟨2023, 12, 31, 23, 59, 59, 0, false⟩, [], [], none⟩

/-- A command that began after the other one. -/
def newer : Intent := ⟨"a0".toList, "module".toList, ["inst".toList, "a".toList], .create,
  ⟨2024, 1, 1, 0, 0, 0, 5, false⟩, [], [], none⟩

/-- A command that began at a moment of universal time. -/
def marked : Intent := ⟨"c0".toList, "module".toList, [], .create, ⟨2024, 1, 1, 0, 0, 0, 0, true⟩, [], [], none⟩

/-- The folder of intents. -/
def way : Location := ["proj".toList, ".aviators".toList, "intents".toList]

/-- A project with some entries in its folder of intents. -/
def diskWith (entries : List (Text × Entry)) : Disk :=
  .fresh ⟨[(way.take 1, .folder), (way.take 2, .folder), (way, .folder)]
    ++ entries.map fun e => (way ++ [e.1], e.2)⟩ []

/-- Two intents, among a document of another shape, a folder, and bytes under a name that is
    not that of a document. -/
def mingled : Disk := diskWith [("a.json".toList, .file (.text newer.document)),
  ("b.json".toList, .file (.text "\x7b\x7d".toList)), ("c.json".toList, .folder),
  ("d.txt".toList, .file (.bytes [0xff])), ("e.json".toList, .file (.text older.document))]

/-- An intent beside a document that is no text. -/
def spoiled : Disk := diskWith [("a.json".toList, .file (.text newer.document)),
  ("b.json".toList, .file (.bytes [0xff]))]

/-- An intent in local time beside one in universal time. -/
def mixed : Disk := diskWith [("a.json".toList, .file (.text newer.document)),
  ("b.json".toList, .file (.text marked.document))]

/-- The project. -/
def project : Project := .plain root moment

/-- A run in that project. -/
def setting : CommandLine.Setting := ⟨.ofText "home".toList, root, moment⟩

/-- What is wrong with the byte FF. -/
def flaw : Utf8.Fault := ⟨0xff, 0, 1, .invalidStart⟩

/-- What the three disks hold, and how the project is found on them. -/
theorem runs :
    (((Project.open setting.home setting.root setting.now).on mingled).1 = .ok project
      ∧ ((isFolder project.journal.folder).on mingled).1 = .ok true
      ∧ project.journal.intents moment mingled = [newer, older]
      ∧ ∀ name ∈ Journal.documentsIn mingled project.journal.folder, project.journal.flawOf? mingled name = none)
    ∧ (((Project.open setting.home setting.root setting.now).on spoiled).1 = .ok project
      ∧ ((isFolder project.journal.folder).on spoiled).1 = .ok true
      ∧ project.journal.intents moment spoiled = [newer]
      ∧ (Journal.documentsIn spoiled project.journal.folder).findSome? (project.journal.flawOf? spoiled) = some flaw)
    ∧ ((isFolder project.journal.folder).on mixed).1 = .ok true
      ∧ project.journal.intents moment mixed = [newer, marked]
      ∧ ∀ name ∈ Journal.documentsIn mixed project.journal.folder, project.journal.flawOf? mixed name = none := by
  decide +kernel

theorem isFolder_mingled : (isFolder project.journal.folder).on mingled = (.ok true, mingled) :=
  Prod.ext runs.1.2.1 (looks_isFolder _ _)

theorem isFolder_spoiled : (isFolder project.journal.folder).on spoiled = (.ok true, spoiled) :=
  Prod.ext runs.2.1.2.1 (looks_isFolder _ _)

theorem isFolder_mixed : (isFolder project.journal.folder).on mixed = (.ok true, mixed) :=
  Prod.ext runs.2.2.1 (looks_isFolder _ _)

theorem pending_spoiled : (project.journal.pending moment).on spoiled = (.error (.undecodable flaw), spoiled) :=
  (Journal.pending_eq_error isFolder_spoiled).mpr ⟨rfl, Or.inl ⟨flaw, runs.2.1.2.2.2, rfl⟩⟩

theorem pending_mixed : (project.journal.pending moment).on mixed = (.error .wrongType, mixed) := by
  refine (Journal.pending_eq_error isFolder_mixed).mpr ⟨rfl, Or.inr ⟨runs.2.2.2.2, ?_, rfl⟩⟩
  rw [runs.2.2.2.1]
  decide

end Pending

open Pending in
theorem Journal.pending_listed_iff_mingled : ∃ ps, (project.journal.pending moment).on mingled = (.ok ps, mingled)
    ∧ ps.Perm [newer, older] ∧ Ordered ps
    ∧ (CommandLine.runVerb setting (.create .role) []).on .blank mingled
      = (Shell.guarded (CommandLine.answer setting (.create .role) [])).on
          (CommandLine.warned .blank ps.length) mingled := by
  rcases runs.1 with ⟨hopen, -, hintents, htexts⟩
  rcases pending_listed_iff isFolder_mingled moment with ⟨hiff, hlisted, -⟩
  rw [hintents] at hiff
  rcases hiff.mpr ⟨htexts, by decide⟩ with ⟨ps, hps⟩
  rcases hlisted ps mingled hps with ⟨-, hperm, hordered, hverbs⟩
  rw [hintents] at hperm
  exact ⟨ps, hps, hperm, hordered, hverbs setting project _ [] _
    (Prod.ext hopen (Project.looks_open _ _ _ _)) rfl rfl rfl⟩

open Pending in
/-- A document that is no text hides an intent, and stops every verb that looks for pending
    commands. Two intents hide each other if only one of them is marked with a zone. -/
theorem Journal.document_hides_intents :
    (isFolder project.journal.folder).on spoiled = (.ok true, spoiled)
    ∧ project.journal.intents moment spoiled = [newer]
    ∧ (project.journal.pending moment).on spoiled = (.error (.undecodable flaw), spoiled)
    ∧ (∀ verb args s, verb.ignoresPending = false →
      (CommandLine.runVerb setting verb args).on s spoiled = (.error (.undecodable flaw), s, spoiled))
    ∧ (isFolder project.journal.folder).on mixed = (.ok true, mixed)
    ∧ project.journal.intents moment mixed = [newer, marked]
    ∧ (project.journal.pending moment).on mixed = (.error .wrongType, mixed) :=
  ⟨isFolder_spoiled, runs.2.1.2.2.1, pending_spoiled,
    fun _ args s hverb => CommandLine.on_runVerb_of_stuck (Prod.ext runs.2.1.1 (Project.looks_open _ _ _ _))
      hverb pending_spoiled rfl args s,
    isFolder_mixed, runs.2.2.2.1, pending_mixed⟩

end RouteScaffold
