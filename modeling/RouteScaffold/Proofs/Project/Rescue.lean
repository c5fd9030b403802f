import RouteScaffold.Proofs.Journal.Reverting
import RouteScaffold.Proofs.Project.Resumption
import RouteScaffold.Proofs.Project.Validation

/-!
# Creations That Are Undone

A command that makes something may be stopped anywhere, by a fault or from outside; and an
exception may be raised in it anywhere, whose words its intent is then saved with. Once the
intent is there, what the command has done is on record, and recovering the intent undoes it.
Recovery may be stopped in turn, and begun again with the intent that is then there, as
often as it takes. When it comes to its end every file outside the tool's own folder is as
it was before the command, and the intent is gone. It fails only if a name or a path is
too long.

A role must not hide behind a folder that is missing, for then its folder may have been
there all the time, and is taken for new.

## Main definitions

* `Creation.Leaves`: What a command leaves that was stopped, or broken off by an exception.
* `Project.Retried`: Recoveries of an intent that were stopped, one after the other.

## Theorems

* `Blueprint.Ready.traceable`: The plans of commands that make something say beforehand
  what they do.
* `creation_reverted`, `creation_undone`: A command that makes something new is undone.
* `creation_undone_but_for_listed`: Any other is undone up to what its intent lists.
-/

namespace RouteScaffold

open Job Disk RouteScaffold.Tree Naming Location Project Journal

namespace Blueprint.Ready

variable {b : Blueprint} {d : Disk} {known : Prop} {j : Journal} {root : Path} {base : Location} {id : Text}

section Made

variable (h : b.Ready d known) (hplain : b.top.Plain)
include h hplain

theorem plain_made : b.made.Plain := hplain.below h.isNames

/-- What is made lies below the path that is recorded. -/
theorem covers {x : List Text × Made} (hx : x ∈ b.things) (hwalk : unwalkable? (b.top.below x.1) = none) :
    d.Covers b.made.text (spot d.here (b.top.below x.1)) := by
  rcases h.within x hx with ⟨rest, hrest⟩
  have hbelow : b.top.below x.1 = b.made.below rest := by rw [made, Path.below_below, hrest]
  have hdots : ['.', '.'] ∉ rest := fun hmem => h.makable.straight x hx (by rw [← hrest]; simp [hmem])
  rw [hbelow] at hwalk ⊢
  rw [Covers, (h.plain_made hplain).ofText_text, spot_below _ _ hdots]
  exact ⟨walkable_of_below hwalk, List.prefix_append _ _⟩

/-- What lies in another direction is not covered. -/
theorem not_covers {names : List Text} (hdots : ['.', '.'] ∉ names) (hapart : ¬ b.way <+: names) :
    ¬ d.Covers b.made.text (spot d.here (b.top.below names)) := by
  rintro ⟨-, hpre⟩
  rw [(h.plain_made hplain).ofText_text, made, spot_below _ _ h.straight, spot_below _ _ hdots] at hpre
  exact hapart ((List.prefix_append_right_inj _).mp hpre)

end Made

section Documents

variable (h : b.Ready d known) (hplain : b.top.Plain) (hj : j.Set root) (hroot : d.find root = .ok base)
  (hfolder : d.tree.get? base = some .folder) (hid : ∀ c ∈ id, isTame c = true)
include h hplain hj hroot hfolder hid

omit hplain in
/-- Nothing is made where the document of an intent is. -/
theorem document_ne {x : List Text × Made} (hx : x ∈ b.things) (hfile : x.2 ≠ .folder)
    (hwalk : unwalkable? (b.top.below x.1) = none) :
    spot d.here (b.top.below x.1) ≠ spot d.here (j.file id) := by
  rcases x with ⟨names, made⟩
  cases made with
  | folder => exact absurd rfl hfile
  | newFile t => exact fun heq => (h.makable.keeps hj hroot hfolder hid hx hwalk).document heq.symm
  -- The only file that a role has besides its registry is the descriptor, whose name has a dot.
  | file t =>
      have hnames : names = [".aviators-role.json".toList] := h.filed _ hx t rfl
      have hdots : ['.', '.'] ∉ [".aviators".toList, "intents".toList, id ++ ".json".toList] := by
        have hname := (Journal.isName_document hid).2.2.2
        simpa using Ne.symm hname
      intro heq
      subst hnames
      rw [Journal.file_eq hj hid, spot_below _ _ hdots, spot_below _ _ (h.makable.straight _ hx)] at heq
      have hlast : some ".aviators-role.json".toList = some (id ++ ".json".toList) := by
        have := congrArg List.getLast? heq
        rwa [List.getLast?_append_of_ne_nil _ (List.cons_ne_nil _ _),
          List.getLast?_append_of_ne_nil _ (List.cons_ne_nil _ _)] at this
      have hdot : '.' ∈ id := by
        have hshort : id = ".aviators-role".toList := (List.append_left_inj ".json".toList).mp (Option.some.inj hlast).symm
        rw [hshort]
        decide
      exact absurd (hid '.' hdot) (by decide)

/-- A file that is not among what is made, and that can be looked at, can be put back. -/
theorem changes_file {names : List Text} {name : Text} {es : List Edit} (hisNames : ∀ n ∈ names ++ [name], Path.IsName n)
    (hsource : Path.IsSource name) (hsighted : d.Sighted (b.top.below (names ++ [name])))
    (hapart : ¬ b.way <+: names ++ [name]) : j.Changes id d b.made
      (.snapshot (b.top.below (names ++ [name])) :: es.map (.edit (b.top.below (names ++ [name])))) := by
  have hdots := Path.not_up_of_names hisNames
  refine .file (hplain.below hisNames) hsighted (fun hfree => ?_) (h.not_covers hplain hdots hapart)
  rw [spot_below _ _ hdots, ← List.append_assoc] at hfree ⊢
  exact Journal.keeps_of_source hj hid hroot hfolder hsource hfree

theorem changes : j.Changes id d b.made b.behind := by
  have hbehind := h.behind
  revert hbehind
  generalize hsteps : b.behind = steps
  intro hbehind
  cases hbehind with
  | nothing => exact .nothing
  | revision built passes file isNames source other apart =>
      rcases guard_ok passes with ⟨loc, c, raw, hfind, -, -, -⟩
      rw [file] at hfind ⊢
      exact h.changes_file hplain hj hroot hfolder hid isNames source (Or.inl (spot_of_find hfind ▸ hfind)) apart
  | @line name line free sighted isName source other apart =>
      exact @changes_file _ _ _ _ _ _ _ h hplain hj hroot hfolder hid [] name [.append line]
        (by simpa using isName) source sighted apart

/-- The plan says beforehand what it does. -/
theorem traceable : j.Traceable id d b.made (making b.top b.things) b.behind := by
  refine ⟨fun s hs i hi hnone hcreated => ?_, h.changes hplain hj hroot hfolder hid⟩
  have hno : ∀ {P : Snapshot → Prop}, ∀ s ∈ i.snapshots, P s := fun s hs => by
    rw [hnone] at hs
    exact absurd hs (by simp)
  rcases mem_making.mp hs with ⟨⟨names, made⟩, hx, rfl⟩
  have hrecord : made ≠ .folder → unwalkable? (b.top.below names) = none →
      j.OnRecord d i (spot d.here (b.top.below names)) := fun hfile hwalk =>
    ⟨hi ▸ h.document_ne hj hroot hfolder hid hx hfile hwalk, Or.inr ⟨_, hcreated, h.covers hplain hx hwalk⟩⟩
  cases made with
  | folder => exact hno
  | newFile t => exact ⟨hno, hrecord (by simp)⟩
  | file t => exact hrecord (by simp)

/-- If nothing is at the path that is recorded, the plan can be undone. -/
theorem revertible (hclosed : d.tree.Closed) (habsent : d.Absent b.made) : j.Revertible id d b.made b.behind := by
  have hpath := (h.plain_made hplain).ofText_text
  have hout : ∀ {l}, d.tree.get? l = some .folder → ¬ d.Covers b.made.text l := by
    rintro l hl ⟨hwalk, hpre⟩
    rw [hpath] at hwalk hpre
    rw [hclosed.get?_below (habsent hwalk) hpre] at hl
    exact absurd hl (by simp)
  refine ⟨h.plain_made hplain, fun hwalk hnil => ?_, ?_, fun s _ hs => hout hs, h.changes hplain hj hroot hfolder hid⟩
  · have hnone := habsent hwalk
    rw [hnil, get?_root] at hnone
    exact absurd hnone (by simp)
  · rcases h.makable.level.below h.straight with ⟨xs, ys, loc, hnames, hys, hwalk, hloc⟩
    exact ⟨xs, ys, loc, hnames, hys, hwalk, hloc, hout hloc⟩

/-- So it can if nothing that is walked through lies at that path or below it. -/
theorem revertible_of_aside (hway : b.way ≠ []) (haside : ∀ s, s = d.here ∨ s ∈ Disk.way d.here (j.file id)
      ∨ (∃ p, (Step.record p ∈ b.plan ∨ .snapshot p ∈ b.plan) ∧ s ∈ Disk.way d.here p) → ¬ spot d.here b.made <+: s) :
    j.Revertible id d b.made b.behind := by
  have hpath := (h.plain_made hplain).ofText_text
  have hout : ∀ {l}, ¬ spot d.here b.made <+: l → ¬ d.Covers b.made.text l := fun hl hcovers => by
    rw [Covers, hpath] at hcovers
    exact hl hcovers.2
  have hmade : Step.record b.made ∈ b.plan := List.mem_append_left _ List.mem_cons_self
  refine ⟨h.plain_made hplain, fun _ hnil => ?_, ?_, fun s hs _ => hout (haside s ?_),
    h.changes hplain hj hroot hfolder hid⟩
  -- What lies on the way or is read is none of what is made.
  · exact haside d.here (Or.inl rfl) (hnil ▸ List.nil_prefix)
  · rcases h.makable.level with ⟨xs, ys, loc, hnames, hys, hwalk, hloc⟩
    have hall : b.made.names = xs ++ (ys ++ b.way) := by
      rw [made, Path.below, hnames, List.append_assoc]
    refine ⟨xs, ys ++ b.way, loc, hall, ?_, hwalk, hloc, hout (haside loc (Or.inr (Or.inr ⟨b.made, Or.inl hmade, ?_⟩)))⟩
    · rw [List.mem_append, not_or]
      exact ⟨hys, h.straight⟩
    · -- The path leads on from there.
      rcases List.exists_cons_of_ne_nil (List.append_ne_nil_of_right_ne_nil ys hway) with ⟨n, ns, hrest⟩
      rw [Disk.way, hall, hrest, place_of_walk hwalk]
      exact place_mem_stations _ xs n ns
  · rcases hs with hs | hs | hs | ⟨p, hp, hs⟩
    · exact Or.inl hs
    · exact Or.inr (Or.inr ⟨b.made, Or.inl hmade, hs⟩)
    · exact Or.inr (Or.inl hs)
    · exact Or.inr (Or.inr ⟨p, Or.inr (List.mem_append_right _ hp), hs⟩)

end Documents

end Blueprint.Ready

/-! ### Recovering again and again -/

theorem Job.Stops.here {α : Type} {x : Job α} {d e : Disk} (h : x.Stops d e) : e.here = d.here := by
  rcases h with ⟨ws, vs, -, rfl⟩
  exact after_here d ws

namespace Project

variable {p q : Project} {d e e₁ e₂ b : Disk} {id : Text} {i : Intent} {made : Path} {steps behind : List Step}
  {start : Intent}

/-- Recoveries of an intent, each of them begun with the intent that was there then, and
    stopped. -/
inductive Retried (p : Project) (id : Text) (e : Disk) : Disk → Prop
  | none : Retried p id e e
  | again {q : Project} {i : Intent} {e₁ e₂ : Disk} (before : Retried p id e e₁) (same : q.journal = p.journal)
      (read : (q.journal.get q.now id).on e₁ = (.ok i, e₁)) (stopped : (q.recover i).Stops e₁ e₂) :
      Retried p id e e₂

/-- The recovery of a creation is its undoing. -/
theorem recover_create (hmode : i.mode = .create) : ∃ f : List Text → List Text,
    p.recover i = p.journal.rollback i >>= fun touched => pure (f touched) := by
  unfold recover
  rw [hmode]
  exact ⟨_, rfl⟩

end Project

namespace Journal

variable {j : Journal} {d e₀ e e' : Disk} {doc own : Location} {id : Text} {i k : Intent} {now : Timestamp}

/-- An intent is read back only if there is a document. -/
theorem get_ok (h : (j.get now id).on e = (.ok i, e')) : ∃ loc c, e.opened (j.file id) = .ok (loc, c) := by
  rcases on_bind_eq_ok.mp h with ⟨there, e₁, hthere, hrest⟩
  have he₁ := (looks_isThere _).ok hthere
  subst he₁
  rw [on_require] at hrest
  split at hrest
  · rcases on_bind_eq_ok.mp hrest with ⟨t, e₂, hread, -⟩
    rw [on_readText] at hread
    cases hopened : e₁.opened (j.file id) with
    | ok x => exact ⟨x.1, x.2, rfl⟩
    | error f =>
        rw [hopened] at hread
        exact absurd hread (by simp)
  · exact absurd hrest (by simp)

section Undoing

variable (hlead : d.LeadsTo (j.file k.id) doc) (hhere : e₀.here = d.here) (hfile : e₀.find (j.file k.id) = .ok doc)
  (hvalid : k.startedAt.isValid = true)
include hlead hhere hfile hvalid

/-- In the course of an undoing the intent can be read back as it was, or all is done. -/
theorem Undoing.get_cases {ss : List Snapshot} {cs : List Text} (h : Undoing d e₀ doc own k ss cs e)
    (now : Timestamp) : (j.get now k.id).on e = (.ok k, e) ∧ e.tree.get? doc ≠ none
      ∨ (j.get now k.id).on e = (.error (.noPendingIntent k.id), e) ∧ Restored d own e := by
  -- The document is there, and holds the intent; or it is gone, and everything is restored.
  rcases h.kept with hdoc | ⟨hnone, hdone⟩
  · have hthere : e.tree.get? doc ≠ none := by rw [hdoc]; simp
    have hfind := h.find_document hlead hhere hfile hthere
    exact Or.inl ⟨on_get_of_holds ⟨doc, opened_of_find hfind hdoc⟩ hvalid now, hthere⟩
  · right
    refine ⟨on_get_of_absent ?_ now, hdone⟩
    rw [on_isThere, look]
    rcases find_of_fewer hfile (h.here.trans hhere.symm) h.fewer with hfound | hmissing
    · rw [hfound]
      dsimp only
      rw [hnone]
      rfl
    · rw [hmissing]
      rfl

end Undoing

end Journal

namespace Project

section Retrying

variable {p q : Project} {d e₀ e e₁ e₂ : Disk} {doc own : Location} {i k : Intent}
  (hsound : d.Sound) (hown : Journal.Own d own doc) (hhonest : k.Honest d doc)
  (hlead : d.LeadsTo (p.journal.file k.id) doc) (hhere : e₀.here = d.here)
  (hfile : e₀.find (p.journal.file k.id) = .ok doc) (hvalid : k.startedAt.isValid = true)
  (hstart : ∀ s ∈ k.snapshots, e₀.tree.get? (s.place d.here) ≠ some .folder)
  (hone : ∀ c ∈ k.created, ∀ c' ∈ k.created, c' = c) (hmode : k.mode = .create)
include hsound hown hhonest hlead hhere hfile hvalid hstart hone hmode

/-- A recovery in the course of an undoing. -/
theorem recover_undoing (h : Journal.Undoing d e₀ doc own k k.snapshots k.created e)
    (hsame : q.journal = p.journal) (hread : (q.journal.get q.now k.id).on e = (.ok i, e)) :
    Stays (Journal.Undoing d e₀ doc own k k.snapshots k.created) (q.recover i) e
      ∧ Fails Journal.TooLong (q.recover i) e
      ∧ ∀ ls e', (q.recover i).on e = (.ok ls, e') → Journal.Undoing d e₀ doc own k [] [] e'
        ∧ e'.tree.get? doc = none := by
  rw [hsame] at hread
  -- What is read by now is the intent itself.
  have hi : i = k := by
    rcases h.get_cases hlead hhere hfile hvalid q.now with ⟨hget, -⟩ | ⟨hget, -⟩
    · rw [hget, Prod.mk.injEq, Except.ok.injEq] at hread
      exact hread.1.symm
    · rw [hget] at hread
      exact absurd hread (by simp)
  subst hi
  rcases recover_create (p := q) hmode with ⟨f, hrecover⟩
  rcases Journal.stays_rollback hsound hown hhonest hlead hhere hfile hstart hone h with ⟨hstays, hfails, hend⟩
  rw [hrecover, hsame]
  refine ⟨stays_bind hstays fun paths e' he => stays_of_looks (looks_pure _) ?_,
    fails_bind hfails fun paths e' _ => fails_of_ok (on_pure _ e'), fun ls e' he => ?_⟩
  · have hlast := hstays.last
    rwa [he] at hlast
  · rcases on_bind_eq_ok.mp he with ⟨paths, e₁, hrollback, hpure⟩
    rw [on_pure, Prod.mk.injEq] at hpure
    exact hend paths e' (hpure.2 ▸ hrollback)

/-- However often a recovery is stopped and begun again, it is in the course of an
    undoing. -/
theorem Retried.undoing (h₀ : Journal.Undoing d e₀ doc own k k.snapshots k.created e₀)
    (h : p.Retried k.id e₀ e) : Journal.Undoing d e₀ doc own k k.snapshots k.created e := by
  induction h with
  | none => exact h₀
  | again before same read stopped ih =>
      exact (recover_undoing hsound hown hhonest hlead hhere hfile hvalid hstart hone hmode ih same read).1.stops stopped

end Retrying

/-! ### What is undone -/

/-- Recovering an intent leads to disks with a property, however often a recovery is
    stopped and begun again: as long as a disk has not got it the intent can be read back,
    and a recovery that comes to its end has dropped the intent. It fails only if a name
    or a path is too long. -/
structure RecoversTo (p : Project) (id : Text) (e : Disk) (R : Disk → Prop) : Prop where
  pending : ∀ e₁, p.Retried id e e₁ → ∀ now, (∃ i, (p.journal.get now id).on e₁ = (.ok i, e₁))
    ∨ (p.journal.get now id).on e₁ = (.error (.noPendingIntent id), e₁) ∧ R e₁
  fails : ∀ e₁, p.Retried id e e₁ → ∀ (q : Project) (i : Intent), q.journal = p.journal →
    (q.journal.get q.now id).on e₁ = (.ok i, e₁) → Fails Journal.TooLong (q.recover i) e₁
  ends : ∀ e₁, p.Retried id e e₁ → ∀ (q : Project) (i : Intent), q.journal = p.journal →
    (q.journal.get q.now id).on e₁ = (.ok i, e₁) → ∀ ls e₂, (q.recover i).on e₁ = (.ok ls, e₂) →
    R e₂ ∧ ∀ now, (p.journal.get now id).on e₂ = (.error (.noPendingIntent id), e₂)

theorem RecoversTo.mono {p : Project} {id : Text} {e : Disk} {R S : Disk → Prop} (h : p.RecoversTo id e R)
    (himp : ∀ e, R e → S e) : p.RecoversTo id e S :=
  ⟨fun e₁ he₁ now => (h.pending e₁ he₁ now).imp_right fun hdone => ⟨hdone.1, himp _ hdone.2⟩, h.fails,
    fun e₁ he₁ q i hq hread ls e₂ hrun => (h.ends e₁ he₁ q i hq hread ls e₂ hrun).imp_left (himp e₂)⟩

section Order

variable {p : Project} {d e : Disk} {o : Order} {i : Intent} {root made : Path} {base : Location}
  {steps behind : List Step}

/-- Wherever an order is left, there is no document of its intent, or what was done is on
    record. -/
theorem stays_carryOut_traced (hsound : d.Sound) (hkeeps : p.journal.keeps = true)
    (hplan : o.plan = (.record made :: steps) ++ behind)
    (hfree : d.tree.get? (spot d.here (p.journal.file (Intent.identifier o.verb o.args o.mode p.now))) = none)
    (h : p.journal.Traceable (Intent.identifier o.verb o.args o.mode p.now) d made steps behind) :
    Stays (fun e => (∀ c, e.tree.get? (spot d.here (p.journal.file (Intent.identifier o.verb o.args o.mode p.now)))
          ≠ some (.file c))
        ∨ ∃ i, p.journal.Traced d (.start o.verb o.args o.mode p.now) made behind i e) (p.carryOut o) d := by
  have htrack := Journal.stays_track_traced hsound hkeeps hfree h
  rw [← hplan] at htrack
  refine stays_bind htrack fun b e he => stays_of_looks (looks_pure _) ?_
  have hlast := htrack.last
  rwa [he] at hlast

/-- What an undoing leads back to: every file that is not the tool's own is as it was, and
    no folder is missing. -/
structure Reverted (d : Disk) (own : Location) (e : Disk) : Prop where
  here : e.here = d.here
  folders : ∀ l, d.tree.get? l = some .folder → e.tree.get? l = some .folder
  files : Restored d own e

/-- The way to a document leads over folders that are there, and over those that hold
    the document. -/
theorem leadsTo_document {id : Text} (hj : p.journal.Set root) (hroot : d.find root = .ok base)
    (hid : Intent.IsIdentifier id) : d.LeadsTo (p.journal.file id) (spot d.here (p.journal.file id)) := by
  intro s hs
  rw [Journal.file_below hj hid, way_below, List.mem_append] at hs
  rw [Journal.spot_file hj hid]
  rcases hs with hs | hs
  · exact Or.inl (way_of_find hroot s hs)
  · right
    have hdots := (Journal.document_names hid).1
    rcases exists_of_mem_stations hs with ⟨us, n, vs, hnames, rfl⟩
    have hus : ['.', '.'] ∉ us := fun hmem => hdots (by rw [hnames]; simp [hmem])
    rw [place_of_names hus, hnames]
    refine ⟨(List.prefix_append_right_inj _).mpr (List.prefix_append us _), fun heq => ?_⟩
    have hlen := congrArg List.length (List.append_cancel_left heq)
    simp at hlen

section Traced

variable {k start : Intent} (hsound : d.Sound) (hj : p.journal.Set root) (hroot : d.find root = .ok base)
  (hfolder : d.tree.get? base = some .folder) (hid : Intent.IsIdentifier k.id)
  (hrevertible : p.journal.Revertible k.id d made behind)
include hsound hj hroot hfolder hid hrevertible

omit hsound in
/-- The tool's own folder lies in the root, which is still there. -/
theorem own_of_lacking {b : Disk} (hb : d.Lacking k.created b) (htells : k.Tells d start made behind) :
    Own b (ownPlace d.here root) (spot d.here (p.journal.file k.id)) := by
  have hspot := spot_of_find hroot
  refine ⟨?_, by simp [ownPlace], ?_⟩
  · rw [Journal.spot_file hj hid, ← List.append_assoc]
    exact own_prefix_document
  · rw [ownPlace, List.dropLast_concat]
    refine hrevertible.folder hb htells (Or.inr (Or.inr (Or.inl ?_))) (hspot ▸ hfolder)
    rw [Journal.file_below hj hid, way_below]
    exact List.mem_append_right _ List.mem_cons_self

/-- What is on record is undone, up to what was at the path that the intent lists. -/
theorem recoversTo_of_traced (hk : p.journal.Traced d start made behind k e)
    (hvalid : k.startedAt.isValid = true) (hmode : k.mode = .create) (hhere : e.here = d.here)
    (hfile : e.find (p.journal.file k.id) = .ok (spot d.here (p.journal.file k.id))) :
    (p.journal.get p.now k.id).on e = (.ok k, e) ∧ ∃ b, d.Lacking k.created b
      ∧ p.RecoversTo k.id e (Reverted b (ownPlace d.here root)) := by
  have htells := hk.tells
  -- The disk without what was made is what the restored one is compared with.
  rcases exists_lacking hsound.closed fun c hc hwalk => by
      rw [htells.created c hc, hrevertible.plain.ofText_text] at hwalk ⊢
      exact hrevertible.ne_root hwalk with ⟨b, hb⟩
  have hown := own_of_lacking hj hroot hfolder hid hrevertible hb htells
  have hlead := hrevertible.leadsTo hb htells (leadsTo_document hj hroot hid)
  have hhonest := hrevertible.honest hb htells hk.frees rfl rfl
  have hundoing : Undoing b e (spot d.here (p.journal.file k.id)) (ownPlace d.here root) k k.snapshots k.created e :=
    hk.undoing hb
  have hhere' : e.here = b.here := hhere.trans hb.here.symm
  -- At most one path is listed.
  have hone : ∀ c ∈ k.created, ∀ c' ∈ k.created, c' = c := fun c hc c' hc' =>
    (htells.created c' hc').trans (htells.created c hc).symm
  have hstart : ∀ s ∈ k.snapshots, e.tree.get? (s.place b.here) ≠ some .folder := hb.here ▸ hk.plain
  have hbsound := hrevertible.sound hb htells hsound
  -- However often recovery is stopped and tried again, what it has undone stays undone.
  have hretried : ∀ e₁, p.Retried k.id e e₁ → Undoing b e _ _ k k.snapshots k.created e₁ := fun e₁ he₁ =>
    he₁.undoing hbsound hown hhonest hlead hhere' hfile hvalid hstart hone hmode hundoing
  refine ⟨?_, b, hb, fun e₁ he₁ now => ?_, fun e₁ he₁ q i hq hread => ?_, fun e₁ he₁ q i hq hread ls e₂ hrun => ?_⟩
  · exact on_get_of_holds ⟨_, opened_of_find hfile hk.saved⟩ hvalid p.now
  · exact ((hretried e₁ he₁).get_cases hlead hhere' hfile hvalid now).imp (fun h => ⟨k, h.1⟩) fun h =>
      ⟨h.1, (hretried e₁ he₁).here, (hretried e₁ he₁).folders, h.2⟩
  · exact (recover_undoing hbsound hown hhonest hlead hhere' hfile hvalid hstart hone hmode (hretried e₁ he₁) hq
      hread).2.1
  -- A recovery that comes to its end has restored everything, and its intent is gone.
  · rcases (recover_undoing hbsound hown hhonest hlead hhere' hfile hvalid hstart hone hmode (hretried e₁ he₁) hq
      hread).2.2 ls e₂ hrun with ⟨hend, hgone⟩
    refine ⟨⟨hend.here, hend.folders, hend.restored hown.within⟩, fun now => ?_⟩
    rcases hend.get_cases hlead hhere' hfile hvalid now with ⟨-, hthere⟩ | ⟨hread', -⟩
    · exact absurd hgone hthere
    · exact hread'

end Traced

/-- If a command was left once its intent was there, what was done is on record, and
    the intent that is read back is the one that knows. -/
theorem traced_of_left (hsound : d.Sound) (hkeeps : p.journal.keeps = true) (hvalid : p.now.isValid = true)
    (hplan : o.plan = (.record made :: steps) ++ behind)
    (hfree : d.tree.get? (spot d.here (p.journal.file (Intent.identifier o.verb o.args o.mode p.now))) = none)
    (htraceable : p.journal.Traceable (Intent.identifier o.verb o.args o.mode p.now) d made steps behind)
    (hleft : (p.carryOut o).Stops d e ∨ p.journal.Broken p.now o.verb o.args o.mode o.plan d e)
    (hget : (p.journal.get p.now (Intent.identifier o.verb o.args o.mode p.now)).on e = (.ok i, e)) :
    i.id = Intent.identifier o.verb o.args o.mode p.now
      ∧ e.find (p.journal.file i.id) = .ok (spot d.here (p.journal.file i.id))
      ∧ p.journal.Traced d (.start o.verb o.args o.mode p.now) made behind i e := by
  rcases get_ok hget with ⟨loc, c, hopened⟩
  rcases opened_eq hopened with ⟨hfile, hdoc⟩
  have hspot := spot_of_find hfile
  have htraced : ∃ k, p.journal.Traced d (.start o.verb o.args o.mode p.now) made behind k e := by
    -- The command was stopped, or an exception has broken it off.
    rcases hleft with hstop | hbroken
    · rw [hstop.here] at hspot
      subst hspot
      exact ((stays_carryOut_traced hsound hkeeps hplan hfree htraceable).stops hstop).resolve_left
        fun hnone => hnone c hdoc
    · exact traced_of_broken hsound hkeeps hfree htraceable (hplan ▸ hbroken)
  rcases htraced with ⟨k, hk⟩
  rw [hk.here] at hspot
  subst hspot
  have hid : k.id = Intent.identifier o.verb o.args o.mode p.now := hk.tells.continues.id
  rw [← hid] at hfile hget
  -- Reading its document gives the intent as it was saved.
  rw [on_get_of_holds ⟨_, opened_of_find hfile hk.saved⟩ (hk.tells.moment ▸ hvalid) p.now, Prod.mk.injEq,
    Except.ok.injEq] at hget
  rw [← hget.1]
  exact ⟨hid, hfile, hk⟩

end Order

end Project

/-! ### Commands that make something -/

/-- The identifier of the intent of an order. -/
def Order.identifier (o : Order) (p : Project) : Text := Intent.identifier o.verb o.args o.mode p.now

/-- The path that a step puts on record. -/
def Step.recorded? : Step → Option Path
  | .record q => some q
  | _ => none

/-- The folders that are walked through on the way to what a step puts on record. -/
def Step.walked (here : Location) : Step → List Location
  | .record q | .snapshot q => way here q
  | _ => []

/-- Nothing that is walked through on the way to what is made, to the file that is
    changed, or to the document of the intent lies in what is made, and the folder in which
    relative paths are walked does not either. -/
def Order.Aside (p : Project) (d : Disk) (o : Order) : Prop :=
  ∀ made ∈ o.plan.filterMap Step.recorded?,
    ∀ s ∈ d.here :: (way d.here (p.journal.file (o.identifier p)) ++ o.plan.flatMap (Step.walked d.here)),
      ¬ spot d.here made <+: s

instance (p : Project) (d : Disk) (o : Order) : Decidable (o.Aside p d) :=
  inferInstanceAs (Decidable (∀ made ∈ _, ∀ s ∈ _, ¬ _))

/-- What a command leaves that carries out an order: it was stopped, before any of its
    writes or behind the last one, or an exception was raised in it, at any point, and its
    intent was saved with the words of the exception, as far as that went. -/
def Creation.Leaves (c : Creation) (p : Project) (o : Order) (d e : Disk) : Prop :=
  (c.run p).Stops d e ∨ p.journal.Broken p.now o.verb o.args o.mode o.plan d e

/-- Whatever becomes of a creation, it has made some writes. -/
theorem Creation.exists_writes (c : Creation) (p : Project) {d : Disk} (hclosed : d.tree.Closed) :
    ∃ ws, ((c.run p).on d).2 = d.after ws := by
  rw [c.run_eq]
  rcases carryOut_cases (c.order_within hclosed) rfl with ⟨hsame, -⟩ | ⟨o, q, hwithin, htrack, -⟩
  · exact ⟨[], hsame⟩
  · -- Where the writes go is of no interest, so they are confined to anything.
    rcases confined_track (fun s hs => (hwithin s hs).mono fun _ _ => trivial) (fun _ _ => trivial) d rfl
      with ⟨ws, hws, -⟩
    rw [htrack] at hws
    exact ⟨ws, hws⟩

namespace Project

variable {s : Settings} {root : Path} {now : Timestamp} {p : Project} {d e : Disk} {base : Location} {c : Creation}
  {o : Order} {i : Intent}

section Undone

variable (hp : ofSettings s root now = .ok p) (hkeeps : p.journal.keeps = true) (hplain : root.Plain)
  (hvalid : p.now.isValid = true) (hsound : d.Sound) (hroot : d.find root = .ok base)
  (hfolder : d.tree.get? base = some .folder) (hsight : c.InSight p d) (ho : (c.order p).on d = (.ok o, d))
  (hfree : d.tree.get? (spot d.here (p.journal.file (o.identifier p))) = none) (hleft : c.Leaves p o d e)
  (hget : (p.journal.get p.now (o.identifier p)).on e = (.ok i, e))
include hp hkeeps hplain hvalid hsound hroot hfolder hsight ho hfree hleft hget

/-- If a command was left once its intent was there, its plan is one that nothing stands
    in the way of, and what was done of it is on record. -/
theorem creation_traced : ∃ b : Blueprint, o.plan = b.plan ∧ b.Ready d False ∧ b.top.Plain
    ∧ (c.AllNew → d.Absent b.made) ∧ (c.AllNew ∨ b.way ≠ []) ∧ i.id = o.identifier p ∧ i.mode = .create
    ∧ e.find (p.journal.file i.id) = .ok (spot d.here (p.journal.file i.id))
    ∧ p.journal.Traced d (.start o.verb o.args o.mode p.now) b.made b.behind i e := by
  have hlayout := root_of_settings hp
  have hleft' : (p.carryOut o).Stops d e ∨ p.journal.Broken p.now o.verb o.args o.mode o.plan d e := by
    refine hleft.imp_left fun hstop => ?_
    rcases hstop with ⟨ws, vs, hrun, he⟩
    rw [c.run_eq p, on_bind_ok ho] at hrun
    exact ⟨ws, vs, hrun, he⟩
  rcases (Creation.decides (c := c) hsound.closed hsight fun h : False => h.elim).of_ok ho
    with ⟨hmode, b, hplan, hready, htop, hnew, hway⟩
  have htraceable := hready.traceable (htop (hlayout ▸ hplain)) (journal_set hp) hroot hfolder
    (Intent.identifier_char o.verb o.args o.mode p.now)
  rcases traced_of_left hsound hkeeps hvalid hplan hfree htraceable hleft' hget with ⟨hid, hfile, htraced⟩
  exact ⟨b, hplan, hready, htop (hlayout ▸ hplain),
    fun hall => (hready.makable.level.below hready.straight).absent hsound.closed (hnew hall), hway, hid,
    htraced.tells.continues.mode.trans hmode, hfile, htraced⟩

/-- A command that was left once its intent was there is undone up to what was at the
    path that its intent lists. -/
theorem creation_undone_aside (haside : ¬ c.AllNew → o.Aside p d) : ∃ made : Path,
    (c.AllNew → unwalkable? made = none → d.tree.get? (spot d.here made) = none)
      ∧ (∀ t ∈ i.created, t = made.text) ∧ made.Plain ∧ ∃ b, d.Lacking i.created b
      ∧ p.RecoversTo (o.identifier p) e (Reverted b (ownPlace d.here root)) := by
  rcases creation_traced hp hkeeps hplain hvalid hsound hroot hfolder hsight ho hfree hleft hget
    with ⟨b, hplan, hready, htop, habsent, hway, hid, hmode, hfile, htraced⟩
  have hj : p.journal.Set root := journal_set hp
  have htame := Intent.identifier_char o.verb o.args o.mode p.now
  have hrevertible : p.journal.Revertible (o.identifier p) d b.made b.behind := by
    -- All of it is new, or nothing the command touches lies inside it.
    by_cases hall : c.AllNew
    · exact hready.revertible htop hj hroot hfolder htame hsound.closed (habsent hall)
    · refine hready.revertible_of_aside htop hj hroot hfolder htame (hway.resolve_left hall) fun s hs => ?_
      rw [Order.Aside, hplan] at haside
      refine haside hall b.made (List.mem_filterMap.mpr ⟨_, List.mem_append_left _ List.mem_cons_self, rfl⟩) s ?_
      rcases hs with rfl | hs | ⟨q, hq | hq, hs⟩
      · exact List.mem_cons_self
      · exact List.mem_cons_of_mem _ (List.mem_append_left _ hs)
      · exact List.mem_cons_of_mem _ (List.mem_append_right _ (List.mem_flatMap.mpr ⟨_, hq, hs⟩))
      · exact List.mem_cons_of_mem _ (List.mem_append_right _ (List.mem_flatMap.mpr ⟨_, hq, hs⟩))
  rw [← hid] at hrevertible ⊢
  rcases recoversTo_of_traced hsound hj hroot hfolder (hid ▸ Intent.isIdentifier _ _ _ _) hrevertible htraced
    (htraced.tells.moment ▸ hvalid) hmode htraced.here hfile with ⟨-, hundone⟩
  exact ⟨b.made, habsent, htraced.tells.created, hready.plain_made htop, hundone⟩

/-- Where the artifact is new, nothing of what was there before lies at that path. -/
theorem creation_reverted (hnew : c.AllNew) :
    p.RecoversTo (o.identifier p) e (Reverted d (ownPlace d.here root)) := by
  rcases creation_undone_aside hp hkeeps hplain hvalid hsound hroot hfolder hsight ho hfree hleft hget
    (fun h => absurd hnew h) with ⟨made, habsent, hlisted, hmade, b, hb, hundone⟩
  have hsame : ∀ l, b.tree.get? l = d.tree.get? l := fun l => by
    by_cases hcovers : ∃ t ∈ i.created, d.Covers t l
    · rcases hcovers with ⟨t, ht, hwalk, hpre⟩
      rw [hb.gone l ⟨t, ht, hwalk, hpre⟩]
      rw [hlisted t ht, hmade.ofText_text] at hwalk hpre
      exact (hsound.closed.get?_below (habsent hnew hwalk) hpre).symm
    · exact hb.same l hcovers
  refine hundone.mono fun e' he' => ⟨he'.here.trans hb.here, fun l hl => he'.folders l ((hsame l).trans hl),
    fun l hl => (sameFile_of_eq (hsame l)).trans (he'.files l hl)⟩

/-- A command whose artifact is new, and that was stopped or broken off once its intent was
    there, is undone: recovering the intent leads back to the files that were there before. -/
theorem creation_undone (hnew : c.AllNew) : p.RecoversTo (o.identifier p) e fun e' =>
    ∀ l, ¬ spot d.here p.layout.ownFolder <+: l → d.tree.SameFile e'.tree l := by
  refine (creation_reverted hp hkeeps hplain hvalid hsound hroot hfolder hsight ho hfree hleft hget hnew).mono
    fun e' he' l hl => he'.files l ?_
  rwa [ownFolder_eq, root_of_settings hp] at hl

end Undone

end Project

namespace Rescues

open Validation

/-- What is seen of the order of a creation. -/
theorem exists_order {c : Creation} {d : Disk} (hclosed : d.tree.Closed) (hsight : c.InSight project d) {P : Order → Prop}
    [DecidablePred P] (h : ((c.order project).on d).1.toOption.any (fun o => decide (P o)) = true) :
    ∃ o, (c.order project).on d = (.ok o, d) ∧ P o := by
  rcases Creation.decides hclosed hsight fun (h : False) => h.elim with ⟨f, hf⟩ | ⟨o, ho, -⟩
  · rw [hf] at h
    exact absurd h (by simp [Except.toOption])
  · refine ⟨o, ho, ?_⟩
    rw [ho] at h
    simpa [Except.toOption] using h

/-- The disk when a job has made some of its writes. -/
def cut (n : Nat) (x : Job Artifact) (d : Disk) : Disk := d.after ((x.on d).2.trail.take n)

/-- A creation may be stopped behind any number of its writes. -/
theorem stops_cut (n : Nat) {c : Creation} {d : Disk} (hclosed : d.tree.Closed) (htrail : d.trail = []) :
    (c.run project).Stops d (cut n (c.run project) d) := by
  rcases c.exists_writes project hclosed with ⟨ws, hws⟩
  have hmade : ((c.run project).on d).2.trail = ws := by rw [hws, after_trail, htrail, List.nil_append]
  exact ⟨ws.take n, ws.drop n, by rw [hws, List.take_append_drop], by rw [cut, hmade]⟩

theorem exists_intent {p : Project} {id : Text} {e : Disk} (h : ((p.journal.get now id).on e).1.isOk = true) :
    ∃ i, (p.journal.get now id).on e = (.ok i, e) := by
  rcases (looks_getIntent p.journal now id).cases e with ⟨f, hf⟩ | hread
  · rw [hf] at h
    exact absurd h (by simp [Except.isOk, Except.toBool])
  · exact hread

/-- A new module of the role. -/
def newModule : Creation := .module (some "inst".toList) (some "a".toList)

/-- The identifier of its intent. -/
def moduleIntent : Text := "2069c1b30576c1e8".toList

/-- The disk when the folders and the file of the module are there, and the registry has
    its import, but no route yet. -/
def halfway : Disk := cut 10 (newModule.run project) disk

theorem sound_disk : disk.Sound :=
  .of_texts closed rfl (by simp [disk, Disk.fresh]) (by simp [disk, Disk.fresh])

end Rescues

open Validation Rescues in
theorem creation_undone_halfway : ∃ o i, (newModule.order project).on disk = (.ok o, disk)
    ∧ (newModule.run project).Stops disk halfway
    ∧ (project.journal.get now (o.identifier project)).on halfway = (.ok i, halfway)
    ∧ project.RecoversTo (o.identifier project) halfway fun e' =>
      ∀ l, ¬ spot disk.here project.layout.ownFolder <+: l → disk.tree.SameFile e'.tree l := by
  have hp : Project.ofSettings .defaults root now = .ok project := rfl
  rcases exists_order (c := newModule) (P := fun o => o.identifier project = moduleIntent) closed trivial
    (by decide +kernel) with ⟨o, ho, hname⟩
  have hstop : (newModule.run project).Stops disk halfway := stops_cut 10 closed rfl
  have hfree : disk.tree.get? (spot disk.here (project.journal.file (o.identifier project))) = none := by
    rw [hname]
    decide
  rcases @exists_intent project moduleIntent halfway (by decide +kernel) with ⟨i, hget⟩
  rw [← hname] at hget
  exact ⟨o, i, ho, hstop, hget, Project.creation_undone (c := newModule) hp rfl (Path.plain_ofText _) (by decide)
    sound_disk find_root isFolder_root trivial ho hfree (Or.inl hstop) hget trivial⟩

namespace Rescues

open Validation

/-- The intent of the role that hides behind a missing folder. -/
def hiddenIntent : Text := "7675d86cb11cba53".toList

/-- The registry of the role. -/
def roleRegistry : Location :=
  ["proj".toList, "src".toList, "Roles".toList, "inst".toList, "routes".toList, "route.tsx".toList]

/-- What recovering an intent that was read back does. -/
theorem recover_read {p : Project} {id : Text} {e : Disk} {i : Intent} (h : (p.journal.get now id).on e = (.ok i, e)) :
    (p.recover i).on e = (p.journal.get now id >>= p.recover).on e := (on_bind_ok h).symm

end Rescues

open Validation Rescues in
/-- The role that hides behind a missing folder is taken for new, and loses its registry. -/
theorem creation_undone_takes_role : Project.ofSettings roundabout root now = .ok byDetour
    ∧ (there.run byDetour).on disk = (.error lateFault, leftDisk)
    ∧ disk.tree.get? roleRegistry = some (.file (.text registryText))
    ∧ ∃ i, (byDetour.journal.get now hiddenIntent).on leftDisk = (.ok i, leftDisk)
      ∧ ((byDetour.recover i).on leftDisk).2.tree.get? roleRegistry = none := by
  have hseen : ((byDetour.journal.get now hiddenIntent).on leftDisk).1.isOk = true
      ∧ ((byDetour.journal.get now hiddenIntent >>= byDetour.recover).on leftDisk).2.tree.get? roleRegistry = none := by
    decide +kernel
  rcases exists_intent hseen.1 with ⟨i, hget⟩
  refine ⟨rfl, on_there, rfl, i, hget, ?_⟩
  rw [recover_read hget]
  exact hseen.2

namespace Project

variable {s : Settings} {root : Path} {now : Timestamp} {p : Project} {d e : Disk} {base : Location} {c : Creation}
  {o : Order} {i : Intent}

section Listed

variable (hp : ofSettings s root now = .ok p) (hkeeps : p.journal.keeps = true) (hplain : root.Plain)
  (hvalid : p.now.isValid = true) (hsound : d.Sound) (hroot : d.find root = .ok base)
  (hfolder : d.tree.get? base = some .folder) (hsight : c.InSight p d) (ho : (c.order p).on d = (.ok o, d))
  (hfree : d.tree.get? (spot d.here (p.journal.file (o.identifier p))) = none) (hleft : c.Leaves p o d e)
  (hget : (p.journal.get p.now (o.identifier p)).on e = (.ok i, e))
include hp hkeeps hplain hvalid hsound hroot hfolder hsight ho hfree hleft hget

/-- Any command that makes something, if it was stopped or broken off once its intent was
    there, is undone up to what was at a path that its intent lists: that is removed with the rest,
    and all other files are as they were. -/
theorem creation_undone_but_for_listed (haside : ¬ c.AllNew → o.Aside p d) :
    p.RecoversTo (o.identifier p) e fun e' => ∀ l, ¬ spot d.here p.layout.ownFolder <+: l →
      ((∃ t ∈ i.created, d.Covers t l) → ∀ content, e'.tree.get? l ≠ some (.file content))
        ∧ ((¬ ∃ t ∈ i.created, d.Covers t l) → d.tree.SameFile e'.tree l) := by
  rcases creation_undone_aside hp hkeeps hplain hvalid hsound hroot hfolder hsight ho hfree hleft hget haside
    with ⟨made, -, -, -, b, hb, hundone⟩
  refine hundone.mono fun e' he' l hl => ?_
  rw [ownFolder_eq, root_of_settings hp] at hl
  refine ⟨fun hcovers content hfile => ?_, fun hcovers => ?_⟩
  · have hthere := (he'.files l hl content).mp hfile
    rw [hb.gone l hcovers] at hthere
    exact absurd hthere (by simp)
  · exact (sameFile_of_eq (hb.same l hcovers)).trans (he'.files l hl)

end Listed

end Project

namespace Rescues

/-- A component. -/
def newComponent : Creation := .package .component (some "foo".toList)

/-- The identifier of its intent. -/
def componentIntent : Text := "279ac1a01e59ddbc".toList

/-- The folder of the components. -/
def components : Location := ["proj".toList, "src".toList, "packages".toList, "components".toList]

/-- A project where a file is in the folder of the component, and the component is not. -/
def furnished : Disk := .fresh ⟨[(["proj".toList], .folder), (["proj".toList, "src".toList], .folder),
  (["proj".toList, "src".toList, "packages".toList], .folder), (components, .folder),
  (components ++ ["index.ts".toList], .file (.text [])), (components ++ ["Foo".toList], .folder),
  (components ++ ["Foo".toList, "extra.ts".toList], .file (.text []))]⟩ []

/-- The disk when the files of the component are there, and the barrel has no line for it
    yet. -/
def unlisted : Disk := cut 7 (newComponent.run Validation.project) furnished

theorem sound_furnished : furnished.Sound :=
  .of_texts (by decide) rfl (by simp [furnished, Disk.fresh]) (by simp [furnished, Disk.fresh])

end Rescues

open Validation Rescues in
theorem creation_undone_but_for_listed_component : ∃ o i,
    (newComponent.order project).on furnished = (.ok o, furnished) ∧ o.Aside project furnished
    ∧ (newComponent.run project).Stops furnished unlisted
    ∧ (project.journal.get now (o.identifier project)).on unlisted = (.ok i, unlisted)
    ∧ project.RecoversTo (o.identifier project) unlisted fun e' =>
      ∀ l, ¬ spot furnished.here project.layout.ownFolder <+: l →
        ((∃ t ∈ i.created, furnished.Covers t l) → ∀ content, e'.tree.get? l ≠ some (.file content))
          ∧ ((¬ ∃ t ∈ i.created, furnished.Covers t l) → furnished.tree.SameFile e'.tree l) := by
  have hp : Project.ofSettings .defaults root now = .ok project := rfl
  rcases exists_order (c := newComponent) (d := furnished)
    (P := fun o => o.identifier project = componentIntent ∧ o.Aside project furnished) (by decide) trivial
    (by decide +kernel) with ⟨o, ho, hname, haside⟩
  have hstop : (newComponent.run project).Stops furnished unlisted := stops_cut 7 sound_furnished.closed rfl
  have hfree : furnished.tree.get? (spot furnished.here (project.journal.file (o.identifier project))) = none := by
    rw [hname]
    decide
  rcases @exists_intent project componentIntent unlisted (by decide +kernel) with ⟨i, hget⟩
  rw [← hname] at hget
  exact ⟨o, i, ho, haside, hstop, hget, Project.creation_undone_but_for_listed (c := newComponent) hp rfl
    (Path.plain_ofText _) (by decide) sound_furnished rfl rfl trivial ho hfree (Or.inl hstop) hget fun _ => haside⟩

open Validation Rescues in
/-- What was in the folder of the component before goes with it. -/
theorem creation_undone_takes_neighbour : (newComponent.run project).Stops furnished unlisted
    ∧ furnished.tree.get? (components ++ ["Foo".toList, "extra.ts".toList]) = some (.file (.text []))
    ∧ ∃ i, (project.journal.get now componentIntent).on unlisted = (.ok i, unlisted)
      ∧ ((project.recover i).on unlisted).2.tree.get? (components ++ ["Foo".toList, "extra.ts".toList]) = none := by
  have hseen : ((project.journal.get now componentIntent).on unlisted).1.isOk = true
      ∧ ((project.journal.get now componentIntent >>= project.recover).on unlisted).2.tree.get?
        (components ++ ["Foo".toList, "extra.ts".toList]) = none := by
    decide +kernel
  rcases exists_intent hseen.1 with ⟨i, hget⟩
  refine ⟨stops_cut 7 sound_furnished.closed rfl, by decide, i, hget, ?_⟩
  rw [recover_read hget]
  exact hseen.2

end RouteScaffold
