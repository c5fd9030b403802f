import RouteScaffold.Proofs.Journal.Recording

/-!
# Plans That Can Be Traced

A command that makes something works in three parts. It lists the one path below which
everything is made; it makes things there; and it changes at most one file, behind a
snapshot of it. An intent that has been told this much says all there is to say about the
disk that its command was begun on. So wherever the command is stopped, and wherever an
exception is raised in it, what the document says is enough to go back.

## Main definitions

* `Intent.Tells`: What an intent says about the disk that it was begun on.
* `Journal.Traceable`: A plan that says beforehand what it does.
* `Journal.Traced`: A disk on which everything is on record in an intent that tells.
* `Journal.Knows`: A disk on which the intent in memory may know more than its document.

## Theorems

* `follows_start`: Once the intent is there, everything that its plan does is on record.
* `stays_track_traced`: Wherever a command is stopped, there is no document of its
  intent, or everything is on record.
* `traced_of_broken`: So it is where an exception was raised, and its words were saved.
-/

namespace RouteScaffold

open Job Disk RouteScaffold.Tree Location

namespace Intent.Continues

variable {i k : Intent}

theorem withCreated (h : i.Continues k) (path : Text) : (i.withCreated path).Continues k :=
  ⟨h.id, h.verb, h.args, h.mode⟩

theorem withSnapshot (h : i.Continues k) (s : Snapshot) : (i.withSnapshot s).Continues k :=
  ⟨h.id, h.verb, h.args, h.mode⟩

theorem withError (h : i.Continues k) (message : Text) : (i.withError message).Continues k :=
  ⟨h.id, h.verb, h.args, h.mode⟩

end Intent.Continues

/-- What an intent says about the disk that its command was begun on: the one path at
    which something is made, and what the files hold that the plan is to change. -/
structure Intent.Tells (i : Intent) (d : Disk) (start : Intent) (made : Path) (behind : List Step) : Prop where
  continues : i.Continues start
  moment : i.startedAt = start.startedAt
  listed : i.created = [] ∨ i.created = [made.text]
  held : i.snapshots = [] ∨ ∃ s : Snapshot, i.snapshots = [s] ∧ s.Original d ∧ Step.snapshot (.ofText s.file) ∈ behind

namespace Intent.Tells

variable {i start : Intent} {d : Disk} {made : Path} {behind : List Step}

theorem created (h : i.Tells d start made behind) : ∀ c ∈ i.created, c = made.text := by
  rcases h.listed with hlisted | hlisted <;> simp [hlisted]

theorem snapshots (h : i.Tells d start made behind) :
    ∀ s ∈ i.snapshots, s.Original d ∧ Step.snapshot (.ofText s.file) ∈ behind := by
  rcases h.held with hheld | ⟨s, hheld, hs⟩
  · simp [hheld]
  · rw [hheld]
    exact List.forall_mem_singleton.mpr hs

/-- An intent that has listed nothing lists the path. -/
theorem withCreated (h : i.Tells d start made behind) (hcreated : i.created = []) :
    (i.withCreated made.text).Tells d start made behind :=
  ⟨h.continues.withCreated made.text, h.moment, Or.inr (by rw [Intent.withCreated, hcreated, List.nil_append]), h.held⟩

/-- An intent that holds nothing is told what the file held that is to change. -/
theorem withSnapshot {s : Snapshot} (h : i.Tells d start made behind) (hnone : i.snapshots = [])
    (hs : s.Original d) (hmem : Step.snapshot (.ofText s.file) ∈ behind) :
    (i.withSnapshot s).Tells d start made behind :=
  ⟨h.continues.withSnapshot s, h.moment, h.listed,
    Or.inr ⟨s, by rw [Intent.withSnapshot, hnone, List.nil_append], hs, hmem⟩⟩

theorem withError (h : i.Tells d start made behind) (message : Text) :
    (i.withError message).Tells d start made behind :=
  ⟨h.continues.withError message, h.moment, h.listed, h.held⟩

/-- What the recorded path does not cover, no listed path covers. -/
theorem not_covered {l : Location} (h : i.Tells d start made behind) (hout : ¬ d.Covers made.text l) :
    ¬ ∃ c ∈ i.created, d.Covers c l := by
  rintro ⟨c, hc, hcovers⟩
  exact hout (h.created c hc ▸ hcovers)

end Intent.Tells

namespace Snapshot

variable {s : Snapshot} {d : Disk} {p : Path}

theorem Original.not_folder (h : s.Original d) : d.tree.get? (s.place d.here) ≠ some .folder := by
  rw [h.2]
  cases s.content <;> simp

theorem Original.place_eq (_ : s.Original d) (hplain : p.Plain) (hfile : s.file = p.text) :
    s.place d.here = spot d.here p := by
  rw [place, hfile, hplain.ofText_text]

/-- What leads to the folder of a file that can be put back does not lead through the
    file. -/
theorem Original.clear_parent (h : s.Original d) (hsound : d.Sound) (hplain : p.Plain) (hfile : s.file = p.text) :
    Clear d.here p.parent (spot d.here p) := by
  have hfind := h.1
  have hfolder := h.not_folder
  rw [h.place_eq hplain hfile] at hfind hfolder
  rw [hfile, hplain.ofText_text] at hfind
  rcases find_parent hfind hfolder hsound.closed hsound.here with ⟨n, -, -, -, -, hparent, hthere⟩
  exact clear_of_found hparent hthere hfolder

end Snapshot

namespace Journal

variable {d e : Disk} {j : Journal} {i k : Intent} {id : Text} {made p : Path} {steps behind : List Step}

/-- What follows in a plan once everything has been made: nothing, or the change of one
    file behind a snapshot of it. The file is not among what was made, and it can be put
    back unless it is a folder. -/
inductive Changes (j : Journal) (id : Text) (d : Disk) (made : Path) : List Step → Prop
  | nothing : Changes j id d made []
  | file {p : Path} {es : List Edit} (plain : p.Plain) (sighted : d.Sighted p)
      (keeps : d.tree.get? (spot d.here p) ≠ some .folder → j.Keeps id d.here (spot d.here p))
      (outside : ¬ d.Covers made.text (spot d.here p)) :
      Changes j id d made (.snapshot p :: es.map (.edit p))

/-- A plan that says beforehand what it does. -/
structure Traceable (j : Journal) (id : Text) (d : Disk) (made : Path) (steps behind : List Step) : Prop where
  steps : ∀ s ∈ steps, ∀ i : Intent, i.id = id → i.snapshots = [] → made.text ∈ i.created → j.Announced d i s
  behind : j.Changes id d made behind

/-- What is known of a disk on which a command was stopped. -/
structure Traced (j : Journal) (d : Disk) (start : Intent) (made : Path) (behind : List Step) (i : Intent)
    (e : Disk) : Prop extends j.Recorded d i e where
  tells : i.Tells d start made behind
  frees : j.Frees d.here i

/-- What is known of a disk on which an exception was raised: what the intent in memory
    says of it is as true as what its document says, which may be less. -/
structure Knows (j : Journal) (d : Disk) (start : Intent) (made : Path) (behind : List Step) (i : Intent)
    (e : Disk) : Prop where
  between : Between d (spot d.here (j.file i.id)) i i.snapshots i.created e
  tells : i.Tells d start made behind
  frees : j.Frees d.here i
  saved : ∃ k, j.Traced d start made behind k e ∧ ∀ s ∈ k.snapshots, s ∈ i.snapshots

theorem Traced.knows {start : Intent} (h : j.Traced d start made behind i e) : j.Knows d start made behind i e :=
  ⟨h.toBetween, h.tells, h.frees, i, h, fun _ hs => hs⟩

section Track

variable {now : Timestamp} {verb : Text} {args : List Text} {mode : Mode} (hsound : d.Sound) (hkeeps : j.keeps = true)
include hsound hkeeps

/-- Wherever the saving of an intent is stopped that has learned of an exception,
    everything is on record. -/
theorem Knows.stays_save {start : Intent} (h : j.Knows d start made behind i e) (message : Text) :
    Stays (fun e' => ∃ k, j.Traced d start made behind k e') (j.save (i.withError message)) e := by
  rcases h.saved with ⟨k, hk, hss⟩
  have hbetween : Between d (spot d.here (j.file (i.withError message).id)) (i.withError message) i.snapshots i.created e :=
    ⟨h.between.here, h.between.closed, h.between.folders, h.between.files, h.between.plain⟩
  refine (stays_save_recorded (k := i.withError message) hsound hkeeps hk.toRecorded hss h.frees hbetween).1.mono
    fun e' he' => ?_
  rcases he' with ⟨hrecorded, -⟩ | hrecorded
  · exact ⟨k, hrecorded, hk.tells, hk.frees⟩
  · exact ⟨_, hrecorded, h.tells.withError message, h.frees⟩

/-- The steps behind the recording of a path, and those that change a file. -/
theorem follows_traceable (hstart : i.Tells d k made behind) (hsnapshots : i.snapshots = [])
    (hfree : d.tree.get? (spot d.here (j.file i.id)) = none) (h : j.Traceable i.id d made steps behind)
    (he : j.Recorded d (i.withCreated made.text) e) (hcreated : i.created = []) :
    j.Follows (j.Traced d k made behind) (j.Knows d k made behind) (i.withCreated made.text) (steps ++ behind) e := by
  have htells := hstart.withCreated hcreated
  have hnone : (i.withCreated made.text).snapshots = [] := hsnapshots
  have hfrees : j.Frees d.here (i.withCreated made.text) := by
    intro s hs
    rw [hnone] at hs
    exact absurd hs (by simp)
  have hsteps : ∀ s ∈ steps, j.Announced d (i.withCreated made.text) s := fun s hs =>
    h.steps s hs _ rfl hnone (List.mem_append_right _ (List.mem_singleton_self _))
  have htraced : ∀ {e'}, j.Recorded d (i.withCreated made.text) e' →
      j.Traced d k made behind (i.withCreated made.text) e' := fun he' => ⟨he', htells, hfrees⟩
  refine follows_announced hsound hsteps he (fun e' he' => ⟨htraced he', (htraced he').knows⟩) fun e' he' => ?_
  -- Behind the folders and files of its own, a creation may still change one file that was there.
  cases h.behind with
  | nothing => exact follows_nil (htraced he') (htraced he').knows
  | @file p es plain sighted keeps outside =>
      have hdoc : spot d.here p ≠ spot d.here (j.file i.id) := by
        intro heq
        -- The document is new, so where a folder is it is not; elsewhere it is kept apart.
        by_cases hfolder : d.tree.get? (spot d.here p) = some .folder
        · rw [heq, hfree] at hfolder
          exact absurd hfolder (by simp)
        · exact (keeps hfolder).document heq.symm
      have hout : ∀ c ∈ (i.withCreated made.text).created, ¬ d.Covers c (spot d.here p) := fun c hc => by
        rw [htells.created c hc]
        exact outside
      have htold : ∀ {s : Snapshot}, s.file = p.text → s.Original d →
          ((i.withCreated made.text).withSnapshot s).Tells d k made (.snapshot p :: es.map (.edit p))
            ∧ j.Frees d.here ((i.withCreated made.text).withSnapshot s) := by
        intro s hfile horiginal
        refine ⟨htells.withSnapshot hnone horiginal ?_, fun s' hs' => ?_⟩
        · rw [hfile, plain.ofText_text]
          exact List.mem_cons_self
        · rw [Intent.withSnapshot, hnone, List.nil_append, List.mem_singleton] at hs'
          rw [hs', horiginal.place_eq plain hfile]
          exact keeps (horiginal.place_eq plain hfile ▸ horiginal.not_folder)
      have hlearned : ∀ {s : Snapshot} {e₁ : Disk}, s.file = p.text → s.Original d →
          j.Recorded d ((i.withCreated made.text).withSnapshot s) e₁ → j.Traced d k made
            (.snapshot p :: es.map (.edit p)) ((i.withCreated made.text).withSnapshot s) e₁ :=
        fun hfile horiginal he₁ => ⟨he₁, (htold hfile horiginal).1, (htold hfile horiginal).2⟩
      rcases take_snapshot hsound hkeeps he' hnone plain sighted keeps hdoc hout with ⟨hstays, herror, hok⟩
      refine follows_cons (htraced he').knows (hstays.mono fun e₁ he₁ => ?_) (fun k' e₁ hsnap hstop => ?_)
        (fun f e₁ he₁ => htraced (herror f e₁ he₁)) fun k' c e₁ he₁ => ?_
      -- The snapshot is on record now, or it is not yet.
      · rcases he₁ with he₁ | ⟨s, hfile, horiginal, he₁⟩
        · exact ⟨_, htraced he₁⟩
        · exact ⟨_, hlearned hfile horiginal he₁⟩
      · -- The snapshot is in memory before it is saved.
        rcases told_snapshot (by rw [Intent.hasSnapshot, hnone]; rfl) hsnap with ⟨s, rfl, hs⟩
        rcases take_snapshot_of_ok hsound hkeeps he' hnone plain sighted keeps hdoc hout hs with
          ⟨hfile, horiginal, hstays', -⟩
        rcases hstays'.stops hstop with ⟨hrecorded, hbetween⟩ | hrecorded
        · exact ⟨hbetween, (htold hfile horiginal).1, (htold hfile horiginal).2, _, htraced hrecorded,
            fun s' hs' => List.mem_append_left _ hs'⟩
        · exact (hlearned hfile horiginal hrecorded).knows
      · rcases hok k' c e₁ he₁ with ⟨s, rfl, hfile, horiginal, hrecorded⟩
        have hplace := horiginal.place_eq plain hfile
        -- The edits change no more than the file of the snapshot.
        have hedits : ∀ s' ∈ es.map (Step.edit p), j.Announced d ((i.withCreated made.text).withSnapshot s) s' := by
          intro s' hs'
          rcases List.mem_map.mp hs' with ⟨e', -, rfl⟩
          refine ⟨fun s'' hs'' => ?_, fun _ => ⟨hdoc, Or.inl ⟨s, ?_, hplace⟩⟩⟩
          · rw [Intent.withSnapshot, hnone, List.nil_append, List.mem_singleton] at hs''
            rw [hs'', hplace]
            exact horiginal.clear_parent hsound plain hfile
          · exact List.mem_append_right _ (List.mem_singleton_self s)
        have hend : ∀ {e₂}, j.Recorded d ((i.withCreated made.text).withSnapshot s) e₂ → _ :=
          fun he₂ => hlearned hfile horiginal he₂
        have hfollows := @follows_announced _ _ _ _ _ _ _ [] hsound hedits hrecorded
          (fun e₂ he₂ => ⟨hend he₂, (hend he₂).knows⟩) fun e₂ he₂ => follows_nil (hend he₂) (hend he₂).knows
        rwa [List.append_nil] at hfollows

section Plan

variable (hfree : d.tree.get? (spot d.here (j.file (Intent.identifier verb args mode now))) = none)
  (h : j.Traceable (Intent.identifier verb args mode now) d made steps behind)
include hfree

/-- When an intent is saved for the first time, there is no document of it until all that
    it says is true. -/
theorem stays_save_start (made : Path) (behind : List Step) : Stays (fun e => (∀ c,
        e.tree.get? (spot d.here (j.file (Intent.identifier verb args mode now))) ≠ some (.file c))
        ∨ j.Traced d (.start verb args mode now) made behind (.start verb args mode now) e)
      (j.save (.start verb args mode now)) d
      ∧ ∀ e, (j.save (.start verb args mode now)).on d = (.ok (), e) →
        j.Traced d (.start verb args mode now) made behind (.start verb args mode now) e := by
  have hnone : ∀ s ∈ (Intent.start verb args mode now).snapshots, False := fun s hs => absurd hs (by simp [Intent.start])
  have htells : (Intent.start verb args mode now).Tells d (.start verb args mode now) made behind :=
    ⟨.refl _, rfl, Or.inl rfl, Or.inl rfl⟩
  have hfrees : j.Frees d.here (.start verb args mode now) := fun s hs => (hnone s hs).elim
  have hbetween : Between d (spot d.here (j.file (Intent.start verb args mode now).id)) (.start verb args mode now)
      (Intent.start verb args mode now).snapshots (Intent.start verb args mode now).created d :=
    ⟨rfl, hsound.closed, fun _ hl => hl, fun l _ => Or.inl (.refl _ l), fun s hs => (hnone s hs).elim⟩
  -- Folders alone do not make the document.
  have hunsaved : ∀ ws, d.tree.Runs (Heeds d.here (Intent.start verb args mode now).snapshots fun _ => False) ws →
      ∀ c, (d.after ws).tree.get? (spot d.here (j.file (Intent.identifier verb args mode now))) ≠ some (.file c) := by
    intro ws hws c hc
    have hfills : d.tree.Runs (Fills d.here fun _ => False) ws := hws.mono fun _ _ hw => hw.1
    rw [after_tree, hfills.sameFile id c, hfree] at hc
    exact absurd hc (by simp)
  rcases stays_save_telling hsound hkeeps hfrees hbetween (I := fun e =>
      ∀ c, e.tree.get? (spot d.here (j.file (Intent.identifier verb args mode now))) ≠ some (.file c)) hunsaved
    with ⟨hstays, hend⟩
  exact ⟨hstays.mono fun e he => he.imp_right fun he' => ⟨he', htells, hfrees⟩,
    fun e he => ⟨hend _ e he, htells, hfrees⟩⟩

include h

/-- Once the intent is there, everything that its plan does is on record. -/
theorem follows_start {e : Disk} (he : (j.save (.start verb args mode now)).on d = (.ok (), e)) :
    j.Follows (j.Traced d (.start verb args mode now) made behind) (j.Knows d (.start verb args mode now) made behind)
      (.start verb args mode now) ((.record made :: steps) ++ behind) e := by
  have hstart := (stays_save_start hsound hkeeps hfree made behind).2 e he
  rcases @take_record _ _ _ _ made hsound hkeeps hstart.toRecorded hstart.frees with ⟨hstays, herror, hok⟩
  have hcreated : ∀ {e₁ : Disk}, j.Recorded d ((Intent.start verb args mode now).withCreated made.text) e₁ →
      j.Traced d (.start verb args mode now) made behind ((Intent.start verb args mode now).withCreated made.text) e₁ :=
    fun he₁ => ⟨he₁, hstart.tells.withCreated rfl, hstart.frees⟩
  have hkept : ∀ {e₁ : Disk}, j.Recorded d (.start verb args mode now) e₁ →
      j.Traced d (.start verb args mode now) made behind (.start verb args mode now) e₁ :=
    fun he₁ => ⟨he₁, hstart.tells, hstart.frees⟩
  refine follows_cons hstart.knows (hstays.mono fun e₁ he₁ => ?_) (fun k e₁ htold hstop => ?_)
    (fun f e₁ he₁ => hkept (herror f e₁ he₁)) fun k c e₁ he₁ => ?_
  -- The path is on record now, or it is not yet.
  · rcases he₁ with he₁ | he₁
    · exact ⟨_, hkept he₁⟩
    · exact ⟨_, hcreated he₁⟩
  · -- The path is listed in memory before it is saved.
    have hk : k = (Intent.start verb args mode now).withCreated made.text := (Except.ok.inj (Prod.mk.inj htold).1).symm
    subst hk
    rcases hstays.stops hstop with he₁ | he₁
    · have hbetween := he₁.toBetween.mono (fun _ hs => hs) fun c hc => List.mem_append_left [made.text] hc
      exact ⟨⟨hbetween.here, hbetween.closed, hbetween.folders, hbetween.files, hbetween.plain⟩,
        hstart.tells.withCreated rfl, hstart.frees, _, hkept he₁, fun _ hs => hs⟩
    · exact (hcreated he₁).knows
  · rcases hok k c e₁ he₁ with ⟨rfl, hrecorded⟩
    exact follows_traceable hsound hkeeps hstart.tells rfl hfree h hrecorded rfl

/-- Wherever a command is stopped, there is no document of its intent, or everything
    that was done is on record. -/
theorem stays_track_traced :
    Stays (fun e => (∀ c, e.tree.get? (spot d.here (j.file (Intent.identifier verb args mode now))) ≠ some (.file c))
        ∨ ∃ i, j.Traced d (.start verb args mode now) made behind i e)
      (j.track now verb args mode ((.record made :: steps) ++ behind)) d := by
  refine stays_track_following (T := j.Traced d (.start verb args mode now) made behind)
    (S := j.Knows d (.start verb args mode now) made behind)
    ((stays_save_start hsound hkeeps hfree made behind).1.mono fun e he => he.imp_right fun he' => ⟨_, he'⟩)
    (fun e he => follows_start hsound hkeeps hfree h he) (fun k e hk => Or.inr ⟨k, hk⟩) fun k r e hk => ?_
  have hid : k.id = Intent.identifier verb args mode now := hk.tells.continues.id
  refine (stays_settle_recorded hsound hkeeps hk.toRecorded hk.frees r).mono fun e' he' => ?_
  rw [hid] at he'
  rcases he' with hgone | he' | ⟨message, he'⟩
  · exact Or.inl hgone
  · exact Or.inr ⟨k, he', hk.tells, hk.frees⟩
  · exact Or.inr ⟨_, he', hk.tells.withError message, hk.frees⟩

/-- Where an exception was raised and the intent has been saved with its words, or that
    was stopped in turn, everything that was done is on record. -/
theorem traced_of_broken (hbroken : j.Broken now verb args mode ((.record made :: steps) ++ behind) d e) :
    ∃ i, j.Traced d (.start verb args mode now) made behind i e := by
  rcases hbroken with ⟨d₀, k, d₁, message, hbegun, hbreaks, hsaved⟩
  have hknows := (follows_start hsound hkeeps hfree h hbegun).2.2 k d₁ hbreaks
  exact (hknows.stays_save hsound hkeeps message).stops hsaved

end Plan

end Track

end Journal

end RouteScaffold
